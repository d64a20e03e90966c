import SpanTree.Error

/-!
# Notices and outcomes

Some operations tell what happened besides their result, at one of four levels. A notice carries the
event; its wording is `Notice.message`.

An `Outcome` is what an operation on a state leaves: the result or the error, the state after it,
and the notices in the order in which they were given.
-/

namespace SpanTree

inductive Level
  | error
  | warn
  | info
  | debug
deriving DecidableEq, Repr

inductive Notice
  | dictionaryFull (names : Nat)
  | bytesAfterTerminator (count : Nat)
  | treeDropped (rootName : String) (cause : Error)
  | unknownSerializer (name : String)
  | unknownLogger (name : String)
  | treesWritten (count : Nat) (output : String)
deriving DecidableEq, Repr

namespace Notice

open Text (quote)

def level : Notice → Level
  | dictionaryFull _ => .debug
  | bytesAfterTerminator _ | treeDropped _ _ => .warn
  | unknownSerializer _ | unknownLogger _ => .error
  | treesWritten _ _ => .info

def message : Notice → String
  | dictionaryFull names => s!"BILL dictionary full after {names} names"
  | bytesAfterTerminator count => s!"ignoring {count} bytes after BILL terminator"
  | treeDropped rootName cause => "dropping tree " ++ quote rootName ++ ": " ++ cause.message
  | unknownSerializer name => "unknown serializer " ++ quote name ++ ", using null serializer"
  | unknownLogger name => "unknown logger " ++ quote name ++ ", using null logger"
  | treesWritten count output => s!"wrote {count} trees to " ++ quote output

end Notice

structure Outcome (σ α : Type) where
  result : Except Error α
  state : σ
  notices : List Notice := []

end SpanTree
