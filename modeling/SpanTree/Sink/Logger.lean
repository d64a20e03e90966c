import SpanTree.Tree.Dump

/-!
# Loggers

A logger accepts finished trees. The null logger drops them; a keeper keeps the dump of each, in the
order in which the trees came.
-/

namespace SpanTree

inductive Logger
  | null
  | keeper (name : String) (dumps : List String)
deriving DecidableEq, Repr

namespace Logger

def name : Logger → String
  | null => "null"
  | keeper name _ => name

def log : Logger → Tree → Logger
  | null, _ => null
  | keeper name dumps, t => keeper name (dumps ++ [t.dump])

end Logger

end SpanTree
