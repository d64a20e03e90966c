import SpanTree.Path.Entries
import SpanTree.Sink.Logger
import SpanTree.Sink.Serializer

/-!
# Registries of serializers and loggers

Serializers and loggers are registered under their names; the first to take a name keeps it. A name
that is looked up and not known stands for the null object, so that a pipeline with a wrong
configuration keeps running and drops its trees. `resolve` is for those who want to know instead.
-/

namespace SpanTree

structure Registry where
  /-- Sorted by name. -/
  serializers : Entries Serializer
  /-- In the order of registration. -/
  loggers : List Logger

namespace Registry

def empty : Registry := ⟨[], []⟩

/-! ## Registration -/

def hasSerializer (r : Registry) (name : String) : Bool := (r.serializers.get? name).isSome

def logger? (r : Registry) (name : String) : Option Logger :=
  r.loggers.find? (·.name == name)

def hasLogger (r : Registry) (name : String) : Bool := (r.logger? name).isSome

/-- Whether the name was free, and the registry after the attempt. -/
def addSerializer (r : Registry) (s : Serializer) : Bool × Registry :=
  if r.hasSerializer s.name then (false, r)
  else (true, { r with serializers := r.serializers.insert s.name s })

/-- Whether the name was free, and the registry after the attempt. -/
def addLogger (r : Registry) (l : Logger) : Bool × Registry :=
  if r.hasLogger l.name then (false, r) else (true, { r with loggers := r.loggers ++ [l] })

def withBuiltins (config : BillConfig) : Registry :=
  let serializers : List Serializer := [.bill config, .lorth, .null]
  let r := serializers.foldl (fun r s => (r.addSerializer s).2) empty
  (r.addLogger .null).2

def serializerNames (r : Registry) : List String := r.serializers.map Prod.fst

/-! ## Look-up -/

def serializer (r : Registry) (name : String) : Serializer × List Notice :=
  match r.serializers.get? name with
  | some s => (s, [])
  | none => (.null, [.unknownSerializer name])

def logger (r : Registry) (name : String) : Logger × List Notice :=
  match r.logger? name with
  | some l => (l, [])
  | none => (.null, [.unknownLogger name])

/-- Hands a tree to the logger of a name. -/
def log (r : Registry) (name : String) (t : Tree) : Registry × List Notice :=
  ({ r with loggers := r.loggers.map fun l => if l.name == name then l.log t else l },
    (r.logger name).2)

/-- The serializer and the logger that the configuration names. -/
def resolve (r : Registry) (c : OutputConfig) : Except Error (Serializer × Logger) :=
  match r.serializers.get? c.serializer, r.logger? c.logger with
  | none, _ => .error (.config (.unknownSerializer c.serializer))
  | some _, none => .error (.config (.unknownLogger c.logger))
  | some s, some l => .ok (s, l)

/-- The keepers and what they have kept, in the order of registration. -/
def kept (r : Registry) : List (String × List String) :=
  r.loggers.filterMap fun
    | .null => none
    | .keeper name dumps => some (name, dumps)

end Registry

end SpanTree
