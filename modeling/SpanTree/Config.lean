import SpanTree.Error
import SpanTree.Name
import SpanTree.Text.Blank

/-!
# Output configuration

Which serializer and which logger are to be used, whether the output is compressed, and how streams
are written. Everything has a default; what is given is checked by `validate`.

A configuration is read from a text by a reader of JSON or of YAML, which are given from outside.
-/

namespace SpanTree

structure BillConfig where
  noRootNode : Bool := false
  /-- The name that readers give to roots which are not in the stream. -/
  rootName : String := Name.root
deriving DecidableEq, Repr

structure OutputConfig where
  serializer : String := "bill"
  logger : String := "null"
  gzip : Bool := false
  bill : BillConfig := {}
deriving DecidableEq, Repr

/-- The serializers that are always there. -/
def builtinSerializers : List String := ["bill", "lorth", "null"]

namespace OutputConfig

def validate (c : OutputConfig) : Except Error OutputConfig :=
  if !builtinSerializers.contains c.serializer then
    .error (.config (.unsupportedSerializer c.serializer builtinSerializers))
  else if Text.isBlank c.logger.toList then .error (.config .emptyLogger)
  else if !Name.isNode c.bill.rootName then
    .error (.config (.invalidRootName c.bill.rootName))
  else .ok c

end OutputConfig

/-- Readers of configurations: what a text gives, with the defaults of what it leaves out, or why it
gives none. -/
structure ConfigReaders where
  json : String → Except String OutputConfig
  yaml : String → Except String OutputConfig

namespace OutputConfig

/-- The configuration that a JSON text gives, checked. -/
def ofJson (readers : ConfigReaders) (text : String) : Except Error OutputConfig :=
  match readers.json text with
  | .error reason => .error (.json reason)
  | .ok c => c.validate

/-- The configuration that a YAML text gives, checked. -/
def ofYaml (readers : ConfigReaders) (text : String) : Except Error OutputConfig :=
  match readers.yaml text with
  | .error reason => .error (.yaml reason)
  | .ok c => c.validate

end OutputConfig

end SpanTree
