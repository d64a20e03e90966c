import SpanTree.Config.Json
import SpanTree.Config.Yaml
import SpanTree.Text.Utf8

/-!
# Configuration files

A file whose name ends in `.json` is read as JSON, any other as YAML. The readers of the program are
`ConfigReaders.standard`.
-/

namespace SpanTree

/-- What follows the last dot of a file name. A dot at the very front begins no extension. -/
def fileExtension? (path : String) : Option String :=
  let base := ((Text.pieces '/' path.toList).getLast?).getD []
  let after := (base.reverse.takeWhile (· != '.')).reverse
  let before := base.take (base.length - after.length - 1)
  if after.length < base.length ∧ !before.isEmpty then some (String.ofList after) else none

def ConfigReaders.standard : ConfigReaders := ⟨OutputConfig.readJson, OutputConfig.readYaml⟩

/-- The configuration in a file, given its path and its content. -/
def OutputConfig.ofFile (readers : ConfigReaders) (path : String)
    (content : Except FileFault Bytes) : Except Error OutputConfig :=
  match content with
  | .error fault => .error (.io fault)
  | .ok bytes =>
    match Utf8.decode? bytes with
    | none => .error (.io .notUtf8)
    | some text =>
      if fileExtension? path = some "json" then ofJson readers text else ofYaml readers text

end SpanTree
