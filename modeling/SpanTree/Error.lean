import SpanTree.Text.Quoted

/-!
# Errors

Each way in which an operation can fail is a constructor that carries its cause, a broken assertion
among them; the wording is in `Error.message` and in the functions it calls.
-/

namespace SpanTree

/-- What is wrong with a node block. -/
inductive Malformation
  | nestingTooDeep
  | headerWithoutChildren
  | childOverrun
  | unknownIndex
  | nameNotUtf8
  | nameExpected
  | trailingBytes
  | spansOutsideRaw
deriving DecidableEq, Repr

def Malformation.reason : Malformation → String
  | nestingTooDeep => "nesting too deep"
  | headerWithoutChildren => "children header without children"
  | childOverrun => "child overruns its parent's block"
  | unknownIndex => "unknown dictionary index"
  | nameNotUtf8 => "node name is not UTF-8"
  | nameExpected => "expected a node name"
  | trailingBytes => "trailing bytes after root node"
  | spansOutsideRaw => "node spans do not fit the raw buffer"

/-- What is wrong with the path of a record line. -/
inductive RecordFault
  | notRooted (path : String)
  | invalidPath (path : String)
deriving DecidableEq, Repr

/-- What is wrong with an output configuration, or with what it names. -/
inductive ConfigFault
  | unsupportedSerializer (name : String) (supported : List String)
  | emptyLogger
  | invalidRootName (name : String)
  | unknownSerializer (name : String)
  | unknownLogger (name : String)
  | gzipDecompression (reason : String)
deriving DecidableEq, Repr

/-- Why a file cannot be read or written. -/
inductive FileFault
  | notFound
  | notDirectory
  | isDirectory
  | notUtf8
deriving DecidableEq, Repr

def FileFault.message : FileFault → String
  | notFound => "No such file or directory (os error 2)"
  | notDirectory => "Not a directory (os error 20)"
  | isDirectory => "Is a directory (os error 21)"
  | notUtf8 => "stream did not contain valid UTF-8"

inductive Error
  | invalidNodeName (name : String)
  | invalidPathName (path : String)
  | relativePath (path : String)
  | nameConflict (ours theirs : String)
  | nodeMergeUnsupported
  | spanOverflow (skip length : Nat)
  | nameTooLong (bytes : Nat)
  | childrenBlockTooLarge (bytes : Nat)
  | nestingTooDeep (levels : Nat)
  /-- A broken assertion of the encoder: no answer, the program ends here. -/
  | indexTooLarge (index : Nat)
  | invalidMagic
  | unsupportedVersion (version : Nat)
  | truncated (offset : Nat)
  | malformed (offset : Nat) (what : Malformation)
  | varintOverflow
  | contextClosed
  | invalidRecord (line : Nat) (fault : RecordFault)
  | io (fault : FileFault)
  | yaml (reason : String)
  | json (reason : String)
  | pattern (reason : String)
  | config (fault : ConfigFault)
deriving DecidableEq, Repr

open Text (quote)

/-- A list of names as it stands in a message. -/
def quoteAll (names : List String) : String :=
  "[" ++ ", ".intercalate (names.map quote) ++ "]"

/-- The line of a record names the fault in the words of the error it comes from. -/
def RecordFault.reason : RecordFault → String
  | notRooted path => "path " ++ quote path ++ " does not start with $"
  | invalidPath path => "invalid path name: " ++ quote path

def ConfigFault.reason : ConfigFault → String
  | unsupportedSerializer name supported =>
    "unknown serializer " ++ quote name ++ ", expected one of " ++ quoteAll supported
  | emptyLogger => "logger name is empty"
  | invalidRootName name => "invalid root_name: " ++ quote name
  | unknownSerializer name => "unknown serializer: " ++ name
  | unknownLogger name => "unknown logger: " ++ name
  | gzipDecompression reason => "Gzip decompression failed: " ++ reason

def Error.message : Error → String
  | invalidNodeName name => "invalid node name: " ++ quote name
  | invalidPathName path => "invalid path name: " ++ quote path
  | relativePath path => "relative path cannot be turned into a tree: " ++ quote path
  | nameConflict ours theirs =>
    "cannot merge root " ++ quote theirs ++ " into root " ++ quote ours
  | nodeMergeUnsupported => "node merge is not supported"
  | spanOverflow skip length => s!"span too large to encode: skip {skip}, length {length}"
  | nameTooLong bytes => s!"node name too long to encode: {bytes} bytes"
  | childrenBlockTooLarge bytes => s!"children block too large to encode: {bytes} bytes"
  | nestingTooDeep levels => s!"tree nesting deeper than {levels} levels"
  | indexTooLarge _ => "assertion failed: index <= LOW6 as u16"
  | invalidMagic => "invalid magic bytes: expected BILL header"
  | unsupportedVersion version => s!"unsupported format version: {version}"
  | truncated offset => s!"unexpected end of data at offset {offset}"
  | malformed offset what => s!"malformed data at offset {offset}: " ++ what.reason
  | varintOverflow => "varint overflows 64 bits"
  | contextClosed => "serializer context is closed"
  | invalidRecord line fault => s!"invalid record at line {line}: " ++ fault.reason
  | io fault => "IO error: " ++ fault.message
  | yaml reason => "YAML parsing error: " ++ reason
  | json reason => "JSON error: " ++ reason
  | pattern reason => "regex error: " ++ reason
  | config fault => "configuration error: " ++ fault.reason

end SpanTree
