import SpanTree.Command.Arguments

/-!
# Commands

`build` serializes a record file, `dump` prints the trees of a stream, and `inspect` prints
statistics about one.
-/

namespace SpanTree

/-- How a dumped tree is shown. -/
inductive Format
  | text
  | lorth
  | python
  | json
deriving DecidableEq, Repr

def Format.ofName? : String → Option Format
  | "text" => some text
  | "lorth" => some lorth
  | "python" => some python
  | "json" => some json
  | _ => none

structure BuildOptions where
  input : String
  output : String
  config : Option String
  noRootNode : Bool
  gzip : Bool
  verbose : Bool
deriving DecidableEq, Repr

inductive Command
  | build (options : BuildOptions)
  | dump (input : String) (format : Format) (rootName : Option String)
  | inspect (input : String) (rootName : Option String)
deriving DecidableEq, Repr

namespace Command

def input : Switch := ⟨"input", some 'i', true⟩

def output : Switch := ⟨"output", some 'o', true⟩

def config : Switch := ⟨"config", some 'c', true⟩

def noRootNode : Switch := ⟨"no-root-node", none, false⟩

def gzip : Switch := ⟨"gzip", none, false⟩

def verbose : Switch := ⟨"verbose", some 'v', false⟩

def format : Switch := ⟨"format", some 'f', true⟩

def rootName : Switch := ⟨"root-name", none, true⟩

def valueOf (given : Given) (s : Switch) : Option String := (given.lookup s.long).join

def isGiven (given : Given) (s : Switch) : Bool := (given.lookup s.long).isSome

/-- A file that must be given, by a name that is not empty. -/
def fileOf (given : Given) (s : Switch) : Option String :=
  (valueOf given s).filter fun v => !v.isEmpty

/-- A file that may be given: absent, or by a name that is not empty. -/
def optionalFileOf (given : Given) (s : Switch) : Option (Option String) :=
  if isGiven given s then (fileOf given s).map some else some none

def ofBuild (given : Given) : Option Command := do
  return .build {
    input := ← fileOf given input
    output := ← fileOf given output
    config := ← optionalFileOf given config
    noRootNode := isGiven given noRootNode
    gzip := isGiven given gzip
    verbose := isGiven given verbose }

def ofDump (given : Given) : Option Command := do
  let format ← match valueOf given format with
    | none => some .text
    | some name => Format.ofName? name
  return .dump (← fileOf given input) format (valueOf given rootName)

def ofInspect (given : Given) : Option Command := do
  return .inspect (← fileOf given input) (valueOf given rootName)

/-- The command that the arguments give, unless they are malformed. -/
def parse? : List String → Option Command
  | "build" :: args =>
    (readArguments [input, output, config, noRootNode, gzip, verbose] args.length args []).bind
      ofBuild
  | "dump" :: args =>
    (readArguments [input, format, rootName] args.length args []).bind ofDump
  | "inspect" :: args => (readArguments [input, rootName] args.length args []).bind ofInspect
  | _ => none

end Command

end SpanTree
