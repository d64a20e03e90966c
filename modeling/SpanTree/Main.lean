import SpanTree.Command.Run

/-!
# The command line

Reads the files that the command names, runs it on them, and writes back what it has written.
-/

namespace SpanTree

/-- The files that a command may read. -/
def Command.inputs : Command → List String
  | .build o => o.input :: o.config.toList
  | .dump input _ _ => [input]
  | .inspect input _ => [input]

/-- The file that a command may write. -/
def Command.target? : Command → Option String
  | .build o => some o.output
  | .dump _ _ _ | .inspect _ _ => none

/-- The files that the command reads, as far as they can be read. Whether its target can be written
is left to the file system. -/
def loadFiles (c : Command) : IO Directory :=
  c.inputs.foldlM
    (fun (d : Directory) (path : String) => do
      try
        let bytes ← IO.FS.readBinFile path
        return d.add path bytes.data.toList
      catch _ => return d)
    (c.target?.elim [] fun path => Directory.addFolders [] path)

def Level.label : Level → String
  | .error => "ERROR"
  | .warn => "WARN"
  | .info => "INFO"
  | .debug => "DEBUG"

/-- Notices that are shown without being asked for. -/
def Notice.isShown (n : Notice) : Bool := n.level != .debug

def usage : String :=
  "Usage: build --input <INPUT> --output <OUTPUT> [--config <CONFIG>] [--no-root-node] [--gzip]\n"
    ++ "             [--verbose]\n"
    ++ "       dump --input <INPUT> [--format <text|lorth|python|json>] [--root-name <ROOT_NAME>]\n"
    ++ "       inspect --input <INPUT> [--root-name <ROOT_NAME>]"

/-- Writes the target of a command, if the command has written it. -/
def storeTarget (c : Command) (r : Report) : IO Bool := do
  match c.target?, r.failure with
  | some path, none =>
    match r.files.read path with
    | .ok bytes =>
      try
        IO.FS.writeBinFile path ⟨bytes.toArray⟩
        return true
      catch e =>
        IO.eprintln s!"Error: {e}"
        return false
    | .error _ => return true
  | _, _ => return true

def runCommand (c : Command) : IO UInt32 := do
  let r := c.run (← loadFiles c)
  let isStored ← storeTarget c r
  for n in r.notices do
    if n.isShown then IO.eprintln s!"[{n.level.label}] {n.message}"
  IO.print r.output
  match r.failure with
  | some failure =>
    IO.eprintln s!"Error: {failure.message}"
    return 1
  | none => return if isStored then 0 else 1

end SpanTree

def main (args : List String) : IO UInt32 := do
  match SpanTree.Command.parse? args with
  | some c => SpanTree.runCommand c
  | none =>
    IO.eprintln SpanTree.usage
    return 2
