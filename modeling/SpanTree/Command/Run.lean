import SpanTree.Bill.Reader
import SpanTree.Command.Basic
import SpanTree.Command.Directory
import SpanTree.Config.File
import SpanTree.Gzip
import SpanTree.Record
import SpanTree.Sink.Registry
import SpanTree.Tree.Json
import SpanTree.Tree.Python

/-!
# Running commands

A command reads files of a directory, prints, and may write a file. It stops at the first failure;
what it has printed until then stays printed. Streams are packed and unpacked by a codec for gzip
files, and configurations are read by given readers.
-/

namespace SpanTree

/-- Why a command stops. -/
inductive Failure
  | error (e : Error)
  | file (fault : FileFault)
deriving DecidableEq, Repr

def Failure.message : Failure → String
  | error e => e.message
  | file fault => fault.message

/-- What a command leaves behind. -/
structure Report where
  output : String
  failure : Option Failure
  files : Directory
  notices : List Notice := []

/-- The serialized trees of a record file. -/
structure Serialized where
  bytes : Bytes
  accepted : Nat
  dropped : Nat

namespace Command

open Text (quote)

/-! ## Building -/

/-- Hands the trees to a context one by one; refused trees are counted and left out. -/
def serializeAll (c : Context) (acc : Serialized) :
    List Tree → Serialized × Context × List Notice
  | [] => (acc, c, [])
  | t :: ts =>
    let o := c.serialize t
    let acc := match o.result with
      | .ok bytes => { acc with bytes := acc.bytes ++ bytes, accepted := acc.accepted + 1 }
      | .error _ => { acc with dropped := acc.dropped + 1 }
    let (acc, c, notices) := serializeAll o.state acc ts
    (acc, c, o.notices ++ notices)

/-- The output of a serializer for a list of trees. -/
def serialize (s : Serializer) (ts : List Tree) : Serialized × List Notice :=
  let (acc, c, notices) := serializeAll (Context.ofSerializer s) ⟨[], 0, 0⟩ ts
  ({ acc with bytes := acc.bytes ++ c.close.1 }, notices)

/-- The configuration of a build before its options: that of its file, if it names one. -/
def buildConfig (readers : ConfigReaders) (files : Directory) (o : BuildOptions) :
    Except Error OutputConfig :=
  match o.config with
  | some path => OutputConfig.ofFile readers path (files.read path)
  | none => .ok {}

def withOptions (c : OutputConfig) (o : BuildOptions) : OutputConfig :=
  { c with
    gzip := c.gzip || o.gzip
    bill := { c.bill with noRootNode := c.bill.noRootNode || o.noRootNode } }

def readingLine (o : BuildOptions) : String :=
  if o.verbose then "Reading records: " ++ quote o.input ++ "\n" else ""

def writtenLine (o : BuildOptions) (s : Serialized) (serializer : Serializer) (logger : Logger)
    (onDisk : Nat) : String :=
  if o.verbose then
    s!"Wrote {s.accepted} trees ({s.dropped} dropped) with serializer {serializer.name}, "
      ++ s!"logger {logger.name}: {s.bytes.length} bytes ({onDisk} on disk)\n"
  else ""

def runBuild (codec : Gzip.Codec) (readers : ConfigReaders) (files : Directory)
    (o : BuildOptions) : Report :=
  let failed := fun (output : String) (failure : Failure) =>
    ({ output := output, failure := some failure, files := files } : Report)
  match (buildConfig readers files o).map (withOptions · o) with
  | .error e => failed "" (.error e)
  | .ok config =>
    match (Registry.withBuiltins config.bill).resolve config with
    | .error e => failed "" (.error e)
    | .ok (serializer, logger) =>
      match files.readText o.input with
      | .error fault => failed (readingLine o) (.file fault)
      | .ok text =>
        match parseRecords text with
        | .error e => failed (readingLine o) (.error e)
        | .ok ts =>
          let (s, notices) := serialize serializer ts
          let data := if config.gzip then codec.pack s.bytes else s.bytes
          match files.write o.output data with
          | .error fault => { failed (readingLine o) (.file fault) with notices := notices }
          | .ok files =>
            { output := readingLine o ++ writtenLine o s serializer logger data.length
              failure := none
              files := files
              notices := notices ++ [.treesWritten s.accepted o.output] }

/-! ## Reading back -/

/-- The bytes of a stream that may be compressed. -/
def openStream (codec : Gzip.Codec) (files : Directory) (path : String) : Except Failure Bytes :=
  match files.read path with
  | .error fault => .error (.file fault)
  | .ok bytes =>
    match codec.decompress bytes with
    | .error e => .error (.error e)
    | .ok data => .ok data

def openReader (data : Bytes) (rootName : Option String) : Except Error Reader := do
  let r ← Reader.ofBytes data
  match rootName with
  | some name => r.withRootName name
  | none => return r

/-- Python and JSON end without a line break of their own. -/
def render (t : Tree) : Format → String
  | .text => t.dump
  | .lorth => t.lorth
  | .python => t.python ++ "\n"
  | .json => t.toJson.compact ++ "\n"

def runDump (codec : Gzip.Codec) (files : Directory) (input : String) (format : Format)
    (rootName : Option String) : Report :=
  match openStream codec files input with
  | .error failure => { output := "", failure := some failure, files := files }
  | .ok data =>
    match openReader data rootName with
    | .error e => { output := "", failure := some (.error e), files := files }
    | .ok r =>
      let (ts, last) := r.allTrees
      { output := String.join (ts.map (render · format))
        failure := match last.result with
          | .error e => some (.error e)
          | .ok () => none
        files := files
        notices := last.notices }

/-! ## Statistics -/

/-- What is told about a stream. -/
structure Statistics where
  size : Nat
  trees : Nat
  rawBytes : Nat
  largestRaw : Nat
  isTerminated : Bool
deriving DecidableEq, Repr

def Statistics.ofTrees (size : Nat) (ts : List Tree) (isTerminated : Bool) : Statistics :=
  let lengths := ts.map fun t => t.raw.length
  ⟨size, ts.length, lengths.foldl (· + ·) 0, lengths.foldl max 0, isTerminated⟩

def Statistics.lines (s : Statistics) (path : String) : String :=
  "Stream:      " ++ quote path ++ "\n"
    ++ s!"Size:        {s.size} bytes\n"
    ++ s!"Trees:       {s.trees}\n"
    ++ s!"Raw bytes:   {s.rawBytes}\n"
    ++ s!"Largest raw: {s.largestRaw}\n"
    ++ s!"Overhead:    {s.size - s.rawBytes} bytes\n"
    ++ "Terminated:  " ++ (if s.isTerminated then "true" else "false") ++ "\n"

def runInspect (codec : Gzip.Codec) (files : Directory) (input : String)
    (rootName : Option String) : Report :=
  match openStream codec files input with
  | .error failure => { output := "", failure := some failure, files := files }
  | .ok data =>
    match openReader data rootName with
    | .error e => { output := "", failure := some (.error e), files := files }
    | .ok r =>
      let (ts, last) := r.allTrees
      match last.result with
      | .error e =>
        { output := "", failure := some (.error e), files := files, notices := last.notices }
      | .ok () =>
        { output := (Statistics.ofTrees data.length ts last.state.isFinished).lines input
          failure := none
          files := files
          notices := last.notices }

def runWith (codec : Gzip.Codec) (readers : ConfigReaders) (files : Directory) :
    Command → Report
  | .build o => runBuild codec readers files o
  | .dump input format rootName => runDump codec files input format rootName
  | .inspect input rootName => runInspect codec files input rootName

def run (files : Directory) (c : Command) : Report :=
  c.runWith Gzip.stored ConfigReaders.standard files

end Command

end SpanTree
