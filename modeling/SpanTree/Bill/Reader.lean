import SpanTree.Bill.Decode
import SpanTree.Bill.Header
import SpanTree.Bill.Varint
import SpanTree.Notice

/-!
# Reading a stream

A reader holds what is left of a stream and the names it has met. `next` reads one frame; it comes
to nothing at the terminator and at the end of the data. A frame that cannot be read is an error,
behind which the reader stands where the fault was noticed: what it reads from there is up to the
caller.

`nextItem` is for going through a stream to its end: the first error is the last item.
-/

namespace SpanTree

structure Reader where
  /-- The number of bytes of the whole stream. -/
  size : Nat
  /-- The offset of the next byte. -/
  position : Nat
  rest : Bytes
  dict : Dictionary
  /-- The name of the roots, if the stream has none. -/
  rootName : Option String
  isFinished : Bool
deriving DecidableEq, Repr

namespace Reader

open Bill

/-- A stream is opened behind its header. -/
def ofBytes (data : Bytes) : Except Error Reader :=
  match checkHeader data with
  | .error e => .error e
  | .ok () =>
    .ok ⟨data.length, header.length, data.drop header.length,
      Dictionary.ofCapacity dictionarySize, none, false⟩

def withRootName (r : Reader) (name : String) : Except Error Reader :=
  if Name.isNode name then .ok { r with rootName := some name } else .error (.invalidNodeName name)

def skip (r : Reader) (n : Nat) : Reader :=
  { r with position := r.position + n, rest := r.rest.drop n }

/-! ## Frames -/

/-- A computation that moves a reader, also when it fails. -/
abbrev Reading (α : Type) := ExceptT Error (StateM Reader) α

def readLength : Reading Nat := do
  let r ← get
  match ← liftExcept (Varint.decode r.rest) with
  | none => throw (.truncated r.size)
  | some (v, used) =>
    set (r.skip used)
    return v

def take (n : Nat) : Reading Bytes := do
  let r ← get
  if r.size - r.position < n then throw (.truncated r.size)
  else
    set (r.skip n)
    return r.rest.take n

/-- Decodes a block with the names that the reader knows, and keeps those it learns. -/
def decoding (block : Bytes) (d : Decoding Node) : Reading Node := do
  let r ← get
  let (result, c) := d.run.run ⟨0, block, r.dict⟩
  set { r with dict := c.dict }
  liftExcept result

/-- The rest of a frame whose raw buffer has `rawLength` bytes. -/
def readFrame (rawLength : Nat) : Reading Tree := do
  let raw ← take rawLength
  let blockLength ← readLength
  let r ← get
  let block ← take blockLength
  let e : Extent := ⟨r.position, blockLength⟩
  let root ← decoding block <|
    match r.rootName with
    | none => decodeRoot e
    | some name => decodeChildrenOf e name rawLength
  let t : Tree := ⟨root, raw⟩
  if t.isValid then return t else throw (e.malformed 0 .spansOutsideRaw)

def readTree : Reading (Option Tree) := do
  let r ← get
  if r.isFinished || r.position == r.size then return none
  else
    let rawLength ← readLength
    if rawLength = terminator then
      modify fun r => { r with isFinished := true }
      return none
    else return some (← readFrame rawLength)

/-! ## Going through a stream -/

/-- Bytes behind the terminator are noticed when it is read. -/
def terminatorNotices (before after : Reader) : List Notice :=
  if !before.isFinished && after.isFinished && after.position != after.size then
    [.bytesAfterTerminator (after.size - after.position)]
  else []

def next (r : Reader) : Outcome Reader (Option Tree) :=
  let (result, after) := readTree.run.run r
  { result := result, state := after, notices := terminatorNotices r after }

/-- Like `next`, but an error ends the stream. -/
def nextItem (r : Reader) : Outcome Reader (Option Tree) :=
  let o := r.next
  match o.result with
  | .error _ => { o with state := { o.state with isFinished := true } }
  | .ok _ => o

/-- The trees before the first error or the end, and how the stream ended. Every tree takes bytes,
so their number bounds the steps. -/
def trees : (fuel : Nat) → Reader → List Tree × Outcome Reader Unit
  | 0, r => ([], { result := .ok (), state := r })
  | fuel + 1, r =>
    let o := r.nextItem
    match o.result with
    | .error e => ([], { result := .error e, state := o.state, notices := o.notices })
    | .ok none => ([], { result := .ok (), state := o.state, notices := o.notices })
    | .ok (some t) =>
      let (ts, last) := trees fuel o.state
      (t :: ts, { last with notices := o.notices ++ last.notices })

def allTrees (r : Reader) : List Tree × Outcome Reader Unit := r.trees (r.size + 1)

end Reader

/-- All trees of a stream whose roots are written, unless it is faulty somewhere. -/
def readAll (data : Bytes) : Except Error (List Tree) × List Notice :=
  match Reader.ofBytes data with
  | .error e => (.error e, [])
  | .ok r =>
    let (ts, last) := r.allTrees
    (last.result.map fun _ => ts, last.notices)

end SpanTree
