import SpanTree.Bill.Encode

/-!
# Decoding a node block

Decoding goes through a block from left to right and learns the names that are spelled out. It stops
at the first fault; the names learned until then stay learned.

A node may lie at most `maxDepth` levels below the root. The number of levels that are left bounds
the recursion, and the number of bytes that are left bounds the loop over the children of a node,
since every node takes some.
-/

namespace SpanTree.Bill

/-- Where a block lies in its stream. -/
structure Extent where
  offset : Nat
  size : Nat
deriving DecidableEq, Repr

/-- How far decoding has got: the position in the block, the bytes from there on, and the names
known by now. -/
structure Cursor where
  pos : Nat
  rest : Bytes
  dict : Dictionary
deriving DecidableEq, Repr

abbrev Decoding (α : Type) := ExceptT Error (StateM Cursor) α

namespace Extent

def malformed (e : Extent) (pos : Nat) (what : Malformation) : Error :=
  .malformed (e.offset + pos) what

/-- The byte at `pos` is missing. -/
def missing (e : Extent) (pos : Nat) : Error := .truncated (e.offset + pos)

/-- The block is too short for an item that begins in it. -/
def cutOff (e : Extent) : Error := .truncated (e.offset + e.size)

end Extent

def advance (n : Nat) : Decoding Unit :=
  modify fun c => { c with pos := c.pos + n, rest := c.rest.drop n }

/-- The position at which the children of the node that begins here end, if it has a header. -/
def decodeChildrenHeader (e : Extent) : Decoding (Option Nat) := do
  let c ← get
  match c.rest with
  | [] => throw (e.missing c.pos)
  | [lo] => if lo.toNat < 128 then return none else throw (e.missing (c.pos + 1))
  | lo :: hi :: _ =>
    if lo.toNat < 128 then return none
    else
      advance 2
      let stop := c.pos + 2 + childrenLength lo hi
      if e.size < stop then throw e.cutOff else return some stop

/-- A name in full, of which the first byte has been looked at. Whatever it is, it is learned. -/
def decodeFullName (e : Extent) (lo : UInt8) : Bytes → Decoding String
  | [] => do throw (e.missing ((← get).pos + 1))
  | hi :: bs => do
    let c ← get
    let length := fullNameLength lo hi
    if e.size < c.pos + 2 + length then throw e.cutOff
    else
      match Utf8.decode? (bs.take length) with
      | none => throw (e.malformed c.pos .nameNotUtf8)
      | some name =>
        advance (2 + length)
        modify fun c => { c with dict := c.dict.learn name }
        return name

/-- A name by index or in full. -/
def decodeName (e : Extent) : Decoding String := do
  let c ← get
  match c.rest with
  | [] => throw (e.missing c.pos)
  | b :: bs =>
    if b.toNat < 64 then
      match c.dict.name? b.toNat with
      | none => throw (e.malformed c.pos .unknownIndex)
      | some name =>
        advance 1
        return name
    else if b.toNat < 128 then decodeFullName e b bs
    else throw (e.malformed c.pos .nameExpected)

/-- A name that a node may have. -/
def decodeNodeName (e : Extent) : Decoding String := do
  let name ← decodeName e
  if Name.isNode name then return name else throw (.invalidNodeName name)

def decodeNodeSpan (e : Extent) : Decoding (Nat × Nat) := do
  match decodeSpan (← get).rest with
  | none => throw e.cutOff
  | some (skip, length, used) =>
    advance used
    return (skip, length)

/-- Nodes one after the other up to the position `stop`, each read by `node` from the end of the one
before it. -/
def decodeUntil (e : Extent) (node : Nat → Decoding Node) (stop : Nat) :
    (bytesLeft cursor : Nat) → Decoding (List Node)
  | bytesLeft, cursor => do
    let c ← get
    if c.pos < stop then
      match bytesLeft with
      | 0 => throw (e.malformed c.pos .childOverrun)
      | bytesLeft + 1 =>
        let n ← node cursor
        let ns ← decodeUntil e node stop bytesLeft n.stop
        return n :: ns
    else if c.pos = stop then return []
    else throw (e.malformed c.pos .childOverrun)

/-- A node, with as many levels from it downwards as are given; the node before it, or its parent's
start, ends at `cursor`. -/
def decodeNode (e : Extent) : (levels cursor : Nat) → Decoding Node
  | 0, _ => do throw (e.malformed (← get).pos .nestingTooDeep)
  | levels + 1, cursor => do
    let stop? ← decodeChildrenHeader e
    let name ← decodeNodeName e
    let (skip, length) ← decodeNodeSpan e
    let start := cursor + skip
    match stop? with
    | none => return ⟨name, start, start + length, []⟩
    | some stop =>
      let children ← decodeUntil e (decodeNode e levels) stop e.size start
      if children.isEmpty then throw (e.malformed (← get).pos .headerWithoutChildren)
      else return ⟨name, start, start + length, children⟩

/-- The root, which takes the whole block. -/
def decodeRoot (e : Extent) : Decoding Node := do
  let root ← decodeNode e (maxDepth + 1) 0
  let c ← get
  if c.pos = e.size then return root else throw (e.malformed c.pos .trailingBytes)

/-- A root that is not in the block, over `rawSize` bytes: the block holds its children. -/
def decodeChildrenOf (e : Extent) (rootName : String) (rawSize : Nat) : Decoding Node := do
  let children ← decodeUntil e (decodeNode e maxDepth) e.size e.size 0
  return ⟨rootName, 0, rawSize, children⟩

end SpanTree.Bill
