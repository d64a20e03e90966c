import SpanTree.Bytes

/-!
# Inflating

A deflated stream is a sequence of blocks. Bits are taken from each byte beginning with the lowest.
A block is stored, or written in two Huffman codes: one for literals, the end of the block and the
lengths of repeats, one for the distances back to what is repeated. The codes are fixed, or given
in the block by the lengths of their words, which are themselves coded.
-/

namespace SpanTree.Inflate

/-- The bytes that are left, and how many bits of the first have been taken. -/
structure Bits where
  rest : Bytes
  used : Nat

namespace Bits

def bit : Bits → Option (Nat × Bits)
  | ⟨[], _⟩ => none
  | ⟨b :: bs, used⟩ =>
    some ((b.toNat >>> used) % 2, if used = 7 then ⟨bs, 0⟩ else ⟨b :: bs, used + 1⟩)

/-- A number of `n` bits, the lowest first. -/
def number : Nat → Bits → Option (Nat × Bits)
  | 0, s => some (0, s)
  | n + 1, s => do
    let (b, s) ← s.bit
    let (v, s) ← number n s
    return (b + 2 * v, s)

/-- The bytes behind the one that has been begun. -/
def aligned (s : Bits) : Bytes := if s.used = 0 then s.rest else s.rest.drop 1

/-- An upper bound for what can still be taken. -/
def count (s : Bits) : Nat := 8 * s.rest.length

end Bits

/-! ## Huffman codes -/

/-- How many words of the length 1, 2, … there are, and the symbols in the order of their words. -/
structure Code where
  counts : List Nat
  symbols : Array Nat

def maxWordLength : Nat := 15

/-- The code in which symbol `s` has a word of the `s`-th length; length 0 means no word. Words must
leave no room, unless there is at most one. -/
def Code.ofLengths? (lengths : List Nat) : Option Code :=
  let counts := (List.range maxWordLength).map fun l => lengths.count (l + 1)
  let room := counts.foldl (fun (room : Int) (n : Nat) => 2 * room - (n : Int)) 1
  let symbols := (List.range maxWordLength).flatMap fun l =>
    (lengths.zipIdx.filter fun p => p.1 == l + 1).map Prod.snd
  if room = 0 ∨ symbols.length ≤ 1 then some ⟨counts, symbols.toArray⟩ else none

/-- The symbol of the word at the front. `code` is the word so far, `first` the first word of its
length, and `index` the position of the symbol of that word. -/
def Code.walk (symbols : Array Nat) (code first index : Nat) : List Nat → Bits →
    Option (Nat × Bits)
  | [], _ => none
  | n :: ns, s => do
    let (b, s) ← s.bit
    let code := code + b
    if code < first + n then
      let symbol ← symbols[index + (code - first)]?
      return (symbol, s)
    else walk symbols (2 * code) (2 * (first + n)) (index + n) ns s

def Code.next (c : Code) (s : Bits) : Option (Nat × Bits) :=
  Code.walk c.symbols 0 0 0 c.counts s

/-! ## Codes of a block -/

/-- The code for literals, lengths and the end, and the code for distances. -/
abbrev Codes := Code × Code

def fixedCodes? : Option Codes := do
  let literals ← Code.ofLengths?
    (List.replicate 144 8 ++ List.replicate 112 9 ++ List.replicate 24 7 ++ List.replicate 8 8)
  let distances ← Code.ofLengths? (List.replicate 32 5)
  return (literals, distances)

/-- The order in which the lengths of the code for lengths are given. -/
def lengthOrder : List Nat := [16, 17, 18, 0, 8, 7, 9, 6, 10, 5, 11, 4, 12, 3, 13, 2, 14, 1, 15]

def numbers (width : Nat) : Nat → Bits → Option (List Nat × Bits)
  | 0, s => some ([], s)
  | n + 1, s => do
    let (v, s) ← Bits.number width s
    let (vs, s) ← numbers width n s
    return (v :: vs, s)

/-- Reads lengths until there are `total` of them; those read so far are given in reverse. -/
def codedLengths (c : Code) (total : Nat) : (fuel : Nat) → List Nat → Bits →
    Option (List Nat × Bits)
  | 0, _, _ => none
  | fuel + 1, out, s =>
    if total < out.length then none
    else if out.length = total then some (out.reverse, s)
    else do
      let (symbol, s) ← c.next s
      if symbol < 16 then codedLengths c total fuel (symbol :: out) s
      else if symbol = 16 then
        let last ← out.head?
        let (n, s) ← Bits.number 2 s
        codedLengths c total fuel (List.replicate (n + 3) last ++ out) s
      else if symbol = 17 then
        let (n, s) ← Bits.number 3 s
        codedLengths c total fuel (List.replicate (n + 3) 0 ++ out) s
      else
        let (n, s) ← Bits.number 7 s
        codedLengths c total fuel (List.replicate (n + 11) 0 ++ out) s

/-- How many symbols the code for literals and lengths may have, and the one for distances. -/
def maxLiterals : Nat := 286

def maxDistances : Nat := 30

def givenCodes (s : Bits) : Option (Codes × Bits) := do
  let (literals, s) ← Bits.number 5 s
  let (distances, s) ← Bits.number 5 s
  let (lengths, s) ← Bits.number 4 s
  let literals := literals + 257
  let distances := distances + 1
  if maxLiterals < literals ∨ maxDistances < distances then none
  else
    let (given, s) ← numbers 3 (lengths + 4) s
    let pairs := lengthOrder.zip given
    let c ← Code.ofLengths? ((List.range 19).map fun i => (pairs.lookup i).getD 0)
    let total := literals + distances
    let (all, s) ← codedLengths c total (total + 1) [] s
    let c ← Code.ofLengths? (all.take literals)
    let d ← Code.ofLengths? (all.drop literals)
    return ((c, d), s)

/-! ## Blocks -/

/-- The base and the number of further bits for the lengths from symbol 257 on. -/
def lengthTable : List (Nat × Nat) :=
  [(3, 0), (4, 0), (5, 0), (6, 0), (7, 0), (8, 0), (9, 0), (10, 0), (11, 1), (13, 1), (15, 1),
    (17, 1), (19, 2), (23, 2), (27, 2), (31, 2), (35, 3), (43, 3), (51, 3), (59, 3), (67, 4),
    (83, 4), (99, 4), (115, 4), (131, 5), (163, 5), (195, 5), (227, 5), (258, 0)]

/-- The base and the number of further bits for the distances. -/
def distanceTable : List (Nat × Nat) :=
  [(1, 0), (2, 0), (3, 0), (4, 0), (5, 1), (7, 1), (9, 2), (13, 2), (17, 3), (25, 3), (33, 4),
    (49, 4), (65, 5), (97, 5), (129, 6), (193, 6), (257, 7), (385, 7), (513, 8), (769, 8),
    (1025, 9), (1537, 9), (2049, 10), (3073, 10), (4097, 11), (6145, 11), (8193, 12), (12289, 12),
    (16385, 13), (24577, 13)]

def tabled (table : List (Nat × Nat)) (i : Nat) (s : Bits) : Option (Nat × Bits) := do
  let (base, more) ← table[i]?
  let (v, s) ← Bits.number more s
  return (base + v, s)

/-- Repeats `length` bytes from `distance` bytes back; the repeat may run into itself. -/
def repeatBack (distance : Nat) : (length : Nat) → Array UInt8 → Option (Array UInt8)
  | 0, out => some out
  | length + 1, out =>
    if distance ≤ out.size then
      match out[out.size - distance]? with
      | some b => repeatBack distance length (out.push b)
      | none => none
    else none

/-- The symbols of a block up to its end. -/
def symbols (codes : Codes) : (fuel : Nat) → Array UInt8 → Bits → Option (Array UInt8 × Bits)
  | 0, _, _ => none
  | fuel + 1, out, s =>
    match codes.1.next s with
    | none => none
    | some (symbol, s) =>
      if symbol < 256 then symbols codes fuel (out.push (UInt8.ofNat symbol)) s
      else if symbol = 256 then some (out, s)
      else
        match tabled lengthTable (symbol - 257) s with
        | none => none
        | some (length, s) =>
          match codes.2.next s with
          | none => none
          | some (d, s) =>
            match tabled distanceTable d s with
            | none => none
            | some (distance, s) =>
              match repeatBack distance length out with
              | none => none
              | some out => symbols codes fuel out s

/-- A stored block: its length twice, the second time inverted, and its bytes. -/
def stored (out : Array UInt8) (bs : Bytes) : Option (Array UInt8 × Bits) :=
  match bs with
  | l :: h :: nl :: nh :: rest =>
    let n := l.toNat + 256 * h.toNat
    if nl.toNat + 256 * nh.toNat = 65535 - n ∧ n ≤ rest.length then
      some (out ++ rest.take n, ⟨rest.drop n, 0⟩)
    else none
  | _ => none

def block (kind : Nat) (out : Array UInt8) (s : Bits) : Option (Array UInt8 × Bits) :=
  match kind with
  | 0 => stored out s.aligned
  | 1 => do symbols (← fixedCodes?) (s.count + 1) out s
  | 2 => do
    let (codes, s) ← givenCodes s
    symbols codes (s.count + 1) out s
  | _ => none

def blocks : (fuel : Nat) → Array UInt8 → Bits → Option (Array UInt8 × Bytes)
  | 0, _, _ => none
  | fuel + 1, out, s =>
    match Bits.number 3 s with
    | none => none
    | some (v, s) =>
      match block (v / 2) out s with
      | none => none
      | some (out, s) => if v % 2 = 1 then some (out, s.aligned) else blocks fuel out s

end Inflate

/-- The inflated bytes, and the bytes behind the last block. -/
def inflate (bs : Bytes) : Option (Bytes × Bytes) :=
  (Inflate.blocks (8 * bs.length + 1) #[] ⟨bs, 0⟩).map fun (out, rest) => (out.toList, rest)

end SpanTree
