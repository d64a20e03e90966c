import SpanTree.Proofs.Decoding
import SpanTree.Proofs.Encoding
import SpanTree.Proofs.Growth

/-!
# Blocks written with any dictionary

The dictionary of a stream has no more names than six bits can index. A tree can also be encoded
with a dictionary of its own, of any capacity.

**A block gives back the nodes that it was written from, whatever the dictionary**
(`block_gives_back`), and a copy of the dictionary then becomes the dictionary that the encoder
left. It follows from the grammar, which derives the nodes from such a block: a name at an index
that does not fit six bits stops the encoder before it writes a byte that means something else.
-/

namespace SpanTree

namespace Bill

variable {d d' : Dictionary} {name : String} {i : Nat} {block : Bytes} {root? : Option String}
  {t : Tree}

/-! ## Names -/

theorem namedBelowRoot_of_writtenNames {mode : RootMode}
    (h : ∀ name ∈ t.writtenNames mode, Name.isNode name = true) : t.NamedBelowRoot := by
  refine Node.allNamesIn_of_namesAll ?_
  intro name hname hempty
  have hmem : name ∈ t.writtenNames mode := by
    cases mode with
    | written => exact Node.mem_names_of_below hname
    | omitted => exact hname
  have hvalid := h name hmem
  rw [hempty] at hvalid
  exact absurd hvalid (by decide)

/-! ## References -/

/-- The byte has the tag bits 00 and the index in the other six, and is read as the name. -/
structure Refers (d : Dictionary) (name : String) (i : Nat) (b : UInt8) : Prop where
  tag : b >>> 6 = 0
  index : b.toNat = i
  reads : ∀ (e : Extent) (pos : Nat) (rest : Bytes),
    Answers (decodeName e) ⟨pos, b :: rest, d⟩ name ⟨pos + 1, rest, d⟩

theorem shiftRight_six_of_lt {b : UInt8} (h : b.toNat < 64) : b >>> 6 = 0 := by
  rw [← UInt8.toNat_inj, UInt8.toNat_shiftRight]
  exact Nat.shiftRight_eq_zero _ _ h

/-- The name of a byte below 64, when it is in the dictionary, is read in any block. -/
theorem answers_decodeName_index {b : UInt8} (hb : b.toNat < 64)
    (hname : d.name? b.toNat = some name) (e : Extent) (pos : Nat) (rest : Bytes) :
    Answers (decodeName e) ⟨pos, b :: rest, d⟩ name ⟨pos + 1, rest, d⟩ := by
  rw [decodeName, answers_get_bind]
  simp only [if_pos hb, hname, answers_advance_bind, answers_pure, true_and]
  rfl

theorem refers_of_find (h : d.find name = .index i) (hlt : i < dictionarySize) :
    Refers d name i (UInt8.ofNat i) := by
  have hbyte := toNat_index hlt
  have hb : (UInt8.ofNat i).toNat < 64 := by rwa [hbyte]
  have hname : d.name? (UInt8.ofNat i).toNat = some name := by
    rw [hbyte]
    exact Dictionary.name?_of_find h
  exact ⟨shiftRight_six_of_lt hb, hbyte, answers_decodeName_index hb hname⟩

theorem fails_encodeName (h : d.find name = .index i) (hle : dictionarySize ≤ i) :
    Fails (encodeName name) d (.indexTooLarge i) d := by
  rw [encodeName, fails_get_bind]
  simp only [h, if_neg (Nat.not_lt.2 hle)]
  exact fails_throw.2 ⟨rfl, rfl⟩

/-! ## Blocks -/

/-- Decoding the block comes to the nodes of the tree, and leaves this cursor. -/
def GivesBack (root? : Option String) (t : Tree) (d : Dictionary) (offset : Nat) (block : Bytes)
    (c : Cursor) : Prop :=
  Answers (decodeBlock ⟨offset, block.length⟩ root? t.raw.length) ⟨0, block, d⟩
    (t.readAs root?).root c

/-- **Whatever the dictionary, a block gives back the nodes that it was written from.** A tree that
can be made is encoded with a dictionary of any capacity and any contents, and each name that is
written is one that a node may have. Decoding the block with a copy of the dictionary as it was then
comes to the nodes that were encoded, uses the whole block, and makes the copy the encoder's
dictionary. A name that is known at an index below 64 is written as a reference to this index; at
any other index it stops the encoder, so that there is no block. -/
theorem block_gives_back (ht : t.Made)
    (hnames : ∀ name ∈ t.writtenNames (.ofName root?), Name.isNode name = true)
    (h : Answers (encodeTree t (.ofName root?)) d block d') (offset : Nat) :
    GivesBack root? t d offset block ⟨block.length, [], d'⟩ ∧
    ∀ name i, d.find name = .index i →
      (i < 64 → Answers (encodeName name) d [UInt8.ofNat i] d ∧ Refers d name i (UInt8.ofNat i)) ∧
      (64 ≤ i → Fails (encodeName name) d (.indexTooLarge i) d) := by
  refine ⟨?_, ?_⟩
  · have hbelow := namedBelowRoot_of_writtenNames hnames
    exact decodeBlock_of_form (form_of_encodeTree h ht.wellFormed hbelow) rfl
  · intro name i hfind
    refine ⟨fun hlt => ⟨?_, refers_of_find hfind hlt⟩, fails_encodeName hfind⟩
    exact answers_encodeName.2 ⟨.index hfind hlt, (Dictionary.learn_of_find_index hfind).symm⟩

/-- A known root over a name that is learned and comes again, and one for which there is no room. -/
theorem block_gives_back_with_room_for_two :
    let d := (Dictionary.ofCapacity 2).learn "a"
    let t : Tree := ⟨⟨"a", 0, 2, [⟨"b", 0, 1, [⟨"c", 0, 1, []⟩]⟩, ⟨"b", 1, 2, []⟩]⟩, [104, 105]⟩
    let block : Bytes := [142, 0, 0, 2, 136, 0, 65, 0, 98, 1, 65, 0, 99, 1, 1, 1]
    Answers (encodeTree t .written) d block (d.learn "b") ∧
      Answers (decodeBlock ⟨0, 16⟩ none 2) ⟨0, block, d⟩ t.root ⟨16, [], d.learn "b"⟩ := by
  intro d t block
  have hb : Tree.Made ⟨⟨"b", 0, 1, [⟨"c", 0, 1, []⟩]⟩, [104]⟩ :=
    .push (@Tree.Made.named "b" _ rfl) (.appendBytes (@Tree.Made.named "c" _ rfl) [104])
  have ht : t.Made :=
    .push (.push (@Tree.Made.named "a" _ rfl) hb) (.appendBytes (@Tree.Made.named "b" _ rfl) [105])
  have h : Answers (encodeTree t .written) d block (d.learn "b") := by decide +kernel
  exact ⟨h, (@block_gives_back _ _ _ none t ht (by decide +kernel) h 0).1⟩

-- The name behind the 64 that have an index of six bits.
example :
    let d := ((List.range 65).map fun i => "n" ++ toString i).foldl Dictionary.learn
      (Dictionary.ofCapacity 65)
    Fails (encodeTree ⟨⟨"n64", 0, 0, []⟩, []⟩ .written) d (.indexTooLarge 64) d := by
  decide +kernel

end Bill

end SpanTree
