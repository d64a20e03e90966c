import SpanTree.Proofs.Draft
import SpanTree.Proofs.Safety

/-!
# Where trees come from

A program comes by a tree in two ways (`Tree.Obtained`): the operations on trees and paths make it,
or a reader of any data answers it. **The second way leads to no other trees than the first**
(`made_iff_wellFormed`): a well-formed tree can be taken apart into the text and the nodes that
would be written into it (`Part.ofNode`), and writing them makes the same tree again. So what is
made of trees that were read is obtained too.

The parts of a node are also what its renderings show: they say which bytes are its own, and they
count nothing. Taking a node apart loses nothing (`layoutAll_ofNodes`).
-/

namespace SpanTree

/-! ## Taking trees apart -/

theorem extract_append_extract {α : Type} (l : List α) {i j k : Nat} (hij : i ≤ j) (hjk : j ≤ k) :
    l.extract i j ++ l.extract j k = l.extract i k := by
  have hmid : l.drop j = (l.drop i).drop (j - i) := by
    rw [List.drop_drop]
    congr 1
    omega
  have hlen : k - i = (j - i) + (k - j) := by omega
  rw [List.extract_eq_take_drop, List.extract_eq_take_drop, List.extract_eq_take_drop, hmid, hlen,
    List.take_add]

theorem length_extract_of_le {α : Type} (l : List α) {i j : Nat} (hj : j ≤ l.length) :
    (l.extract i j).length = j - i := by
  rw [List.extract_eq_take_drop, List.length_take, List.length_drop]
  omega

namespace Part

/-- Text as a part, if there is any. -/
def stretch : Bytes → List Part
  | [] => []
  | b :: bs => [text (b :: bs)]

mutual

/-- What is written to make a node. -/
def ofNode (raw : Bytes) : Node → Part
  | ⟨name, start, stop, children⟩ => node name (ofNodes raw start stop children)

/-- The nodes, and the text of `[cursor, stop)` around them. -/
def ofNodes (raw : Bytes) (cursor stop : Nat) : List Node → List Part
  | [] => stretch (raw.extract cursor stop)
  | n :: ns => stretch (raw.extract cursor n.start) ++ ofNode raw n :: ofNodes raw n.stop stop ns

end

variable {raw bs : Bytes} {offset : Nat} {p : String → Prop}

theorem ofNode_eq (n : Node) :
    ofNode raw n = node n.name (ofNodes raw n.start n.stop n.children) := by
  cases n
  rfl

@[simp] theorem bytesAll_stretch (bs : Bytes) : bytesAll (stretch bs) = bs := by
  cases bs with
  | nil => rfl
  | cons b bs => simp [stretch, bytesAll, bytes]

@[simp] theorem layoutAll_stretch : layoutAll offset (stretch bs) = [] := by
  cases bs <;> rfl

mutual

theorem layout_ofNode : ∀ (n : Node) (lo hi : Nat), n.fits lo hi = true → hi ≤ raw.length →
    layout n.start (ofNode raw n) = [n] ∧ bytes (ofNode raw n) = n.text raw
  | ⟨name, start, stop, children⟩, lo, hi, hfits, hhi => by
    obtain ⟨-, hstop, hle, hkids⟩ := Node.fits_iff.1 hfits
    obtain ⟨hlayout, hbytes⟩ :=
      layoutAll_ofNodes children start stop hkids hle (Nat.le_trans hstop hhi)
    have hlen : start + (raw.extract start stop).length = stop := by
      rw [length_extract_of_le raw (Nat.le_trans hstop hhi)]
      exact Nat.add_sub_cancel' hle
    rw [ofNode, layout, bytes, hlayout, hbytes, hlen]
    exact ⟨rfl, rfl⟩

/-- **The parts, laid out, are the nodes and the text that was taken apart.** -/
theorem layoutAll_ofNodes : ∀ (ns : List Node) (cursor hi : Nat),
    Node.fitsAll cursor hi ns = true → cursor ≤ hi → hi ≤ raw.length →
    layoutAll cursor (ofNodes raw cursor hi ns) = ns ∧
      bytesAll (ofNodes raw cursor hi ns) = raw.extract cursor hi
  | [], cursor, hi, _, _, _ => by
    rw [ofNodes]
    exact ⟨layoutAll_stretch, bytesAll_stretch _⟩
  | n :: ns, cursor, hi, hfits, hle, hhi => by
    simp only [Node.fitsAll, Bool.and_eq_true] at hfits
    obtain ⟨hstart, hstop, hspan, -⟩ := Node.fits_iff.1 hfits.1
    obtain ⟨hn, hnbytes⟩ := layout_ofNode n cursor hi hfits.1 hhi
    obtain ⟨hns, hnsbytes⟩ := layoutAll_ofNodes ns n.stop hi hfits.2 hstop hhi
    have hgap : cursor + (raw.extract cursor n.start).length = n.start := by
      rw [length_extract_of_le raw (by omega)]
      exact Nat.add_sub_cancel' hstart
    have htext : n.start + (n.text raw).length = n.stop := by
      rw [Node.text, length_extract_of_le raw (by omega)]
      exact Nat.add_sub_cancel' hspan
    rw [ofNodes, layoutAll_append, layoutAll_stretch, bytesAll_stretch, hgap, layoutAll, hn,
      hnbytes, htext, hns, bytesAll_append, bytesAll_stretch, bytesAll, hnbytes, hnsbytes,
      Node.text, extract_append_extract raw hspan hstop,
      extract_append_extract raw hstart (Nat.le_trans hspan hstop)]
    exact ⟨rfl, rfl⟩

end

/-! ### Names of parts -/

mutual

/-- All nodes that a part brings have names of a kind. -/
def AllNames (p : String → Prop) : Part → Prop
  | text _ => True
  | node name parts => p name ∧ AllNamesIn p parts

def AllNamesIn (p : String → Prop) : List Part → Prop
  | [] => True
  | part :: parts => AllNames p part ∧ AllNamesIn p parts

end

theorem allNamesIn_append {ps qs : List Part} :
    AllNamesIn p (ps ++ qs) ↔ AllNamesIn p ps ∧ AllNamesIn p qs := by
  induction ps with
  | nil => simp [AllNamesIn]
  | cons part ps ih => simp [AllNamesIn, ih, and_assoc]

theorem allNamesIn_stretch : AllNamesIn p (stretch bs) := by
  cases bs <;> simp [stretch, AllNamesIn, AllNames]

mutual

theorem allNames_ofNode : ∀ (n : Node), n.AllNames p → (ofNode raw n).AllNames p
  | ⟨_, start, stop, children⟩, hn => by
    rw [Node.AllNames] at hn
    exact ⟨hn.1, allNamesIn_ofNodes children start stop hn.2⟩

theorem allNamesIn_ofNodes : ∀ (ns : List Node) (cursor stop : Nat), Node.AllNamesIn p ns →
    AllNamesIn p (ofNodes raw cursor stop ns)
  | [], _, _, _ => allNamesIn_stretch
  | n :: ns, _, stop, hns =>
    allNamesIn_append.2 ⟨allNamesIn_stretch, allNames_ofNode n hns.1,
      allNamesIn_ofNodes ns n.stop stop hns.2⟩

end

end Part

/-! ## Writing trees again -/

namespace Tree

variable {t : Tree}

/-- What is written to make a tree. -/
def draft (t : Tree) : Draft :=
  ⟨t.rootName, Part.ofNodes t.raw t.root.start t.root.stop t.root.children⟩

theorem tree_draft (h : t.isValid = true) : t.draft.tree = t := by
  obtain ⟨hstart, hstop, hkids⟩ := isValid_iff.1 h
  obtain ⟨⟨name, start, stop, children⟩, raw⟩ := t
  obtain rfl : start = 0 := hstart
  obtain rfl : stop = raw.length := hstop
  obtain ⟨hlayout, hbytes⟩ := Part.layoutAll_ofNodes children 0 raw.length hkids (Nat.zero_le _)
    (Nat.le_refl _)
  rw [List.extract_eq_take_drop, List.drop_zero, Nat.sub_zero, List.take_length] at hbytes
  simp only [draft, Draft.tree, Draft.bytes, rootName, hlayout, hbytes]

/-- Trees with the same parts are the same. -/
theorem eq_of_parts {u : Tree} (ht : t.isValid = true) (hu : u.isValid = true)
    (h : Part.ofNode t.raw t.root = Part.ofNode u.raw u.root) : t = u := by
  rw [Part.ofNode_eq, Part.ofNode_eq, Part.node.injEq] at h
  have hdraft : t.draft = u.draft := by
    rw [draft, draft, rootName, rootName, h.1, h.2]
  rw [← tree_draft ht, ← tree_draft hu, hdraft]

end Tree

/-- A name that a node may have, or none. -/
def Name.IsAllowed (s : String) : Prop := s = "" ∨ Name.isNode s = true

theorem Draft.made_named {name : String} (h : Name.IsAllowed name) : (Draft.mk name []).tree.Made := by
  rcases h with rfl | h
  · exact .empty
  · refine @Tree.Made.named name _ ?_
    rw [Tree.named, if_pos h]
    rfl

mutual

theorem Part.made_behind : ∀ (p : Part) (d : Draft), p.AllNames Name.IsAllowed → d.tree.Made →
    (Draft.mk d.name (d.parts ++ [p])).tree.Made
  | text bs, d, _, hd => by
    have hmade := hd.appendBytes bs
    rwa [← d.tree_appendBytes] at hmade
  | node name parts, d, hp, hd => by
    have hmade := hd.push (Part.made_allBehind parts ⟨name, []⟩ hp.2 (Draft.made_named hp.1))
    rwa [← Draft.tree_push] at hmade

theorem Part.made_allBehind : ∀ (ps : List Part) (d : Draft), Part.AllNamesIn Name.IsAllowed ps →
    d.tree.Made → (Draft.mk d.name (d.parts ++ ps)).tree.Made
  | [], d, _, hd => by rwa [List.append_nil]
  | p :: ps, d, hps, hd => by
    have hmade := Part.made_allBehind ps ⟨d.name, d.parts ++ [p]⟩ hps.2
      (Part.made_behind p d hps.1 hd)
    rwa [List.append_assoc] at hmade

end

namespace Tree

variable {t : Tree}

/-- **The well-formed trees are those that the operations make.** -/
theorem made_iff_wellFormed : t.Made ↔ t.WellFormed := by
  constructor
  · exact Made.wellFormed
  · intro h
    obtain ⟨hname, hkids⟩ := Node.allNames_iff.1 h.names
    have hmade := Part.made_allBehind t.draft.parts ⟨t.rootName, []⟩
      (Part.allNamesIn_ofNodes _ _ _ hkids) (Draft.made_named hname)
    rw [← tree_draft h.isValid]
    exact hmade

/-- The trees that a program comes by: those that the operations make, and those that a reader of
any data answers. -/
inductive Obtained : Tree → Prop
  | made {t : Tree} (h : t.Made) : Obtained t
  | read {data : Bytes} {r : Reader} {t : Tree} (hr : Reader.Reached data r)
      (h : r.next.result = .ok (some t)) : Obtained t

theorem Obtained.wellFormed (h : t.Obtained) : t.WellFormed := by
  cases h with
  | made h => exact h.wellFormed
  | read hr h =>
    obtain ⟨hvalid, hnodes⟩ := hr.steady.tree h
    exact ⟨hvalid, Node.allNames_of_preorder 0 fun x hx => .inr (hnodes x hx).1⟩

end Tree

/-! ## The characters of names -/

namespace Name

variable {s : String} {c : Char} {cs : List Char}

def isNameChar (c : Char) : Bool := isWordChar c || c == '$' || c == '#'

/-- The name has no other characters than those of names; it may be missing. -/
def IsPlain (s : String) : Prop := ∀ c ∈ s.toList, isNameChar c = true

theorem IsPlain.not_mem (h : IsPlain s) (hc : isNameChar c = false) : c ∉ s.toList := by
  intro hmem
  rw [h c hmem] at hc
  cases hc

theorem isNameChar_of_isWord (h : isWord cs = true) : ∀ c ∈ cs, isNameChar c = true := by
  cases cs with
  | nil => simp
  | cons c cs =>
    simp only [isWord, Bool.and_eq_true, List.all_eq_true] at h
    intro d hd
    rcases List.mem_cons.1 hd with rfl | hd
    · simp [isNameChar, isWordChar, h.1]
    · simp [isNameChar, h.2 d hd]

theorem isNameChar_of_isSegment (h : isSegment cs = true) : ∀ c ∈ cs, isNameChar c = true := by
  unfold isSegment at h
  split at h
  · intro c hc
    rcases List.mem_cons.1 hc with rfl | hc
    · decide
    · exact isNameChar_of_isWord h c hc
  · exact isNameChar_of_isWord h

theorem IsAllowed.isPlain (h : IsAllowed s) : IsPlain s := by
  rcases h with rfl | h
  · simp [IsPlain]
  · simp only [isNode, Bool.or_eq_true, beq_iff_eq] at h
    rcases h with h | h
    · intro c hc
      rw [h, List.mem_singleton] at hc
      rw [hc]
      rfl
    · exact isNameChar_of_isSegment h

end Name

theorem Tree.WellFormed.isPlain {t : Tree} (h : t.WellFormed) : t.root.AllNames Name.IsPlain :=
  h.names.mono fun _ => Name.IsAllowed.isPlain

end SpanTree
