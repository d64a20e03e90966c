import SpanTree.Path
import SpanTree.Proofs.NodeNames

/-!
# Trees that are made by growing

`Tree.Made` and `Path.Made` collect what the operations on trees and paths can make, in any order
and from any parts. Every tree made is well-formed: its spans are in place, and each node has a name
that was checked, or none because it was made as the empty tree.

The contents of a path and of an outline are trees themselves. What is said of them is only that all
of them have some property; if merging and pushing keep it (`Tree.HandedOn`), then what is done with
paths keeps it too, and the tree of a path has it. Being well-formed is such a property.
-/

namespace SpanTree

/-! ## Placing more nodes -/

namespace Node

variable {lo lo' mid hi hi' : Nat} {n : Node} {ns ms : List Node}

theorem fits_iff : n.fits lo hi = true ↔
    lo ≤ n.start ∧ n.stop ≤ hi ∧ n.start ≤ n.stop ∧ fitsAll n.start n.stop n.children = true := by
  obtain ⟨_, _, _, _⟩ := n
  simp [fits, and_assoc]

theorem fits_mono (hlo : lo' ≤ lo) (hhi : hi ≤ hi') (h : n.fits lo hi = true) :
    n.fits lo' hi' = true := by
  obtain ⟨hstart, hstop, hle, hkids⟩ := fits_iff.1 h
  exact fits_iff.2 ⟨by omega, by omega, hle, hkids⟩

theorem fitsAll_mono_left (hlo : lo' ≤ lo) (h : fitsAll lo hi ns = true) :
    fitsAll lo' hi ns = true := by
  cases ns with
  | nil => rfl
  | cons n ns =>
    simp only [fitsAll, Bool.and_eq_true] at h ⊢
    exact ⟨fits_mono hlo (Nat.le_refl _) h.1, h.2⟩

/-- Nodes that fit up to a place, and nodes that fit from there on. -/
theorem fitsAll_append (hmid : mid ≤ hi) (hlo : lo ≤ mid) (h : fitsAll lo mid ns = true)
    (h' : fitsAll mid hi ms = true) : fitsAll lo hi (ns ++ ms) = true := by
  induction ns generalizing lo with
  | nil => exact fitsAll_mono_left hlo h'
  | cons n ns ih =>
    simp only [fitsAll, List.cons_append, Bool.and_eq_true] at h ⊢
    exact ⟨fits_mono (Nat.le_refl _) hmid h.1, ih (fits_iff.1 h.1).2.1 h.2⟩

theorem fitsAll_movedAll_zero (k : Nat) (h : fitsAll 0 hi ns = true) :
    fitsAll k (k + hi) (movedAll k ns) = true := by
  have hmoved := fitsAll_movedAll k 0 hi ns
  rwa [Nat.zero_add, Nat.add_comm hi, h] at hmoved

end Node

/-! ## Well-formed trees -/

namespace Tree

variable {t t' child other : Tree} {name : String} {mode : MergeMode}

theorem wellFormed_empty : Tree.empty.WellFormed := ⟨rfl, .inl rfl, trivial⟩

theorem WellFormed.named (h : Tree.named name = .ok t) : t.WellFormed := by
  unfold Tree.named at h
  split at h
  · next hname =>
    cases h
    exact ⟨rfl, .inr hname, trivial⟩
  · cases h

theorem WellFormed.rename (ht : t.WellFormed) (h : t.rename name = .ok t') : t'.WellFormed := by
  unfold Tree.rename at h
  split at h
  · next hname =>
    cases h
    have hvalid := isValid_iff.1 ht.isValid
    exact ⟨isValid_iff.2 hvalid,
      Node.allNames_iff.2 ⟨.inr hname, (Node.allNames_iff.1 ht.names).2⟩⟩
  · cases h

theorem WellFormed.appendBytes (ht : t.WellFormed) (bs : Bytes) :
    (t.appendBytes bs).WellFormed := by
  obtain ⟨hstart, hstop, hkids⟩ := isValid_iff.1 ht.isValid
  refine ⟨isValid_iff.2 ⟨hstart, rfl, ?_⟩,
    Node.allNames_iff.2 (Node.allNames_iff.1 ht.names)⟩
  rw [← List.append_nil (Tree.root _).children]
  exact Node.fitsAll_append (by simp) (Nat.zero_le _) hkids rfl

/-- Nodes behind the bytes of a tree, over the bytes of another. -/
theorem isValid_extend {nodes : List Node} (ht : t.isValid = true) (hother : other.isValid = true)
    (hnodes : Node.fitsAll 0 other.raw.length nodes = true) :
    Tree.isValid ⟨⟨name, t.root.start, other.root.stop + t.root.stop,
      t.root.children ++ Node.movedAll t.root.stop nodes⟩, t.raw ++ other.raw⟩ = true := by
  obtain ⟨hstart, hstop, hkids⟩ := isValid_iff.1 ht
  obtain ⟨-, hstop', -⟩ := isValid_iff.1 hother
  have hlen : (t.raw ++ other.raw).length = t.raw.length + other.raw.length := List.length_append
  refine isValid_iff.2 ⟨hstart, by rw [hlen, hstop, hstop', Nat.add_comm], ?_⟩
  rw [hlen]
  refine Node.fitsAll_append (Nat.le_add_right _ _) (Nat.zero_le _) hkids ?_
  rw [hstop]
  exact Node.fitsAll_movedAll_zero _ hnodes

theorem WellFormed.push (ht : t.WellFormed) (hchild : child.WellFormed) :
    (t.push child).WellFormed := by
  have hnodes : Node.fitsAll 0 child.raw.length [child.root] = true := by
    simpa [Node.fitsAll] using fits_of_isValid hchild.isValid
  refine ⟨?_, Node.allNames_iff.2 ⟨(Node.allNames_iff.1 ht.names).1, ?_⟩⟩
  · simpa [Tree.push, Node.movedAll] using isValid_extend ht.isValid hchild.isValid hnodes
  · simp [Tree.push, Node.allNamesIn_append, Node.AllNamesIn, (Node.allNames_iff.1 ht.names).2,
      hchild.names]

theorem WellFormed.merge (ht : t.WellFormed) (hother : other.WellFormed)
    (h : t.merge other mode = .ok t') : t'.WellFormed := by
  cases mode with
  | nodes => cases h
  | concatenate =>
    simp only [Tree.merge] at h
    split at h
    · cases h
      obtain ⟨-, -, hkids⟩ := isValid_iff.1 hother.isValid
      refine ⟨?_, Node.allNames_iff.2 ⟨?_, ?_⟩⟩
      · simpa using isValid_extend ht.isValid hother.isValid hkids
      · show (if t.rootName.isEmpty then other.rootName else t.rootName) = "" ∨ _
        split
        · exact (Node.allNames_iff.1 hother.names).1
        · exact (Node.allNames_iff.1 ht.names).1
      · simp [Node.allNamesIn_append, (Node.allNames_iff.1 ht.names).2,
          (Node.allNames_iff.1 hother.names).2]
    · cases h

end Tree

/-! ## Contents -/

theorem map_eq_ok {α β ε : Type} {f : α → β} {x : Except ε α} {b : β} (h : x.map f = .ok b) :
    ∃ a, x = .ok a ∧ f a = b := by
  cases x with
  | error => cases h
  | ok a => exact ⟨a, rfl, by simpa [Except.map] using h⟩

theorem bind_eq_ok {α β ε : Type} {x : Except ε α} {f : α → Except ε β} {b : β}
    (h : x >>= f = .ok b) : ∃ a, x = .ok a ∧ f a = .ok b := by
  cases x with
  | error => cases h
  | ok a => exact ⟨a, rfl, h⟩

/-- What a left fold that may fail keeps holds of its result. -/
theorem foldlM_keeps {α β ε : Type} {P : β → Prop} {f : β → α → Except ε β} {as : List α}
    (hstep : ∀ b a b', a ∈ as → P b → f b a = .ok b' → P b') {b b' : β} (hb : P b)
    (h : as.foldlM f b = .ok b') : P b' := by
  induction as generalizing b with
  | nil =>
    cases h
    exact hb
  | cons a as ih =>
    rw [List.foldlM_cons] at h
    obtain ⟨b₁, hfa, hrest⟩ := bind_eq_ok h
    exact ih (fun b a b' ha => hstep b a b' (.tail _ ha)) (hstep b a b₁ (.head _) hb hfa) hrest

namespace Entries

variable {α : Type} {es : Entries α} {key : String} {v : α} {e : String × α}

theorem mem_of_get? (h : es.get? key = some v) : (key, v) ∈ es := by
  induction es with
  | nil => cases h
  | cons e es ih =>
    obtain ⟨k, w⟩ := e
    rw [get?] at h
    split at h
    · next hk =>
      cases h
      exact hk ▸ .head _
    · exact .tail _ (ih h)

theorem mem_insert (h : e ∈ es.insert key v) : e = (key, v) ∨ e ∈ es := by
  induction es with
  | nil => exact .inl (by simpa [insert] using h)
  | cons e' es ih =>
    obtain ⟨k, w⟩ := e'
    rw [insert] at h
    split at h
    · simpa using h
    · split at h
      · rcases List.mem_cons.1 h with h | h
        · exact .inl h
        · exact .inr (.tail _ h)
      · rcases List.mem_cons.1 h with h | h
        · exact .inr (h ▸ .head _)
        · exact (ih h).imp_right (.tail _)

/-- What holds of all entries and of the one that is put among them. -/
theorem forall_insert {P : String × α → Prop} (hes : ∀ e ∈ es, P e) (hv : P (key, v)) :
    ∀ e ∈ es.insert key v, P e := by
  intro e he
  rcases mem_insert he with rfl | he
  · exact hv
  · exact hes e he

end Entries

/-- A property that trees hand on to the trees that are made of them. -/
structure Tree.HandedOn (P : Tree → Prop) : Prop where
  empty : P Tree.empty
  named : ∀ {name : String} {t : Tree}, Tree.named name = .ok t → P t
  push : ∀ {t child : Tree}, P t → P child → P (t.push child)
  merge : ∀ {t other t' : Tree}, P t → P other → t.merge other .concatenate = .ok t' → P t'

namespace Path

variable {P : Tree → Prop} {p q : Path} {t : Tree} {es fs : Entries Tree} {key : String}

/-- All contents at these keys are well-formed. -/
def Contents (es : Entries Tree) : Prop := ∀ e ∈ es, e.2.WellFormed

structure WellFormed (p : Path) : Prop where
  absolute : Contents p.absolute
  relative : Contents p.relative

/-- All contents have the property. -/
structure All (P : Tree → Prop) (p : Path) : Prop where
  absolute : ∀ e ∈ p.absolute, P e.2
  relative : ∀ e ∈ p.relative, P e.2

theorem wellFormed_iff_all : p.WellFormed ↔ p.All Tree.WellFormed :=
  ⟨fun h => ⟨h.absolute, h.relative⟩, fun h => ⟨h.absolute, h.relative⟩⟩

/-- What holds of all contents, and of one that is added, if merging keeps it. -/
theorem forall_addEntry {P : Tree → Prop}
    (hmerge : ∀ t u v, P t → P u → t.merge u .concatenate = .ok v → P v)
    (hes : ∀ e ∈ es, P e.2) (ht : P t) (h : addEntry es key t = .ok fs) : ∀ e ∈ fs, P e.2 := by
  unfold addEntry at h
  split at h
  · cases h
    exact Entries.forall_insert hes ht
  · next old hold =>
    obtain ⟨merged, hmerged, rfl⟩ := map_eq_ok h
    exact Entries.forall_insert hes
      (hmerge old t merged (hes _ (Entries.mem_of_get? hold)) ht hmerged)

theorem All.own (hp : p.All P) : ∀ e ∈ p.own, P e.2 := by
  unfold Path.own
  split
  · exact hp.absolute
  · exact hp.relative

theorem All.withOwn (hp : p.All P) (hes : ∀ e ∈ es, P e.2) : (p.withOwn es).All P := by
  unfold Path.withOwn
  split
  · exact ⟨hes, hp.relative⟩
  · exact ⟨hp.absolute, hes⟩

theorem All.named {name : String} (hP : Tree.HandedOn P) (h : Path.named name = .ok p) :
    p.All P := by
  unfold Path.named at h
  split at h
  · cases h
    refine All.withOwn ⟨by simp, by simp⟩ ?_
    simpa using hP.empty
  · cases h

theorem All.update {f : Tree → Tree} (hP : Tree.HandedOn P) (hp : p.All P)
    (hf : ∀ t, P t → P (f t)) : (p.update f).All P := by
  refine hp.withOwn (Entries.forall_insert hp.own (hf _ ?_))
  cases hget : p.own.get? p.name with
  | none => exact hP.empty
  | some t => exact hp.own _ (Entries.mem_of_get? hget)

theorem All.append {p' : Path} (hP : Tree.HandedOn P) (hp : p.All P) (hq : q.All P)
    (h : p.append q = .ok p') : p'.All P := by
  have hadd : ∀ {es fs : Entries Tree} {key : String} {t : Tree}, P t → (∀ e ∈ es, P e.2) →
      addEntry es key t = .ok fs → ∀ e ∈ fs, P e.2 := fun ht hes h =>
    forall_addEntry (fun _ _ _ ht hu h => hP.merge ht hu h) hes ht h
  obtain ⟨own, hown, h⟩ := bind_eq_ok h
  obtain ⟨absolute, habsolute, h⟩ := bind_eq_ok h
  cases h
  have hkeep := foldlM_keeps (P := fun es : Entries Tree => ∀ e ∈ es, P e.2)
    (fun es e es' he hes h => hadd (hq.relative e he) hes h) hp.own hown
  have hp' := hp.withOwn hkeep
  refine ⟨?_, hp'.relative⟩
  exact foldlM_keeps (P := fun es : Entries Tree => ∀ e ∈ es, P e.2)
    (fun es e es' he hes h => hadd (hq.absolute e he) hes h) hp'.absolute habsolute

end Path

namespace Outline

variable {P : Tree → Prop}

mutual

/-- All contents of the outline have the property. -/
def All (P : Tree → Prop) : Outline → Prop
  | node content next => P content ∧ AllIn P next

def AllIn (P : Tree → Prop) : List (String × Outline) → Prop
  | [] => True
  | (_, o) :: rest => All P o ∧ AllIn P rest

end

variable {content : Tree}

theorem all_empty (hP : Tree.HandedOn P) : empty.All P := ⟨hP.empty, trivial⟩

theorem AllIn.changeAt (hP : Tree.HandedOn P) {change : Outline → Except Error Outline}
    (hchange : ∀ {o o'}, o.All P → change o = .ok o' → o'.All P) {seg : String}
    {next next' : List (String × Outline)} (hnext : AllIn P next)
    (h : changeAt change seg next = .ok next') : AllIn P next' := by
  induction next generalizing next' with
  | nil =>
    rw [Outline.changeAt] at h
    obtain ⟨new, hnew, rfl⟩ := map_eq_ok h
    exact ⟨hchange (all_empty hP) hnew, trivial⟩
  | cons e rest ih =>
    obtain ⟨k, o⟩ := e
    rw [Outline.changeAt] at h
    split at h
    · obtain ⟨new, hnew, rfl⟩ := map_eq_ok h
      exact ⟨hchange (all_empty hP) hnew, hnext⟩
    · split at h
      · obtain ⟨new, hnew, rfl⟩ := map_eq_ok h
        exact ⟨hchange hnext.1 hnew, hnext.2⟩
      · obtain ⟨rest', hrest, rfl⟩ := map_eq_ok h
        exact ⟨hnext.1, ih hnext.2 hrest⟩

theorem All.add (hP : Tree.HandedOn P) (hc : P content) {segs : List String} {o o' : Outline}
    (ho : o.All P) (h : add content segs o = .ok o') : o'.All P := by
  induction segs generalizing o o' with
  | nil =>
    obtain ⟨old, next⟩ := o
    rw [Outline.add] at h
    obtain ⟨merged, hmerge, rfl⟩ := map_eq_ok h
    exact ⟨hP.merge ho.1 hc hmerge, ho.2⟩
  | cons seg segs ih =>
    obtain ⟨old, next⟩ := o
    rw [Outline.add] at h
    obtain ⟨next', hnext, rfl⟩ := map_eq_ok h
    exact ⟨ho.1, AllIn.changeAt hP ih ho.2 hnext⟩

mutual

theorem All.build (hP : Tree.HandedOn P) : ∀ {o : Outline} {name : String} {t : Tree}, o.All P →
    build name o = .ok t → P t
  | node content next, name, t, ho, h => by
    rw [Outline.build] at h
    obtain ⟨named, hnamed, h⟩ := bind_eq_ok h
    obtain ⟨merged, hmerge, h⟩ := bind_eq_ok h
    exact AllIn.buildInto hP ho.2 (hP.merge (hP.named hnamed) ho.1 hmerge) h

theorem AllIn.buildInto (hP : Tree.HandedOn P) : ∀ {next : List (String × Outline)} {s t : Tree},
    AllIn P next → P s → buildInto s next = .ok t → P t
  | [], s, t, _, hs, h => by
    rw [Outline.buildInto] at h
    cases h
    exact hs
  | (k, o) :: rest, s, t, hnext, hs, h => by
    rw [Outline.buildInto] at h
    obtain ⟨child, hchild, h⟩ := bind_eq_ok h
    exact AllIn.buildInto hP hnext.2 (hP.push hs (All.build hP hnext.1 hchild)) h

end

end Outline

theorem Path.All.toTree {P : Tree → Prop} {p : Path} {t : Tree} (hP : Tree.HandedOn P)
    (hp : p.All P) (h : p.toTree = .ok t) : P t := by
  unfold Path.toTree at h
  split at h
  · cases h
  · obtain ⟨outline, houtline, h⟩ := bind_eq_ok h
    have hkeep := foldlM_keeps (P := Outline.All P)
      (fun o e o' he ho h => Outline.All.add hP (hp.absolute e he) ho h)
      (Outline.all_empty hP) houtline
    exact hkeep.build hP h

/-! ## What can be made -/

mutual

/-- The trees that the operations on trees and paths make. -/
inductive Tree.Made : Tree → Prop
  | empty : Tree.Made Tree.empty
  | named {name : String} {t : Tree} (h : Tree.named name = .ok t) : Tree.Made t
  | rename {name : String} {t t' : Tree} (ht : Tree.Made t) (h : t.rename name = .ok t') :
      Tree.Made t'
  | appendBytes {t : Tree} (ht : Tree.Made t) (bs : Bytes) : Tree.Made (t.appendBytes bs)
  | appendText {t : Tree} (ht : Tree.Made t) (s : String) : Tree.Made (t.appendText s)
  | appendValue {t : Tree} (ht : Tree.Made t) (v : Tree.Value) : Tree.Made (t.appendValue v)
  | push {t child : Tree} (ht : Tree.Made t) (hchild : Tree.Made child) : Tree.Made (t.push child)
  | merge {t other t' : Tree} {mode : MergeMode} (ht : Tree.Made t) (hother : Tree.Made other)
      (h : t.merge other mode = .ok t') : Tree.Made t'
  | toTree {p : Path} {t : Tree} (hp : Path.Made p) (h : p.toTree = .ok t) : Tree.Made t

/-- The paths that the operations on trees and paths make. -/
inductive Path.Made : Path → Prop
  | named {name : String} {p : Path} (h : Path.named name = .ok p) : Path.Made p
  | appendText {p : Path} (hp : Path.Made p) (s : String) : Path.Made (p.appendText s)
  | appendValue {p : Path} (hp : Path.Made p) (v : Tree.Value) : Path.Made (p.appendValue v)
  | appendTree {p : Path} {t : Tree} (hp : Path.Made p) (ht : Tree.Made t) :
      Path.Made (p.appendTree t)
  | append {p q p' : Path} (hp : Path.Made p) (hq : Path.Made q) (h : p.append q = .ok p') :
      Path.Made p'

end

theorem Tree.handedOn_wellFormed : Tree.HandedOn Tree.WellFormed where
  empty := wellFormed_empty
  named := .named
  push := .push
  merge := .merge

open SpanTree.Tree (handedOn_wellFormed)

mutual

/-- **Every tree that can be made is well-formed.** -/
theorem Tree.Made.wellFormed : ∀ {t : Tree}, t.Made → t.WellFormed
  | _, .empty => Tree.wellFormed_empty
  | _, .named h => .named h
  | _, .rename ht h => ht.wellFormed.rename h
  | _, .appendBytes ht bs => ht.wellFormed.appendBytes bs
  | _, .appendText ht s => ht.wellFormed.appendBytes (Utf8.encode s)
  | _, .appendValue ht v => ht.wellFormed.appendBytes (Utf8.encode v.toText)
  | _, .push ht hchild => ht.wellFormed.push hchild.wellFormed
  | _, .merge ht hother h => ht.wellFormed.merge hother.wellFormed h
  | _, .toTree hp h => hp.allWellFormed.toTree handedOn_wellFormed h

theorem Path.Made.allWellFormed : ∀ {p : Path}, p.Made → p.All Tree.WellFormed
  | _, .named h => .named handedOn_wellFormed h
  | _, .appendText hp s =>
    hp.allWellFormed.update handedOn_wellFormed fun _ ht => ht.appendBytes (Utf8.encode s)
  | _, .appendValue hp v =>
    hp.allWellFormed.update handedOn_wellFormed fun _ ht => ht.appendBytes (Utf8.encode v.toText)
  | _, .appendTree hp ht =>
    hp.allWellFormed.update handedOn_wellFormed fun _ hold => hold.push ht.wellFormed
  | _, .append hp hq h => hp.allWellFormed.append handedOn_wellFormed hq.allWellFormed h

end

theorem Path.Made.wellFormed {p : Path} (hp : p.Made) : p.WellFormed :=
  Path.wellFormed_iff_all.2 hp.allWellFormed

end SpanTree
