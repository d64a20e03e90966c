import SpanTree.Proofs.Agreement
import SpanTree.Proofs.Records
import SpanTree.Proofs.Safety
import SpanTree.Proofs.Spans

/-!
# Trees of text

A tree is made of text if texts, and no other bytes, are appended to make it: in whatever way trees,
paths and records are put together, and also if it is read where such a tree was written
(`Tree.MadeOfText`). **The text of each of its nodes is UTF-8** (`Tree.MadeOfText.legible`), so no
node begins or ends within a character.

Growing a tree moves nodes along with their bytes, and the only new text is that of a root, which is
what is in the buffer. Reading brings no spans but those that were written. So legible trees hand on
that they are legible (`Tree.handedOn_legible`), and what is done with paths keeps it too.
-/

namespace SpanTree

namespace Utf8

/-- The bytes are the UTF-8 of a text. -/
def IsText (bs : Bytes) : Prop := ∃ s, encode s = bs

variable {as bs : Bytes}

theorem isText_encode (s : String) : IsText (encode s) := ⟨s, rfl⟩

theorem isText_nil : IsText [] := ⟨"", by simp [encode]⟩

theorem IsText.append (ha : IsText as) (hb : IsText bs) : IsText (as ++ bs) := by
  obtain ⟨s, rfl⟩ := ha
  obtain ⟨s', rfl⟩ := hb
  exact ⟨s ++ s', by simp [encode]⟩

end Utf8

open Utf8 (IsText)

/-! ## Legible nodes -/

namespace Node

mutual

/-- The texts of the node and of all below it are UTF-8. -/
def Legible (raw : Bytes) : Node → Prop
  | ⟨_, start, stop, children⟩ => IsText (raw.extract start stop) ∧ LegibleAll raw children

def LegibleAll (raw : Bytes) : List Node → Prop
  | [] => True
  | n :: ns => Legible raw n ∧ LegibleAll raw ns

end

variable {raw : Bytes} {n : Node} {ns ms : List Node}

theorem legible_iff : n.Legible raw ↔ IsText (n.text raw) ∧ LegibleAll raw n.children := by
  cases n
  simp [Legible, text]

theorem legibleAll_append :
    LegibleAll raw (ns ++ ms) ↔ LegibleAll raw ns ∧ LegibleAll raw ms := by
  induction ns with
  | nil => simp [LegibleAll]
  | cons n ns ih => simp [LegibleAll, ih, and_assoc]

mutual

theorem legible_iff_preorder : ∀ {n : Node} (depth : Nat),
    n.Legible raw ↔ ∀ x ∈ n.preorder depth, IsText (x.2.text raw)
  | ⟨_, _, _, children⟩, depth => by
    simp only [Legible, preorder, List.forall_mem_cons, text,
      @legibleAll_iff_preorder children (depth + 1)]

theorem legibleAll_iff_preorder : ∀ {ns : List Node} (depth : Nat),
    LegibleAll raw ns ↔ ∀ x ∈ preorderAll depth ns, IsText (x.2.text raw)
  | [], _ => by simp [LegibleAll, preorderAll]
  | n :: ns, depth => by
    simp only [LegibleAll, preorderAll, List.forall_mem_append,
      legible_iff_preorder (n := n) depth, @legibleAll_iff_preorder ns depth]

end

mutual

/-- Nodes that are moved along with their bytes keep their texts. -/
theorem Legible.moved (before after : Bytes) : ∀ {n : Node} {lo : Nat}, n.Legible raw →
    n.fits lo raw.length = true →
    (n.moved before.length).Legible (before ++ (raw ++ after))
  | ⟨name, start, stop, children⟩, _, hn, hfits => by
    obtain ⟨-, hstop, hle, hkids⟩ := fits_iff.1 hfits
    obtain ⟨htext, hbelow⟩ := legible_iff.1 hn
    refine legible_iff.2 ⟨?_, ?_⟩
    · rwa [text_moved before after hle hstop]
    · exact LegibleAll.moved before after hbelow hkids hstop

theorem LegibleAll.moved (before after : Bytes) : ∀ {ns : List Node} {lo hi : Nat},
    LegibleAll raw ns → fitsAll lo hi ns = true → hi ≤ raw.length →
    LegibleAll (before ++ (raw ++ after)) (movedAll before.length ns)
  | [], _, _, _, _, _ => trivial
  | _ :: _, _, _, hns, hfits, hhi => by
    simp only [fitsAll, Bool.and_eq_true] at hfits
    exact ⟨Legible.moved before after hns.1 (fits_mono (Nat.le_refl _) hhi hfits.1),
      LegibleAll.moved before after hns.2 hfits.2 hhi⟩

end

end Node

/-! ## Legible trees -/

namespace Tree

variable {t t' u child other : Tree} {name : String}

structure Legible (t : Tree) : Prop where
  wellFormed : t.WellFormed
  nodes : t.root.Legible t.raw

/-- The text of the root is the buffer. -/
theorem legible_iff : t.Legible ↔
    t.WellFormed ∧ IsText t.raw ∧ Node.LegibleAll t.raw t.root.children := by
  constructor
  · rintro ⟨hwf, hnodes⟩
    rw [Node.legible_iff, text_root hwf.isValid] at hnodes
    exact ⟨hwf, hnodes⟩
  · rintro ⟨hwf, hnodes⟩
    refine ⟨hwf, ?_⟩
    rwa [Node.legible_iff, text_root hwf.isValid]

theorem legible_empty : Tree.empty.Legible :=
  legible_iff.2 ⟨wellFormed_empty, Utf8.isText_nil, trivial⟩

theorem Legible.named (h : Tree.named name = .ok t) : t.Legible := by
  refine legible_iff.2 ⟨.named h, ?_⟩
  unfold Tree.named at h
  split at h
  · cases h
    exact ⟨Utf8.isText_nil, trivial⟩
  · cases h

theorem Legible.rename (ht : t.Legible) (h : t.rename name = .ok t') : t'.Legible := by
  obtain ⟨hwf, hnodes⟩ := legible_iff.1 ht
  refine legible_iff.2 ⟨hwf.rename h, ?_⟩
  unfold Tree.rename at h
  split at h
  · cases h
    exact hnodes
  · cases h

/-- Bytes behind those of a tree leave its nodes legible. -/
theorem Legible.children_before (ht : t.Legible) (after : Bytes) :
    Node.LegibleAll (t.raw ++ after) t.root.children := by
  obtain ⟨hwf, -, hkids⟩ := legible_iff.1 ht
  have hmoved := hkids.moved [] after (isValid_iff.1 hwf.isValid).2.2 (Nat.le_refl _)
  rwa [List.length_nil, Node.movedAll_zero, List.nil_append] at hmoved

theorem Legible.appendText (ht : t.Legible) (s : String) : (t.appendText s).Legible := by
  obtain ⟨hwf, hraw, -⟩ := legible_iff.1 ht
  exact legible_iff.2 ⟨hwf.appendBytes _, hraw.append (Utf8.isText_encode s),
    ht.children_before _⟩

theorem Legible.push (ht : t.Legible) (hchild : child.Legible) : (t.push child).Legible := by
  obtain ⟨hwf, hraw, -⟩ := legible_iff.1 ht
  obtain ⟨hwf', hraw', -⟩ := legible_iff.1 hchild
  have hmoved := hchild.nodes.moved t.raw [] (fits_of_isValid hwf'.isValid)
  rw [List.append_nil, ← (isValid_iff.1 hwf.isValid).2.1] at hmoved
  exact legible_iff.2 ⟨hwf.push hwf', hraw.append hraw',
    Node.legibleAll_append.2 ⟨ht.children_before _, hmoved, trivial⟩⟩

theorem Legible.merge {mode : MergeMode} (ht : t.Legible) (hother : other.Legible)
    (h : t.merge other mode = .ok t') : t'.Legible := by
  obtain ⟨hwf, hraw, -⟩ := legible_iff.1 ht
  obtain ⟨hwf', hraw', hkids'⟩ := legible_iff.1 hother
  refine legible_iff.2 ⟨hwf.merge hwf' h, ?_⟩
  have hmoved := hkids'.moved t.raw [] (isValid_iff.1 hwf'.isValid).2.2 (Nat.le_refl _)
  rw [List.append_nil, ← (isValid_iff.1 hwf.isValid).2.1] at hmoved
  cases mode with
  | nodes => cases h
  | concatenate =>
    by_cases hnames : canMergeNames t.rootName other.rootName = true
    · rw [merge_of_canMerge hnames] at h
      cases h
      exact ⟨hraw.append hraw', Node.legibleAll_append.2 ⟨ht.children_before _, hmoved⟩⟩
    · rw [merge_of_conflict hnames] at h
      cases h

theorem handedOn_legible : HandedOn Legible where
  empty := legible_empty
  named := .named
  push := .push
  merge := .merge

/-- The bytes are what a stream writes for the tree, whatever was done with it before. -/
def WrittenAs (t : Tree) (bytes : Bytes) : Prop :=
  ∃ actions, let s := (Session.fresh.run actions).stream
    (s.append t).result = .ok () ∧ (s.append t).state.buffer = s.buffer ++ bytes

end Tree

/-! ## Trees that are read -/

namespace Tree

variable {t u : Tree} {bytes more data : Bytes} {r : Reader}

theorem WrittenAs.frame (h : t.WrittenAs bytes) : ∃ mode d block d',
    Answers (Bill.encodeTree t mode) d block d' ∧ bytes = Stream.frame t.raw block := by
  obtain ⟨actions, hresult, hbuffer⟩ := h
  generalize (Session.fresh.run actions).stream = s at *
  cases hrun : outcome (Bill.encodeTree t s.mode) s.dict with
  | mk result d' =>
    cases result with
    | ok block =>
      rw [(Stream.append_of_answers hrun).2] at hbuffer
      exact ⟨s.mode, s.dict, block, d', hrun, (List.append_cancel_left hbuffer).symm⟩
    | error e =>
      rw [(Stream.append_of_fails hrun).1] at hresult
      cases hresult

/-- What is read where a legible tree was written is legible. -/
theorem Legible.read (ht : t.Legible) (hbytes : t.WrittenAs bytes) (hr : r.Reached data)
    (hrest : r.rest = bytes ++ more) (h : r.next.result = .ok (some u)) : u.Legible := by
  obtain ⟨mode, d, block, d', hencode, rfl⟩ := hbytes.frame
  obtain ⟨-, bytes', hform, hpass⟩ :=
    (Reader.answers_readTree_some hr.steady.reads.consistent).1 (Reader.next_eq.1 ⟨h, rfl⟩)
  obtain ⟨hraw, hspans⟩ := hform.spans_written hencode ht.wellFormed.isValid
    (hrest.symm.trans hpass.rest_eq)
  refine ⟨(Obtained.read hr h).wellFormed, (Node.legible_iff_preorder 0).2 fun x hx => ?_⟩
  obtain ⟨y, hy, hstart, hstop⟩ := hspans x hx
  have htext := (Node.legible_iff_preorder 0).1 ht.nodes y hy
  rwa [Node.text, hstart, hstop, ← hraw] at htext

end Tree

/-! ## What is made of text -/

theorem Path.All.appendText {p : Path} (hp : p.All Tree.Legible) (s : String) :
    (p.appendText s).All Tree.Legible :=
  hp.update Tree.handedOn_legible fun _ ht => ht.appendText s

namespace Record

/-- The contents of a record are texts. -/
theorem keeps_legible : Keeps (fun d => d.path.All Tree.Legible) Tree.Legible where
  empty h := by
    obtain ⟨p, hp, rfl⟩ := map_eq_ok h
    exact .named Tree.handedOn_legible hp
  add hd h := by
    unfold Draft.add at h
    simp only at h
    split at h
    · cases h
    · split at h
      · cases h
      · next entry hentry =>
        obtain ⟨p, happend, rfl⟩ := map_eq_ok h
        have hnamed := Path.All.named Tree.handedOn_legible hentry
        exact hd.append Tree.handedOn_legible (hnamed.appendText _) happend
  finish hd h := by
    unfold Draft.finish at h
    split at h
    · cases h
      simp
    · obtain ⟨t, ht, rfl⟩ := map_eq_ok h
      simpa using hd.toTree Tree.handedOn_legible ht

end Record

mutual

/-- The trees that are made of text, and those that are read where one of them was written. -/
inductive Tree.MadeOfText : Tree → Prop
  | empty : Tree.MadeOfText Tree.empty
  | named {name : String} {t : Tree} (h : Tree.named name = .ok t) : Tree.MadeOfText t
  | rename {name : String} {t t' : Tree} (ht : Tree.MadeOfText t) (h : t.rename name = .ok t') :
      Tree.MadeOfText t'
  | appendText {t : Tree} (ht : Tree.MadeOfText t) (s : String) : Tree.MadeOfText (t.appendText s)
  | appendValue {t : Tree} (ht : Tree.MadeOfText t) (v : Tree.Value) :
      Tree.MadeOfText (t.appendValue v)
  | push {t child : Tree} (ht : Tree.MadeOfText t) (hchild : Tree.MadeOfText child) :
      Tree.MadeOfText (t.push child)
  | merge {t other t' : Tree} {mode : MergeMode} (ht : Tree.MadeOfText t)
      (hother : Tree.MadeOfText other) (h : t.merge other mode = .ok t') : Tree.MadeOfText t'
  | toTree {p : Path} {t : Tree} (hp : Path.MadeOfText p) (h : p.toTree = .ok t) :
      Tree.MadeOfText t
  | record {text : String} {ts : List Tree} {t : Tree} (h : parseRecords text = .ok ts)
      (ht : t ∈ ts) : Tree.MadeOfText t
  | read {t u : Tree} {bytes more data : Bytes} {r : Reader} (ht : Tree.MadeOfText t)
      (hbytes : t.WrittenAs bytes) (hr : r.Reached data) (hrest : r.rest = bytes ++ more)
      (h : r.next.result = .ok (some u)) : Tree.MadeOfText u

/-- The paths whose contents are made of text. -/
inductive Path.MadeOfText : Path → Prop
  | named {name : String} {p : Path} (h : Path.named name = .ok p) : Path.MadeOfText p
  | appendText {p : Path} (hp : Path.MadeOfText p) (s : String) : Path.MadeOfText (p.appendText s)
  | appendValue {p : Path} (hp : Path.MadeOfText p) (v : Tree.Value) :
      Path.MadeOfText (p.appendValue v)
  | appendTree {p : Path} {t : Tree} (hp : Path.MadeOfText p) (ht : Tree.MadeOfText t) :
      Path.MadeOfText (p.appendTree t)
  | append {p q p' : Path} (hp : Path.MadeOfText p) (hq : Path.MadeOfText q)
      (h : p.append q = .ok p') : Path.MadeOfText p'

end

open SpanTree.Tree (handedOn_legible)

mutual

/-- **Every tree that is made of text is legible.** -/
theorem Tree.MadeOfText.legible : ∀ {t : Tree}, t.MadeOfText → t.Legible
  | _, .empty => Tree.legible_empty
  | _, .named h => .named h
  | _, .rename ht h => ht.legible.rename h
  | _, .appendText ht s => ht.legible.appendText s
  | _, .appendValue ht v => ht.legible.appendText v.toText
  | _, .push ht hchild => ht.legible.push hchild.legible
  | _, .merge ht hother h => ht.legible.merge hother.legible h
  | _, .toTree hp h => hp.allLegible.toTree handedOn_legible h
  | _, .record h ht => Record.keeps_legible.forall_parseRecords h _ ht
  | _, .read ht hbytes hr hrest h => ht.legible.read hbytes hr hrest h

theorem Path.MadeOfText.allLegible : ∀ {p : Path}, p.MadeOfText → p.All Tree.Legible
  | _, .named h => .named handedOn_legible h
  | _, .appendText hp s => hp.allLegible.appendText s
  | _, .appendValue hp v => hp.allLegible.appendText v.toText
  | _, .appendTree hp ht =>
    hp.allLegible.update handedOn_legible fun _ hold => hold.push ht.legible
  | _, .append hp hq h => hp.allLegible.append handedOn_legible hq.allLegible h

end

end SpanTree
