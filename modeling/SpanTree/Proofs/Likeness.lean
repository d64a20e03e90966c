import SpanTree.Proofs.Acceptance
import SpanTree.Proofs.Bounds
import SpanTree.Proofs.Literal
import SpanTree.Proofs.Origin
import SpanTree.Tree.Dump

/-!
# What alike trees have in common

Trees are alike if they have the same dump. **This says exactly that they have the same shape, and
that nodes in the same place have the same name and the same text** (`alike_iff_similar`). So alike
trees have the same buffer, and the start of a span is all in which they can differ: which of
several equal stretches of the buffer the node names.

A dump is read back in two steps. A line tells its depth, name and text, and where it ends, since
escaped text has no line ends and names have neither dashes nor colons (`line_inj`). The depths then
tell the shape: below a node come the deeper lines, up to the first that is not
(`similar_of_labels`).
-/

namespace SpanTree

namespace Node

/-! ## Similar nodes -/

mutual

/-- The nodes have the same shape, and the relation holds between those in the same place. -/
def Similar (R : Node → Node → Prop) : Node → Node → Prop
  | ⟨name, start, stop, children⟩, ⟨name', start', stop', children'⟩ =>
    R ⟨name, start, stop, children⟩ ⟨name', start', stop', children'⟩ ∧
      SimilarAll R children children'

def SimilarAll (R : Node → Node → Prop) : List Node → List Node → Prop
  | [], [] => True
  | n :: ns, m :: ms => Similar R n m ∧ SimilarAll R ns ms
  | _, _ => False

end

variable {R S : Node → Node → Prop} {n m : Node}

theorem similar_iff : n.Similar R m ↔ R n m ∧ SimilarAll R n.children m.children := by
  cases n
  cases m
  simp [Similar]

mutual

/-- What holds of all nodes below may be used to go from one relation to another. -/
theorem Similar.imp : ∀ {n m : Node} (depth : Nat), n.Similar R m →
    (∀ x ∈ n.preorder depth, ∀ y ∈ m.preorder depth, R x.2 y.2 → S x.2 y.2) → n.Similar S m
  | ⟨_, _, _, _⟩, ⟨_, _, _, _⟩, depth, h, himp => by
    simp only [Similar] at h ⊢
    refine ⟨himp _ (.head _) _ (.head _) h.1, SimilarAll.imp (depth + 1) h.2 ?_⟩
    intro x hx y hy
    exact himp x (.tail _ hx) y (.tail _ hy)

theorem SimilarAll.imp : ∀ {ns ms : List Node} (depth : Nat), SimilarAll R ns ms →
    (∀ x ∈ preorderAll depth ns, ∀ y ∈ preorderAll depth ms, R x.2 y.2 → S x.2 y.2) →
    SimilarAll S ns ms
  | [], [], _, _, _ => trivial
  | n :: ns, m :: ms, depth, h, himp => by
    refine ⟨Similar.imp depth h.1 ?_, SimilarAll.imp depth h.2 ?_⟩
    · intro x hx y hy
      exact himp x (List.mem_append_left _ hx) y (List.mem_append_left _ hy)
    · intro x hx y hy
      exact himp x (List.mem_append_right _ hx) y (List.mem_append_right _ hy)
  | [], _ :: _, _, h, _ => h.elim
  | _ :: _, [], _, h, _ => h.elim

end

mutual

theorem Similar.and : ∀ {n m : Node}, n.Similar R m → n.Similar S m →
    n.Similar (fun n m => R n m ∧ S n m) m
  | ⟨_, _, _, _⟩, ⟨_, _, _, _⟩, hR, hS => by
    simp only [Similar] at hR hS ⊢
    exact ⟨⟨hR.1, hS.1⟩, SimilarAll.and hR.2 hS.2⟩

theorem SimilarAll.and : ∀ {ns ms : List Node}, SimilarAll R ns ms → SimilarAll S ns ms →
    SimilarAll (fun n m => R n m ∧ S n m) ns ms
  | [], [], _, _ => trivial
  | _ :: _, _ :: _, hR, hS => ⟨Similar.and hR.1 hS.1, SimilarAll.and hR.2 hS.2⟩
  | [], _ :: _, h, _ => h.elim
  | _ :: _, [], h, _ => h.elim

end

mutual

theorem Similar.eq (hR : ∀ n m, R n m → n.name = m.name ∧ n.start = m.start ∧ n.stop = m.stop) :
    ∀ {n m : Node}, n.Similar R m → n = m
  | ⟨_, _, _, _⟩, ⟨_, _, _, _⟩, h => by
    simp only [Similar] at h
    obtain ⟨rfl, rfl, rfl⟩ := hR _ _ h.1
    rw [SimilarAll.eq hR h.2]

theorem SimilarAll.eq (hR : ∀ n m, R n m → n.name = m.name ∧ n.start = m.start ∧ n.stop = m.stop) :
    ∀ {ns ms : List Node}, SimilarAll R ns ms → ns = ms
  | [], [], _ => rfl
  | _ :: _, _ :: _, h => by rw [Similar.eq hR h.1, SimilarAll.eq hR h.2]
  | [], _ :: _, h => h.elim
  | _ :: _, [], h => h.elim

end

/-! ## Shapes from depths -/

variable {raw raw' : Bytes}

/-- Nodes that are seen to be the same: the name and the text agree. -/
def SameSight (raw raw' : Bytes) (n m : Node) : Prop :=
  n.name = m.name ∧ n.text raw = m.text raw'

theorem label_eq_iff {depth : Nat} :
    label raw (depth, n) = label raw' (depth, m) ↔ n.SameSight raw raw' m := by
  simp [label, SameSight]

mutual

theorem Similar.labels : ∀ {n m : Node} (depth : Nat), n.Similar (SameSight raw raw') m →
    (n.preorder depth).map (label raw) = (m.preorder depth).map (label raw')
  | ⟨_, _, _, _⟩, ⟨_, _, _, _⟩, depth, h => by
    simp only [Similar] at h
    simp only [preorder, List.map_cons, label_eq_iff.2 h.1, SimilarAll.labels (depth + 1) h.2]

theorem SimilarAll.labels : ∀ {ns ms : List Node} (depth : Nat),
    SimilarAll (SameSight raw raw') ns ms →
    (preorderAll depth ns).map (label raw) = (preorderAll depth ms).map (label raw')
  | [], [], _, _ => rfl
  | _ :: _, _ :: _, depth, h => by
    simp only [preorderAll, List.map_append, Similar.labels depth h.1,
      SimilarAll.labels depth h.2]
  | [], _ :: _, _, h => h.elim
  | _ :: _, [], _, h => h.elim

end

/-- What comes next does not lie below a node of this depth. -/
def Above (depth : Nat) (rest : List Label) : Prop := ∀ l ∈ rest.head?, l.depth ≤ depth

theorem above_preorder (n : Node) (depth : Nat) (rest : List Label) :
    Above depth ((n.preorder depth).map (label raw) ++ rest) := by
  obtain ⟨_, _, _, _⟩ := n
  simp [Above, preorder, label]

theorem above_preorderAll (ns : List Node) {depth : Nat} {rest : List Label}
    (h : Above depth rest) : Above depth ((preorderAll depth ns).map (label raw) ++ rest) := by
  cases ns with
  | nil => exact h
  | cons n ns =>
    rw [preorderAll, List.map_append, List.append_assoc]
    exact above_preorder n depth _

/-- A node does not begin where the next line is not as deep. -/
theorem ne_of_above {depth : Nat} {rest rest' : List Label} (h : Above depth rest) :
    rest ≠ (n.preorder (depth + 1)).map (label raw) ++ rest' := by
  rintro rfl
  obtain ⟨_, _, _, _⟩ := n
  simp only [Above, preorder, List.map_cons, List.cons_append, List.head?_cons,
    Option.mem_some_iff, forall_eq', label] at h
  omega

mutual

/-- The lines of a node tell the node and where they end. -/
theorem similar_of_labels : ∀ (n m : Node) (depth : Nat) (rest rest' : List Label),
    Above depth rest → Above depth rest' →
    (n.preorder depth).map (label raw) ++ rest = (m.preorder depth).map (label raw') ++ rest' →
    n.Similar (SameSight raw raw') m ∧ rest = rest'
  | ⟨_, _, _, children⟩, ⟨_, _, _, children'⟩, depth, rest, rest', hrest, hrest', h => by
    simp only [preorder, List.map_cons, List.cons_append, List.cons.injEq] at h
    obtain ⟨hkids, hend⟩ := similarAll_of_labels children children' depth rest rest' hrest hrest' h.2
    simp only [Similar]
    exact ⟨⟨label_eq_iff.1 h.1, hkids⟩, hend⟩

theorem similarAll_of_labels : ∀ (ns ms : List Node) (depth : Nat) (rest rest' : List Label),
    Above depth rest → Above depth rest' →
    (preorderAll (depth + 1) ns).map (label raw) ++ rest =
      (preorderAll (depth + 1) ms).map (label raw') ++ rest' →
    SimilarAll (SameSight raw raw') ns ms ∧ rest = rest'
  | [], [], _, _, _, _, _, h => ⟨trivial, h⟩
  | [], m :: ms, depth, rest, rest', hrest, _, h => by
    rw [preorderAll, preorderAll, List.map_append, List.append_assoc] at h
    exact absurd h (ne_of_above hrest)
  | n :: ns, [], depth, rest, rest', _, hrest', h => by
    rw [preorderAll, preorderAll, List.map_append, List.append_assoc] at h
    exact absurd h.symm (ne_of_above hrest')
  | n :: ns, m :: ms, depth, rest, rest', hrest, hrest', h => by
    have hdeeper : ∀ {raw : Bytes} {l : List Label} (ns : List Node), Above depth l →
        Above (depth + 1) ((preorderAll (depth + 1) ns).map (label raw) ++ l) :=
      fun ns hl => above_preorderAll ns fun x hx => Nat.le_succ_of_le (hl x hx)
    rw [preorderAll, preorderAll, List.map_append, List.map_append, List.append_assoc,
      List.append_assoc] at h
    obtain ⟨hn, hnext⟩ := similar_of_labels n m (depth + 1) _ _ (hdeeper ns hrest)
      (hdeeper ms hrest') h
    obtain ⟨hns, hend⟩ := similarAll_of_labels ns ms depth rest rest' hrest hrest' hnext
    exact ⟨⟨hn, hns⟩, hend⟩

end

end Node

/-! ## Lines -/

namespace Label

open Text (escape cut_inj escape_inj newline_not_mem_escape)

variable {l l' : Label} {cs ds : List Char}

/-- The line that shows a label. -/
def line (l : Label) : List Char :=
  List.replicate l.depth '-' ++ l.name.toList ++ [':', ' '] ++ escape l.text ++ ['\n']

/-- A name ends at the colon, and is not begun by a dash. -/
theorem name_inj {s s' : String} (hs : Name.IsPlain s) (hs' : Name.IsPlain s')
    (h : s.toList ++ ':' :: cs = s'.toList ++ ':' :: ds) : s = s' ∧ cs = ds := by
  have hcolon : ¬ Name.isNameChar ':' = true := by decide
  obtain ⟨hname, -, hrest⟩ := cut_inj hs hs' hcolon hcolon h
  exact ⟨String.toList_inj.1 hname, hrest⟩

theorem dashes_inj {s s' : String} (hs : Name.IsPlain s) (hs' : Name.IsPlain s') {d d' : Nat}
    (h : List.replicate d '-' ++ (s.toList ++ ':' :: cs) =
      List.replicate d' '-' ++ (s'.toList ++ ':' :: ds)) :
    d = d' ∧ s.toList ++ ':' :: cs = s'.toList ++ ':' :: ds := by
  have hfirst : ∀ (s : String) (cs : List Char), Name.IsPlain s →
      ∃ c rest, s.toList ++ ':' :: cs = c :: rest ∧ ¬ c = '-' := by
    intro s cs hs
    cases hchars : s.toList with
    | nil => exact ⟨':', cs, rfl, by decide⟩
    | cons c rest =>
      refine ⟨c, rest ++ ':' :: cs, rfl, ?_⟩
      rintro rfl
      have hdash : '-' ∈ s.toList := by simp [hchars]
      exact hs.not_mem (by decide) hdash
  obtain ⟨c, rest, hc, hdash⟩ := hfirst s cs hs
  obtain ⟨c', rest', hc', hdash'⟩ := hfirst s' ds hs'
  rw [hc, hc'] at h ⊢
  obtain ⟨hdashes, hsame, hrest⟩ := cut_inj (p := (· = '-')) (fun x hx => List.eq_of_mem_replicate hx)
    (fun x hx => List.eq_of_mem_replicate hx) hdash hdash' h
  refine ⟨?_, by rw [hsame, hrest]⟩
  simpa using congrArg List.length hdashes

/-- **A line tells the label and where the line ends.** -/
theorem line_inj (hl : Name.IsPlain l.name) (hl' : Name.IsPlain l'.name)
    (h : l.line ++ cs = l'.line ++ ds) : l = l' ∧ cs = ds := by
  obtain ⟨depth, name, text⟩ := l
  obtain ⟨depth', name', text'⟩ := l'
  simp only [line, List.append_assoc, List.cons_append, List.nil_append] at h
  obtain ⟨hdepth, h⟩ := dashes_inj hl hl' h
  obtain ⟨hname, h⟩ := name_inj hl hl' h
  obtain ⟨-, h⟩ := List.cons.inj h
  have hline : ∀ bs : Bytes, ∀ c ∈ escape bs, c ≠ '\n' := by
    rintro bs c hc rfl
    exact newline_not_mem_escape bs hc
  obtain ⟨htext, -, hend⟩ := cut_inj (p := (· ≠ '\n')) (hline text) (hline text') (by simp) (by simp) h
  obtain rfl := escape_inj.1 htext
  cases hdepth
  cases hname
  exact ⟨rfl, hend⟩

theorem lines_inj {ls ls' : List Label} (hls : ∀ l ∈ ls, Name.IsPlain l.name)
    (hls' : ∀ l ∈ ls', Name.IsPlain l.name) (h : ls.flatMap line = ls'.flatMap line) : ls = ls' := by
  refine Text.flatMap_inj ?_ ?_ h
  · intro l rest
    simp [line]
  · intro l hl l' hl' cs ds heq
    exact line_inj (hls l hl) (hls' l' hl') heq

end Label

/-! ## Alike trees -/

namespace Tree

variable {a b t : Tree}

theorem dumpChars_eq (t : Tree) : t.dumpChars = t.labels.flatMap Label.line := by
  rw [dumpChars, labels, List.flatMap_map]
  rfl

theorem alike_iff_labels (ha : a.WellFormed) (hb : b.WellFormed) :
    a.alike b = true ↔ a.labels = b.labels := by
  have hplain : ∀ {t : Tree}, t.WellFormed → ∀ l ∈ t.labels, Name.IsPlain l.name := by
    intro t ht l hl
    obtain ⟨x, hx, rfl⟩ := List.mem_map.1 hl
    exact ht.isPlain.of_mem_preorder hx
  rw [alike_iff, dumpChars_eq, dumpChars_eq]
  constructor
  · exact Label.lines_inj (hplain ha) (hplain hb)
  · intro h
    rw [h]

theorem labels_eq_iff : a.labels = b.labels ↔
    a.root.Similar (Node.SameSight a.raw b.raw) b.root := by
  constructor
  · intro h
    have hnone : Node.Above 0 [] := by simp [Node.Above]
    refine (Node.similar_of_labels a.root b.root 0 [] [] hnone hnone ?_).1
    rw [List.append_nil, List.append_nil]
    exact h
  · exact Node.Similar.labels 0

/-- A node has as many bytes as its span says. -/
theorem length_text (ht : t.isValid = true) {x : Nat × Node} (hx : x ∈ t.preorder) :
    (x.2.text t.raw).length = x.2.length := by
  have hslice := (Tree.inRange ht).text x hx
  unfold Indexed.text? Indexed.slice? at hslice
  split at hslice
  · next h => exact length_extract_of_le t.raw h.2
  · cases hslice

/-- Spans with the same start and the same length are the same. -/
theorem root_eq_of_starts (ha : a.isValid = true) (hb : b.isValid = true)
    (hspans : a.root.Similar (fun n m => n.name = m.name ∧ n.length = m.length) b.root)
    (hstarts : a.root.Similar (fun n m => n.start = m.start) b.root) : a.root = b.root := by
  have hplaces := (hspans.and hstarts).imp 0
    (S := fun n m => n.name = m.name ∧ n.start = m.start ∧ n.stop = m.stop) ?_
  · exact Node.Similar.eq (fun _ _ hnm => hnm) hplaces
  · intro x hx y hy hxy
    have hx_le := ((isValid_iff_inPlace.1 ha).inOrder x hx).start_le
    have hy_le := ((isValid_iff_inPlace.1 hb).inOrder y hy).start_le
    obtain ⟨⟨hname, hlen⟩, hstart⟩ := hxy
    simp only [Node.length] at hlen
    exact ⟨hname, hstart, by omega⟩

/-- **Alike trees have the same shape, and nodes in the same place have the same name and text.**
They have the same buffer and the same hash, and nodes in the same place span the same number of
bytes, which are equal bytes of this buffer; if the spans begin in the same places too, the trees
are equal. -/
theorem alike_iff_similar (ha : a.Obtained) (hb : b.Obtained) :
    (a.alike b = true ↔
      a.root.Similar (fun n m => n.name = m.name ∧ n.text a.raw = m.text b.raw) b.root) ∧
    (a.alike b = true → a.raw = b.raw ∧ a.hash = b.hash ∧
      a.root.Similar (fun n m => n.name = m.name ∧ n.length = m.length ∧
        n.text a.raw = m.text a.raw) b.root ∧
      (a.root.Similar (fun n m => n.start = m.start) b.root → a = b)) := by
  have ha' := ha.wellFormed
  have hb' := hb.wellFormed
  have halike : a.alike b = true ↔ a.root.Similar (Node.SameSight a.raw b.raw) b.root :=
    (alike_iff_labels ha' hb').trans labels_eq_iff
  refine ⟨halike, fun h => ?_⟩
  have hsimilar := halike.1 h
  have hraw : a.raw = b.raw := by
    have hroot := (Node.similar_iff.1 hsimilar).1.2
    rwa [text_root ha'.isValid, text_root hb'.isValid] at hroot
  have hspans : a.root.Similar (fun n m => n.name = m.name ∧ n.length = m.length ∧
      n.text a.raw = m.text a.raw) b.root := by
    refine hsimilar.imp 0 ?_
    intro x hx y hy hsight
    have hlen := congrArg List.length hsight.2
    rw [length_text ha'.isValid hx, length_text hb'.isValid hy] at hlen
    refine ⟨hsight.1, hlen, ?_⟩
    rw [hsight.2, hraw]
  refine ⟨hraw, by rw [hash, hash, hraw], hspans, fun hstarts => ?_⟩
  have hlengths : a.root.Similar (fun n m => n.name = m.name ∧ n.length = m.length) b.root :=
    hspans.imp 0 fun _ _ _ _ h => ⟨h.1, h.2.1⟩
  have hroot := root_eq_of_starts ha'.isValid hb'.isValid hlengths hstarts
  cases a
  cases b
  rw [mk.injEq]
  exact ⟨hroot, hraw⟩

/-- A child over the first of two equal bytes, or over the second: the trees are alike, and they
differ. -/
theorem alike_over_equal_bytes :
    let a : Tree := ⟨⟨"$", 0, 2, [⟨"c", 0, 1, []⟩]⟩, [120, 120]⟩
    let b : Tree := ⟨⟨"$", 0, 2, [⟨"c", 1, 2, []⟩]⟩, [120, 120]⟩
    a.alike b = true ∧ a.hash = b.hash ∧
      ¬ a.root.Similar (fun n m => n.start = m.start) b.root := by
  intro a b
  have hchild : Tree.Made ⟨⟨"c", 0, 1, []⟩, [120]⟩ :=
    .appendBytes (@Tree.Made.named "c" _ rfl) [120]
  have ha : a.Made := .appendBytes (.push (@Tree.Made.named "$" _ rfl) hchild) [120]
  have hb : b.Made := .push (.appendBytes (@Tree.Made.named "$" _ rfl) [120]) hchild
  obtain ⟨hiff, himp⟩ := alike_iff_similar (.made ha) (.made hb)
  have halike : a.alike b = true := hiff.2 ⟨⟨rfl, rfl⟩, ⟨⟨rfl, rfl⟩, trivial⟩, trivial⟩
  obtain ⟨-, hhash, -, hequal⟩ := himp halike
  refine ⟨halike, hhash, fun hstarts => ?_⟩
  exact absurd (hequal hstarts) (by decide)

end Tree

end SpanTree
