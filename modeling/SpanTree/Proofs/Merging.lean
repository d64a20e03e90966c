import SpanTree.Proofs.Arrangement
import SpanTree.Proofs.Bench
import SpanTree.Proofs.Computation

/-!
# Merging trees

Merging changes a tree in place and may fail (`mergeIn`). **It is a partial monoid**: in either
order of merging three trees, the nodes of the last one are moved behind the bytes of both others,
and the same pairs of names are found to agree. Pushing a tree is an instance of it: it is merging a
nameless tree that has nothing but this child (`merges_as_monoid`).

The spans are joined by `join`, which is associative as it is. What is partial is in the names
only, and a nameless root takes part in it: it passes on the name that comes behind it.
-/

namespace SpanTree

theorem Node.movedAll_append (k : Nat) (ns ms : List Node) :
    movedAll k (ns ++ ms) = movedAll k ns ++ movedAll k ms := by
  simp only [movedAll_eq_map, List.map_append]

namespace Tree

variable {t t' other a b c m u : Tree} {mode : MergeMode} {e : Error} {x y z : String}

/-! ## In place -/

/-- The contents of another node behind the end of the node. -/
def appendNode (n other : Node) : Node :=
  let moved := other.moved n.stop
  { n with
    name := if n.name.isEmpty then other.name else n.name
    stop := moved.stop
    children := n.children ++ moved.children }

/-- Merging as it changes the tree: the checks come first, then the nodes, then the bytes. -/
def mergeIn (other : Tree) (mode : MergeMode) : ExceptT Error (StateM Tree) Unit := do
  if mode = .nodes then throw .nodeMergeUnsupported
  let ours := (← get).root.name
  if !ours.isEmpty && !other.root.name.isEmpty && ours != other.root.name then
    throw (.nameConflict ours other.root.name)
  modify fun t => { t with root := appendNode t.root other.root }
  modify fun t => { t with raw := t.raw ++ other.raw }

/-- A failure leaves the tree as it was. -/
theorem outcome_mergeIn (other : Tree) (mode : MergeMode) (t : Tree) :
    outcome (mergeIn other mode) t =
      match t.merge other mode with
      | .ok t' => (.ok (), t')
      | .error e => (.error e, t) := by
  cases mode with
  | nodes => rfl
  | concatenate =>
    have hrun : outcome (mergeIn other .concatenate) t =
        if !t.root.name.isEmpty && !other.root.name.isEmpty && t.root.name != other.root.name then
          (.error (.nameConflict t.root.name other.root.name), t)
        else (.ok (), ⟨appendNode t.root other.root, t.raw ++ other.raw⟩) := by
      simp only [mergeIn, reduceCtorEq, if_false, outcome_bind, outcome_get]
      split <;> rfl
    have hcheck : (!t.root.name.isEmpty && !other.root.name.isEmpty &&
        t.root.name != other.root.name) = !canMergeNames t.rootName other.rootName := by
      simp [canMergeNames, rootName, bne]
    rw [hrun, hcheck]
    by_cases hnames : canMergeNames t.rootName other.rootName = true
    · rw [merge_of_canMerge hnames, hnames]
      simp [appendNode, rootName]
    · rw [merge_of_conflict hnames, if_pos (by simpa using hnames)]
      rfl

theorem answers_mergeIn : Answers (mergeIn other mode) t () t' ↔ t.merge other mode = .ok t' := by
  unfold Answers
  rw [outcome_mergeIn]
  cases t.merge other mode <;> simp

theorem fails_mergeIn :
    Fails (mergeIn other mode) t e t' ↔ t.merge other mode = .error e ∧ t = t' := by
  unfold Fails
  rw [outcome_mergeIn]
  cases t.merge other mode <;> simp

/-! ## Names -/

/-- The name of the root after merging. -/
def joinNames (x y : String) : String := if x.isEmpty then y else x

theorem canMergeNames_iff : canMergeNames x y = true ↔ x = "" ∨ y = "" ∨ x = y := by
  simp [canMergeNames, or_assoc]

/-- No two of these names are distinct, apart from missing ones. -/
def NamesAgree (names : List String) : Prop := names.Pairwise fun x y => x = "" ∨ y = "" ∨ x = y

theorem joinNames_assoc (x y z : String) :
    joinNames (joinNames x y) z = joinNames x (joinNames y z) := by
  unfold joinNames
  by_cases hx : x = ""
  · simp [hx]
  · simp [hx]

theorem namesAgree_three : NamesAgree [x, y, z] ↔
    canMergeNames x y = true ∧ canMergeNames x z = true ∧ canMergeNames y z = true := by
  simp [NamesAgree, canMergeNames_iff, and_assoc]

/-- A missing name in the middle hides nothing. -/
theorem namesAgree_iff_left :
    NamesAgree [x, y, z] ↔ canMergeNames x y = true ∧ canMergeNames (joinNames x y) z = true := by
  simp only [namesAgree_three, canMergeNames_iff, joinNames]
  by_cases hx : x = ""
  · simp [hx]
  · rw [if_neg (by simpa using hx)]
    grind

theorem namesAgree_iff_right :
    NamesAgree [x, y, z] ↔ canMergeNames y z = true ∧ canMergeNames x (joinNames y z) = true := by
  simp only [namesAgree_three, canMergeNames_iff, joinNames]
  by_cases hy : y = ""
  · simp [hy]
  · rw [if_neg (by simpa using hy)]
    grind

/-! ## Spans -/

/-- The tree with the bytes and the top-level children of another behind its own. -/
def join (t other : Tree) : Tree :=
  ⟨⟨joinNames t.rootName other.rootName, t.root.start, other.root.stop + t.root.stop,
    t.root.children ++ Node.movedAll t.root.stop other.root.children⟩, t.raw ++ other.raw⟩

theorem merge_eq_ok : t.merge other .concatenate = .ok m ↔
    canMergeNames t.rootName other.rootName = true ∧ t.join other = m := by
  by_cases hnames : canMergeNames t.rootName other.rootName = true
  · rw [merge_of_canMerge hnames, Except.ok.injEq]
    simp only [hnames, true_and]
    rfl
  · rw [merge_of_conflict hnames]
    simp [hnames]

theorem answers_concatenate : Answers (mergeIn other .concatenate) t () m ↔
    canMergeNames t.rootName other.rootName = true ∧ t.join other = m :=
  answers_mergeIn.trans merge_eq_ok

theorem join_assoc (a b c : Tree) : (a.join b).join c = a.join (b.join c) := by
  simp only [join, rootName, joinNames_assoc, Node.movedAll_append, Node.movedAll_movedAll,
    List.append_assoc, Nat.add_assoc]

theorem empty_join (ha : a.isValid = true) : empty.join a = a := by
  obtain ⟨hstart, -, -⟩ := isValid_iff.1 ha
  obtain ⟨⟨name, start, stop, children⟩, raw⟩ := a
  cases hstart
  simp [join, empty, Node.blank, rootName, joinNames]

theorem join_empty (a : Tree) : a.join empty = a := by
  obtain ⟨⟨name, start, stop, children⟩, raw⟩ := a
  simp only [join, empty, Node.blank, rootName, joinNames, Node.movedAll, List.append_nil,
    Nat.zero_add]
  by_cases hname : name = ""
  · simp [hname]
  · simp [hname]

/-- A nameless tree that has nothing but one child brings this child. -/
theorem join_of_only_child (hb : b.isValid = true) (hu : u.isValid = true) (hname : u.rootName = "")
    (hchild : u.root.children = [b.root]) (hraw : u.raw = b.raw) : a.join u = a.push b := by
  have hstop : u.root.stop = b.root.stop := by
    rw [(isValid_iff.1 hu).2.1, (isValid_iff.1 hb).2.1, hraw]
  have hnames : joinNames a.rootName u.rootName = a.root.name := by
    unfold joinNames
    by_cases ha : a.rootName = ""
    · simp only [ha, hname]
      exact (if_pos rfl).trans ha.symm
    · exact if_neg (by simpa using ha)
  simp only [join, push, hnames, hstop, hchild, hraw, Node.movedAll, Node.stop_moved]

/-! ## The laws -/

/-- Whether merging two trees and then a third comes to anything. -/
theorem answers_merge_merge :
    Answers (mergeIn b .concatenate >>= fun _ => mergeIn c .concatenate) a () m ↔
      NamesAgree [a.rootName, b.rootName, c.rootName] ∧ (a.join b).join c = m := by
  rw [answers_bind, namesAgree_iff_left]
  constructor
  · intro h
    obtain ⟨⟨⟩, ab, hab, habc⟩ := h
    obtain ⟨hnames, rfl⟩ := answers_concatenate.1 hab
    obtain ⟨hnames', rfl⟩ := answers_concatenate.1 habc
    exact ⟨⟨hnames, hnames'⟩, rfl⟩
  · intro h
    obtain ⟨⟨hnames, hnames'⟩, rfl⟩ := h
    exact ⟨(), a.join b, answers_concatenate.2 ⟨hnames, rfl⟩,
      answers_concatenate.2 ⟨hnames', rfl⟩⟩

theorem answers_merge_merged :
    (∃ bc, Answers (mergeIn c .concatenate) b () bc ∧ Answers (mergeIn bc .concatenate) a () m) ↔
      NamesAgree [a.rootName, b.rootName, c.rootName] ∧ a.join (b.join c) = m := by
  rw [namesAgree_iff_right]
  constructor
  · intro h
    obtain ⟨bc, hbc, habc⟩ := h
    obtain ⟨hnames, rfl⟩ := answers_concatenate.1 hbc
    obtain ⟨hnames', rfl⟩ := answers_concatenate.1 habc
    exact ⟨⟨hnames, hnames'⟩, rfl⟩
  · intro h
    obtain ⟨⟨hnames, hnames'⟩, rfl⟩ := h
    exact ⟨b.join c, answers_concatenate.2 ⟨hnames, rfl⟩, answers_concatenate.2 ⟨hnames', rfl⟩⟩

theorem fails_mergeIn_iff : Fails (mergeIn b mode) a e t' ↔ t' = a ∧
    (mode = .nodes ∧ e = .nodeMergeUnsupported ∨
      mode = .concatenate ∧ ¬ NamesAgree [a.rootName, b.rootName] ∧
        e = .nameConflict a.rootName b.rootName) := by
  have hagree : NamesAgree [a.rootName, b.rootName] ↔
      canMergeNames a.rootName b.rootName = true := by
    simp [NamesAgree, canMergeNames_iff]
  rw [fails_mergeIn, hagree]
  cases mode with
  | nodes =>
    have hmerge : a.merge b .nodes = .error .nodeMergeUnsupported := rfl
    rw [hmerge, Except.error.injEq]
    constructor
    · intro h
      exact ⟨h.2.symm, .inl ⟨rfl, h.1.symm⟩⟩
    · intro h
      obtain ⟨hsame, hcase⟩ := h
      rcases hcase with ⟨-, he⟩ | ⟨hmode, -⟩
      · exact ⟨he.symm, hsame.symm⟩
      · cases hmode
  | concatenate =>
    by_cases hnames : canMergeNames a.rootName b.rootName = true
    · simp [merge_of_canMerge hnames, hnames]
    · rw [merge_of_conflict hnames, Except.error.injEq]
      constructor
      · intro h
        exact ⟨h.2.symm, .inr ⟨rfl, hnames, h.1.symm⟩⟩
      · intro h
        obtain ⟨hsame, hcase⟩ := h
        rcases hcase with ⟨hmode, -⟩ | ⟨-, -, he⟩
        · cases hmode
        · exact ⟨he.symm, hsame.symm⟩

/-- **Merging is a partial monoid, and pushing is an instance of it.** Merging `b` and then `c` into
`a` comes to the same tree as merging `c` into `b` and that into `a`, and either comes to one
exactly if no two of the three root names are there and distinct. The empty tree is neutral on both
sides. A failure leaves the tree as it was, and says whether it is the names or the mode. A pushed
tree may be moved or copied, or be the only child of a nameless tree that is merged. -/
theorem merges_as_monoid (ha : a.Made) (hb : b.Made) (c : Tree) :
    (∀ m, Answers (mergeIn b .concatenate >>= fun _ => mergeIn c .concatenate) a () m ↔
      ∃ bc, Answers (mergeIn c .concatenate) b () bc ∧
        Answers (mergeIn bc .concatenate) a () m) ∧
    ((∃ m, Answers (mergeIn b .concatenate >>= fun _ => mergeIn c .concatenate) a () m) ↔
      NamesAgree [a.rootName, b.rootName, c.rootName]) ∧
    Answers (mergeIn a .concatenate) .empty () a ∧
    Answers (mergeIn .empty .concatenate) a () a ∧
    (∀ mode e a', Fails (mergeIn b mode) a e a' ↔ a' = a ∧
      (mode = .nodes ∧ e = .nodeMergeUnsupported ∨
        mode = .concatenate ∧ ¬ NamesAgree [a.rootName, b.rootName] ∧
          e = .nameConflict a.rootName b.rootName)) ∧
    a.pushMoving b = a.push b ∧
    Answers (mergeIn (Tree.empty.push b) .concatenate) a () (a.push b) ∧
    ∀ u, u.Made → u.rootName = "" → u.root.children = [b.root] → u.raw = b.raw →
      Answers (mergeIn u .concatenate) a () (a.push b) := by
  have hvalid := ha.wellFormed.isValid
  have hpush : ∀ u, u.Made → u.rootName = "" → u.root.children = [b.root] → u.raw = b.raw →
      Answers (mergeIn u .concatenate) a () (a.push b) := by
    intro u hu hname hchild hraw
    refine answers_concatenate.2 ⟨canMergeNames_iff.2 (.inr (.inl hname)), ?_⟩
    exact join_of_only_child hb.wellFormed.isValid hu.wellFormed.isValid hname hchild hraw
  refine ⟨?_, ?_, ?_, ?_, fun _ _ _ => fails_mergeIn_iff, pushMoving_eq_push a b, ?_, hpush⟩
  · intro m
    rw [answers_merge_merge, answers_merge_merged, join_assoc]
  · simp only [answers_merge_merge, exists_and_left, exists_eq', and_true]
  · exact answers_concatenate.2 ⟨rfl, empty_join hvalid⟩
  · exact answers_concatenate.2 ⟨canMergeNames_iff.2 (.inr (.inl rfl)), join_empty a⟩
  · refine hpush _ (.push .empty hb) rfl ?_ rfl
    simp [push, empty, Node.blank]

/-- A nameless tree between two that have distinct names: it can be merged with either, but not with
both. Pushing it puts its child one byte further. -/
theorem merges_as_monoid_nameless :
    let a : Tree := ⟨⟨"$", 0, 1, [⟨"x", 0, 1, []⟩]⟩, [49]⟩
    let b : Tree := ⟨⟨"", 0, 1, [⟨"y", 0, 1, []⟩]⟩, [50]⟩
    let c : Tree := ⟨⟨"z", 0, 0, []⟩, []⟩
    (∀ bc, Answers (mergeIn c .concatenate) b () bc →
      ∀ m, ¬ Answers (mergeIn bc .concatenate) a () m) ∧
    Answers (mergeIn (Tree.empty.push b) .concatenate) a ()
      ⟨⟨"$", 0, 2, [⟨"x", 0, 1, []⟩, ⟨"", 1, 2, [⟨"y", 1, 2, []⟩]⟩]⟩, [49, 50]⟩ := by
  intro a b c
  have ha : a.Made :=
    .push (@Tree.Made.named "$" _ rfl) (.appendBytes (@Tree.Made.named "x" _ rfl) [49])
  have hb : b.Made := .push .empty (.appendBytes (@Tree.Made.named "y" _ rfl) [50])
  obtain ⟨hassoc, hexists, -, -, -, -, hpush, -⟩ := merges_as_monoid ha hb c
  refine ⟨?_, hpush⟩
  intro bc hbc m hm
  have hagree := hexists.1 ⟨m, (hassoc m).2 ⟨bc, hbc, hm⟩⟩
  revert hagree
  simp [NamesAgree, a, b, c, rootName]

end Tree

end SpanTree
