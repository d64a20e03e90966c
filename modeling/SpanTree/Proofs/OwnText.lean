import SpanTree.Proofs.Acceptance
import SpanTree.Tree.Python

/-!
# The text that is a node's own

The places of a buffer that a node spans and none of its children covers are the node's own. **Each
place of the buffer is the own place of exactly one node** (`Tree.ownPlaces_perm`), if the tree is
valid. What stands at the own places is what the rendering gathers, gap by gap (`ownText_eq`).

Both follow from one equation along the children (`freePlaces_cons`): up to the first child the
places are free, and behind it they are those that the other children leave free.
-/

namespace SpanTree

/-! ## Places -/

theorem range'_append_range' {i j k : Nat} (hij : i ≤ j) (hjk : j ≤ k) :
    List.range' i (j - i) ++ List.range' j (k - j) = List.range' i (k - i) := by
  have happend := @List.range'_append_1 i (j - i) (k - j)
  have hmid : i + (j - i) = j := by omega
  have hlen : j - i + (k - j) = k - i := by omega
  rwa [hmid, hlen] at happend

theorem extract_eq_filterMap {α : Type} (l : List α) (i j : Nat) :
    l.extract i j = (List.range' i (j - i)).filterMap (l[·]?) := by
  rw [List.extract_eq_take_drop]
  induction j - i generalizing i with
  | zero => simp
  | succ k ih =>
    rw [List.range'_succ, List.filterMap_cons, ← ih (i + 1)]
    by_cases hi : i < l.length
    · rw [List.getElem?_eq_getElem hi, List.drop_eq_getElem_cons hi, List.take_succ_cons]
    · rw [List.getElem?_eq_none (by omega), List.drop_eq_nil_of_le (by omega),
        List.drop_eq_nil_of_le (by omega), List.take_nil, List.take_nil]

namespace Node

variable {raw : Bytes} {cursor stop lo hi : Nat} {n : Node} {ns : List Node}

def covers (n : Node) (i : Nat) : Bool := n.start ≤ i && i < n.stop

/-- The places of `[cursor, stop)` that no node covers. -/
def freePlaces (cursor stop : Nat) (ns : List Node) : List Nat :=
  (List.range' cursor (stop - cursor)).filter fun i => ¬ ns.any (·.covers i)

def ownPlaces (n : Node) : List Nat := freePlaces n.start n.stop n.children

/-- The bytes at the own places of a node. -/
def ownText (raw : Bytes) (n : Node) : Bytes := n.ownPlaces.filterMap (raw[·]?)

theorem freePlaces_nil : freePlaces cursor stop [] = List.range' cursor (stop - cursor) := by
  simp [freePlaces]

/-- **The places before the first node are free, and those that the others leave free
behind it.** -/
theorem freePlaces_cons (h : fitsAll cursor stop (n :: ns) = true) :
    freePlaces cursor stop (n :: ns) =
      List.range' cursor (n.start - cursor) ++ freePlaces n.stop stop ns := by
  simp only [fitsAll, Bool.and_eq_true] at h
  obtain ⟨hstart, hstop, hspan, -⟩ := fits_iff.1 h.1
  have hlater : ∀ c ∈ ns, n.stop ≤ c.start := fun c hc =>
    (((fitsAll_iff_inOrder ns n.stop stop 0).1 h.2).1 c hc).1
  rw [freePlaces, freePlaces, ← range'_append_range' hstart (Nat.le_trans hspan hstop),
    ← range'_append_range' hspan hstop, List.filter_append, List.filter_append]
  have hbefore : (List.range' cursor (n.start - cursor)).filter
      (fun i => ¬ (n :: ns).any (·.covers i)) = List.range' cursor (n.start - cursor) := by
    refine List.filter_eq_self.2 fun i hi => ?_
    have hi := List.mem_range'_1.1 hi
    simp only [List.any_eq_true, decide_eq_true_eq]
    rintro ⟨c, hc, hcovers⟩
    simp only [covers, Bool.and_eq_true, decide_eq_true_eq] at hcovers
    rcases List.mem_cons.1 hc with rfl | hc
    · omega
    · have := hlater c hc
      omega
  have hwithin : (List.range' n.start (n.stop - n.start)).filter
      (fun i => ¬ (n :: ns).any (·.covers i)) = [] := by
    refine List.filter_eq_nil_iff.2 fun i hi => ?_
    have hi := List.mem_range'_1.1 hi
    have hcovers : n.covers i = true := by
      simp only [covers, Bool.and_eq_true, decide_eq_true_eq]
      omega
    simp [hcovers]
  have hbehind : (List.range' n.stop (stop - n.stop)).filter
      (fun i => ¬ (n :: ns).any (·.covers i)) =
        (List.range' n.stop (stop - n.stop)).filter (fun i => ¬ ns.any (·.covers i)) := by
    refine List.filter_congr fun i hi => ?_
    have hi := List.mem_range'_1.1 hi
    have hcovers : n.covers i = false := by
      simp only [covers, Bool.and_eq_false_iff, decide_eq_false_iff_not]
      omega
    rw [List.any_cons, hcovers, Bool.false_or]
  rw [hbefore, hwithin, hbehind, List.nil_append]

theorem gaps_eq (h : fitsAll cursor stop ns = true) :
    Python.ownText raw cursor stop ns = (freePlaces cursor stop ns).filterMap (raw[·]?) := by
  induction ns generalizing cursor with
  | nil => rw [Python.ownText, freePlaces_nil, extract_eq_filterMap]
  | cons n ns ih =>
    rw [freePlaces_cons h, List.filterMap_append, ← extract_eq_filterMap]
    simp only [fitsAll, Bool.and_eq_true] at h
    rw [Python.ownText, ih h.2]

/-- The rendering gathers the text that is the node's own. -/
theorem ownText_eq (h : n.fits lo hi = true) :
    Python.ownText raw n.start n.stop n.children = n.ownText raw := gaps_eq (fits_iff.1 h).2.2.2

mutual

theorem ownPlaces_perm : ∀ (n : Node) (depth lo hi : Nat), n.fits lo hi = true →
    ((n.preorder depth).flatMap fun x => x.2.ownPlaces).Perm
      (List.range' n.start (n.stop - n.start))
  | ⟨name, start, stop, children⟩, depth, lo, hi, hfits => by
    obtain ⟨-, -, hle, hkids⟩ := fits_iff.1 hfits
    rw [preorder, List.flatMap_cons]
    exact freePlaces_perm children (depth + 1) start stop hkids hle

/-- The free places, and the own places of the nodes and of all below them. -/
theorem freePlaces_perm : ∀ (ns : List Node) (depth cursor stop : Nat),
    fitsAll cursor stop ns = true → cursor ≤ stop →
    (freePlaces cursor stop ns ++ (preorderAll depth ns).flatMap fun x => x.2.ownPlaces).Perm
      (List.range' cursor (stop - cursor))
  | [], _, cursor, stop, _, _ => by
    rw [freePlaces_nil, preorderAll, List.flatMap_nil, List.append_nil]
  | n :: ns, depth, cursor, stop, hfits, hle => by
    rw [freePlaces_cons hfits]
    simp only [fitsAll, Bool.and_eq_true] at hfits
    obtain ⟨hstart, hstop, hspan, -⟩ := fits_iff.1 hfits.1
    have hn := ownPlaces_perm n depth cursor stop hfits.1
    have hns := freePlaces_perm ns depth n.stop stop hfits.2 hstop
    rw [preorderAll, List.flatMap_append, List.append_assoc,
      ← range'_append_range' hstart (Nat.le_trans hspan hstop), ← range'_append_range' hspan hstop]
    refine .append_left _ (.trans ?_ (hn.append hns))
    exact List.perm_append_comm_assoc _ _ _

end

end Node

/-- **Each place of the buffer is the own place of exactly one node.** -/
theorem Tree.ownPlaces_perm {t : Tree} (h : t.isValid = true) :
    (t.preorder.flatMap fun x => x.2.ownPlaces).Perm (List.range t.raw.length) := by
  obtain ⟨hstart, hstop, -⟩ := isValid_iff.1 h
  have hperm := t.root.ownPlaces_perm 0 0 _ (fits_of_isValid h)
  rwa [hstart, hstop, Nat.sub_zero, ← List.range_eq_range'] at hperm

end SpanTree
