import SpanTree.Proofs.Indexed
import SpanTree.Proofs.RoundTrip

/-!
# Readers on any data

A reader may be opened on any bytes that begin with a header, be given a name for the roots, and be
asked for trees again and again, behind errors too (`Reader.Reached`). In each state that it comes
to, the next tree is read without an access out of range, the position stays inside the data, and a
tree that is answered is well-formed (`Reader.Reached.safe`).
-/

namespace SpanTree

open Bill

namespace Reader

variable {data : Bytes} {r r' : Reader} {root? : Option String} {start : Nat} {t : Tree} {e : Error}

/-- The readers that come of data. -/
inductive Reached (data : Bytes) : Reader → Prop
  | opened {r : Reader} (h : ofBytes data = .ok r) : Reached data r
  | named {r r' : Reader} {name : String} (hr : Reached data r) (h : r.withRootName name = .ok r') :
      Reached data r'
  | next {r : Reader} (hr : Reached data r) : Reached data r.next.state
  | nextItem {r : Reader} (hr : Reached data r) : Reached data r.nextItem.state

/-- What holds of each of them. -/
structure Steady (data : Bytes) (r : Reader) : Prop where
  reads : Indexed.Reads data header.length r.rootName r
  isNode : ∀ name ∈ r.rootName, Name.isNode name = true

/-- A reader that is opened stands behind the header. -/
theorem steady_opened (h : Command.openReader data root? = .ok r) :
    Steady data r ∧ r = Reader.opened data root? := by
  obtain ⟨⟨rest, rfl⟩, hroot, rfl⟩ := openReader_eq_ok.1 h
  exact ⟨⟨⟨rfl, Nat.le_refl _, by simp [Reader.opened], rfl, rfl⟩, hroot⟩, rfl⟩

theorem steady_ofBytes (h : ofBytes data = .ok r) : Steady data r := by
  have hopen : Command.openReader data none = .ok r := by
    rw [Command.openReader, h]
    rfl
  exact (steady_opened hopen).1

theorem Steady.withRootName {name : String} (hr : Steady data r)
    (h : r.withRootName name = .ok r') : Steady data r' := by
  unfold Reader.withRootName at h
  split at h
  · next hname =>
    cases h
    obtain ⟨hsize, hstart, hposition, hrest, -⟩ := hr.reads
    exact ⟨⟨hsize, hstart, hposition, hrest, rfl⟩, by simpa using hname⟩
  · cases h

/-- Reading on by index, from where the reader stands. -/
theorem Steady.safe_next (hr : Steady data r) (hstart : start ≤ r.position) :
    Indexed.SafeOn data start r.rootName (Indexed.readTree data) readTree r := by
  obtain ⟨hsize, -, hposition, hrest, hname⟩ := hr.reads
  exact Indexed.safe_readTree ⟨hsize, hstart, hposition, hrest, hname⟩

theorem Steady.next (hr : Steady data r) : Steady data r.next.state := by
  have hreads := (hr.safe_next hr.reads.start_le).inv
  rw [outcome_readTree] at hreads
  have hname := hreads.rootName_eq
  exact ⟨hname ▸ hreads, hname ▸ hr.isNode⟩

theorem nextItem_state (r : Reader) : r.nextItem.state = r.next.state ∨
    r.nextItem.state = { r.next.state with isFinished := true } := by
  simp only [Reader.nextItem]
  split
  · exact .inr rfl
  · exact .inl rfl

theorem Steady.nextItem (hr : Steady data r) : Steady data r.nextItem.state := by
  have hnext := hr.next
  rcases nextItem_state r with h | h
  · rw [h]
    exact hnext
  · obtain ⟨⟨hsize, hstart, hposition, hrest, hname⟩, hnode⟩ := hnext
    rw [h]
    exact ⟨⟨hsize, hstart, hposition, hrest, hname⟩, hnode⟩

theorem Reached.steady (h : Reached data r) : Steady data r := by
  induction h with
  | opened h => exact steady_ofBytes h
  | named _ h ih => exact ih.withRootName h
  | next _ ih => exact ih.next
  | nextItem _ ih => exact ih.nextItem

/-- A tree that is answered is in order. -/
theorem Steady.tree (hr : Steady data r) (h : r.next.result = .ok (some t)) :
    t.isValid = true ∧ ∀ x ∈ t.preorder, Name.isNode x.2.name = true ∧ x.1 ≤ maxDepth := by
  obtain ⟨-, bytes, hform, -⟩ := (answers_readTree_some hr.reads.consistent).1 (next_eq.1 ⟨h, rfl⟩)
  refine ⟨hform.isValid, ?_⟩
  intro x hx
  cases hform with
  | mk _ _ _ hblock =>
    exact ⟨(hblock.allNames hr.isNode).of_mem_preorder hx, hblock.depth_le x hx⟩

/-- **Readers are safe and sound on any data.** Whatever the bytes behind the header, the names
given to the roots and the calls made so far, errors among them: the next call, made by index, comes
to no fault and to the same end; the position has not gone back and lies behind the header and
inside the data; a tree that is answered is valid, has names that nodes may have and no node too
deep; and the offset of an error lies inside the data. -/
theorem Reached.safe (h : Reached data r) :
    (Indexed.readTree data).run.run (Indexed.mark r) =
        some (r.next.result, Indexed.mark r.next.state) ∧
      header.length ≤ r.position ∧ r.position ≤ r.next.state.position ∧
      r.next.state.position ≤ data.length ∧
      (∀ t, r.next.result = .ok (some t) →
        t.isValid = true ∧ ∀ x ∈ t.preorder, Name.isNode x.2.name = true ∧ x.1 ≤ maxDepth) ∧
      ∀ e, r.next.result = .error e → e.Inside data.length := by
  have hsteady := h.steady
  have hsafe := hsteady.safe_next (Nat.le_refl r.position)
  have hrun := hsafe.run_eq
  have hinv := hsafe.inv
  have herror := hsafe.error
  rw [outcome_readTree] at hrun hinv herror
  exact ⟨hrun, hsteady.reads.start_le, hinv.start_le, hinv.position_le, fun t ht => hsteady.tree ht,
    herror⟩

/-- A frame whose node refers to an unknown name, and what is read behind it. -/
theorem Reached.safe_behind_error :
    let data := header ++ [0x00, 0x01, 0x3F, 0x80]
    let r := (Reader.opened data none).next.state
    (Reader.opened data none).next.result = .error (.malformed 8 .unknownIndex) ∧
      r.next.result = .error (.truncated 10) ∧
      (Indexed.readTree data).run.run (Indexed.mark r) =
        some (r.next.result, Indexed.mark r.next.state) ∧
      header.length ≤ r.position ∧ r.next.state.position ≤ data.length := by
  intro data r
  have hreached : Reached data r := .next (.opened rfl)
  obtain ⟨hrun, hstart, -, hend, -⟩ := hreached.safe
  exact ⟨rfl, rfl, hrun, hstart, hend⟩

end Reader

end SpanTree
