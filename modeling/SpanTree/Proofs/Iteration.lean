import SpanTree.Proofs.Ending
import SpanTree.Proofs.Tracing

/-!
# Going through a stream to its end

Going through a stream makes one call after the other, each of which ends the reading if it comes to
an error. Whatever the data are behind their header, the answers are some trees, one error at most,
and nothing from there on (`iteration_ends`). Every tree takes a frame of at least two bytes, and
that many bytes there are.

The measure is the number of bytes that are left. A call that answers a tree lowers it
(`Steady.frame_of_next`), and one that answers anything else leaves a reader that is over
(`Over`), from which no call moves it.
-/

namespace SpanTree

open Bill

variable {d d' : Dictionary} {root? : Option String} {bytes data : Bytes} {t : Tree}

/-- A frame has two lengths in it. -/
theorem FrameForm.two_le_length (h : FrameForm d root? bytes t d') : 2 ≤ bytes.length := by
  cases h with
  | mk hraw _ hblock =>
    have := hraw.length_pos
    have := hblock.length_pos
    simp only [List.length_append]
    omega

namespace Reader

variable {r : Reader} {n : Nat}

/-- The answer of the call that comes after `n` others, in going through a stream. -/
def item (r : Reader) (n : Nat) : Except Error (Option Tree) :=
  (r.after (List.replicate n .nextItem)).nextItem.result

theorem item_succ (r : Reader) (n : Nat) : r.item (n + 1) = r.nextItem.state.item n := rfl

/-! ## A reader that is over -/

/-- Nothing comes, and the reader stays as it is. -/
def Over (r : Reader) : Prop := r.nextItem.result = .ok none ∧ r.nextItem.state = r

theorem Over.item (h : r.Over) (n : Nat) : r.item n = .ok none := by
  induction n with
  | zero => exact h.1
  | succ n ih => rw [item_succ, h.2, ih]

theorem nextItem_result (r : Reader) : r.nextItem.result = r.next.result := by
  simp only [nextItem]
  split <;> rfl

theorem nextItem_of_ok {a : Option Tree} (h : r.next.result = .ok a) : r.nextItem = r.next := by
  simp only [nextItem, h]

theorem over_of_next (h : r.next.result = .ok none ∧ r.next.state = r) : r.Over := by
  rw [Over, nextItem_of_ok h.1]
  exact h

theorem over_of_isFinished (h : r.isFinished = true) : r.Over := by
  have hnone : Answers readTree r none r := by
    rw [readTree, answers_get_bind, h]
    exact answers_pure.2 ⟨rfl, rfl⟩
  exact over_of_next (next_eq.2 hnone)

/-- Behind an error nothing comes. -/
theorem over_of_error {e : Error} (h : r.nextItem.result = .error e) : r.nextItem.state.Over := by
  refine over_of_isFinished ?_
  rw [nextItem_result] at h
  simp only [nextItem, h]

/-- Behind nothing there is nothing. -/
theorem Steady.over_of_none (hr : Steady data r) (h : r.nextItem.result = .ok none) :
    r.nextItem.state.Over := by
  rw [nextItem_result] at h
  rw [nextItem_of_ok h]
  generalize hstate : r.next.state = r'
  cases (answers_readTree_none hr.reads.consistent).1 (next_eq.1 ⟨h, hstate⟩) with
  | atEnd => exact over_of_next ⟨h, hstate⟩
  | terminator => exact over_of_isFinished rfl

/-! ## A reader that answers a tree -/

/-- The reader moves by the bytes of the frame. -/
theorem Steady.frame_of_next (hr : Steady data r) (h : r.next.result = .ok (some t)) :
    ∃ bytes, FrameForm r.dict r.rootName bytes t r.next.state.dict ∧
      data.drop r.position = bytes ++ data.drop r.next.state.position ∧
      r.next.state.position = r.position + bytes.length := by
  obtain ⟨-, bytes, hform, hpass⟩ :=
    (answers_readTree_some hr.reads.consistent).1 (next_eq.1 ⟨h, rfl⟩)
  refine ⟨bytes, hform, ?_, hpass.position_eq⟩
  rw [← hr.reads.rest_eq, ← hr.next.reads.rest_eq, hpass.rest_eq]

theorem Steady.rootName_on (hr : Steady data r) (c : Call) :
    (c.on r).state.rootName = r.rootName := by
  have hname := (hr.safe_next hr.reads.start_le).inv.rootName_eq
  rw [outcome_readTree] at hname
  cases c with
  | next => exact hname
  | nextItem =>
    rcases nextItem_state r with h | h
    · rwa [Call.on, h]
    · rwa [Call.on, h]

/-- Calls leave the reader in its data, with the name that it gives to roots. -/
theorem Steady.after (hr : Steady data r) (cs : List Call) :
    Steady data (r.after cs) ∧ (r.after cs).rootName = r.rootName := by
  induction cs generalizing r with
  | nil => exact ⟨hr, rfl⟩
  | cons c cs ih =>
    obtain ⟨hsteady, hname⟩ := ih (hr.on c)
    exact ⟨hsteady, hname.trans (hr.rootName_on c)⟩

/-- Some trees, one error at most, and nothing from there on. -/
def RunsOut (r : Reader) (ts : List Tree) (e? : Option Error) : Prop :=
  ∀ n, r.item n = (ts.map (fun t => .ok (some t)) ++ e?.toList.map .error)[n]?.getD (.ok none)

theorem runsOut_cons {ts : List Tree} {e? : Option Error} (h : r.nextItem.result = .ok (some t))
    (hrest : r.nextItem.state.RunsOut ts e?) : r.RunsOut (t :: ts) e? := by
  intro n
  cases n with
  | zero => exact h
  | succ n => exact hrest n

theorem Steady.runsOut (hr : Steady data r) :
    ∃ ts e?, r.position + 2 * ts.length ≤ data.length ∧ r.RunsOut ts e? := by
  generalize hleft : data.length - r.position = left
  induction left using Nat.strongRecOn generalizing r with
  | ind left ih =>
    have hposition := hr.reads.position_le
    cases hresult : r.nextItem.result with
    | error e =>
      refine ⟨[], some e, by simpa using hposition, fun n => ?_⟩
      cases n with
      | zero => exact hresult
      | succ n => exact (over_of_error hresult).item n
    | ok a =>
      cases a with
      | none =>
        refine ⟨[], none, by simpa using hposition, fun n => ?_⟩
        cases n with
        | zero => exact hresult
        | succ n => exact (hr.over_of_none hresult).item n
      | some t =>
        have hnext : r.next.result = .ok (some t) := by rwa [nextItem_result] at hresult
        obtain ⟨bytes, hform, -, hmove⟩ := hr.frame_of_next hnext
        have htwo := hform.two_le_length
        have hend := hr.next.reads.position_le
        rw [← nextItem_of_ok hnext] at hmove hend
        obtain ⟨ts, e?, hcount, hrunsOut⟩ := ih _ (by omega) hr.nextItem rfl
        refine ⟨t :: ts, e?, ?_, runsOut_cons hresult hrunsOut⟩
        rw [List.length_cons]
        omega

/-- **Going through any data ends.** Whatever the data behind their header and the name given to the
roots, the calls answer some trees, at most one for every two bytes, then one error at most, and
nothing for ever. Behind any calls of either kind, one that answers a tree moves the reader by
exactly the bytes of its frame. And on any block, the calls on nodes and the loops over children
come to an end, after no more than some steps that lie one within the other, and to what the decoder
of blocks answers; there is no call below a depth of one more than the limit, and each that comes to
a node has taken two bytes of the block. -/
theorem iteration_ends {r : Reader} (h : Command.openReader data root? = .ok r) :
    (∃ ts e?, ts.length ≤ (data.length - header.length) / 2 ∧ r.RunsOut ts e?) ∧
    (∀ cs t, (r.after cs).next.result = .ok (some t) →
      ∃ bytes, FrameForm (r.after cs).dict root? bytes t (r.after cs).next.state.dict ∧
        data.drop (r.after cs).position =
          bytes ++ data.drop (r.after cs).next.state.position ∧
        (r.after cs).next.state.position = (r.after cs).position + bytes.length) ∧
    ∀ (block : Bytes) (offset rawSize steps : Nat) (d : Dictionary),
      2 * (maxDepth + 2) + block.length ≤ steps →
      ∃ events, (Tracing.block ⟨offset, block.length⟩ steps root? rawSize).run.run
            ⟨⟨0, block, d⟩, []⟩ =
          some ((outcome (decodeBlock ⟨offset, block.length⟩ root? rawSize) ⟨0, block, d⟩).1,
            ⟨(outcome (decodeBlock ⟨offset, block.length⟩ root? rawSize) ⟨0, block, d⟩).2,
              events⟩) ∧
        ∀ x ∈ events, x.InOrder block.length := by
  obtain ⟨hsteady, rfl⟩ := steady_opened h
  refine ⟨?_, ?_, ?_⟩
  · obtain ⟨ts, e?, hcount, hrunsOut⟩ := hsteady.runsOut
    have hstart : (opened data root?).position = header.length := rfl
    exact ⟨ts, e?, by omega, hrunsOut⟩
  · intro cs t ht
    obtain ⟨hafter, hname⟩ := hsteady.after cs
    obtain ⟨bytes, hform, hbetween, hmove⟩ := hafter.frame_of_next ht
    rw [hname] at hform
    exact ⟨bytes, hform, hbetween, hmove⟩
  · intro block offset rawSize steps d hsteps
    have hc : Cursor.Within ⟨offset, block.length⟩ ⟨0, block, d⟩ := Nat.zero_add _
    exact Tracing.follows_block hc hsteps []

/-- A frame, and behind it the length of a raw buffer that is cut off. -/
theorem iteration_ends_cut :
    let data := header ++ [0x01, 0x78, 0x04, 0x41, 0x00, 0x61, 0x01, 0x05, 0x78]
    let r := Reader.opened data none
    Command.openReader data none = .ok r ∧
      r.item 0 = .ok (some ⟨⟨"a", 0, 1, []⟩, [0x78]⟩) ∧ r.item 1 = .error (.truncated 15) ∧
      r.item 2 = .ok none ∧ (r.after [.nextItem]).position = 13 ∧
      ∃ ts e?, ts.length ≤ (15 - 6) / 2 ∧ r.RunsOut ts e? := by
  intro data r
  have hopen : Command.openReader data none = .ok r := rfl
  exact ⟨hopen, rfl, rfl, rfl, rfl, (iteration_ends hopen).1⟩

end Reader

end SpanTree
