import SpanTree.Proofs.Safety

/-!
# When a reader is finished

A reader is asked for trees by calls of two kinds, in any order: the one answers an error and lets
reading go on, the other ends the reading at its first error.

The number that ends a stream is taken by a call if it stands where the reader stands and the call
moves the reader behind it (`Call.TakesTerminator`). Nothing but such a call finishes a reader whose
calls are of the first kind. **A call of the second kind that comes to an error finishes it too**,
whatever the data are (`isFinished_iff`), so a finished reader need not have seen the end of its
stream (`finished_without_terminator`).

The proof follows the two ways in which reading fails: it does not touch the mark of the end
(`KeepsMark`), and then the call of the second kind sets it.
-/

namespace SpanTree

open Bill

namespace Reader

/-! ## Calls -/

inductive Call
  | next
  | nextItem
deriving DecidableEq, Repr

def Call.on (r : Reader) : Call → Outcome Reader (Option Tree)
  | next => r.next
  | nextItem => r.nextItem

/-- The reader behind a sequence of calls. -/
def after (r : Reader) (cs : List Call) : Reader := cs.foldl (fun r c => (c.on r).state) r

/-- Each call of a sequence, with the reader on which it is made. -/
def calls (r : Reader) : List Call → List (Reader × Call)
  | [] => []
  | c :: cs => (r, c) :: calls (c.on r).state cs

/-- The number that ends a stream stands before the reader, and the call takes it. -/
def Call.TakesTerminator (data : Bytes) (r : Reader) (c : Call) : Prop :=
  ∃ used, Varint.decode (data.drop r.position) = .ok (some (terminator, used)) ∧
    (c.on r).state.position = r.position + used

/-- The call ends the reading, for an error. -/
def Call.Breaks (r : Reader) (c : Call) : Prop :=
  c = nextItem ∧ ∃ e, (c.on r).result = .error e

variable {α β : Type} {data : Bytes} {r : Reader} {root? : Option String} {c : Call}
  {cs : List Call} {e : Error}

/-! ## Failing leaves no mark -/

/-- However it ends, the computation leaves the mark of the end as it was. -/
def KeepsMark (m : Reading α) : Prop :=
  ∀ r, Ensures m r (fun _ r' => r'.isFinished = r.isFinished) fun _ r' =>
    r'.isFinished = r.isFinished

theorem keepsMark_pure (a : α) : KeepsMark (pure a) := fun _ => rfl

theorem keepsMark_throw (e : Error) : KeepsMark (throw e : Reading α) := fun _ => rfl

theorem keepsMark_get : KeepsMark (get : Reading Reader) := fun _ => rfl

theorem KeepsMark.bind {m : Reading α} {f : α → Reading β} (hm : KeepsMark m)
    (hf : ∀ a, KeepsMark (f a)) : KeepsMark (m >>= f) := by
  intro r
  rw [ensures_bind]
  refine (hm r).mono (fun a r' hr' => ?_) fun _ _ h => h
  have hrest := hf a r'
  rwa [hr'] at hrest

/-- What is read may be used to move the reader. -/
theorem keepsMark_get_bind {f : Reader → Reading α}
    (hf : ∀ r, Ensures (f r) r (fun _ r' => r'.isFinished = r.isFinished) fun _ r' =>
      r'.isFinished = r.isFinished) : KeepsMark (get >>= f) := fun r => hf r

theorem keepsMark_readLength : KeepsMark readLength := by
  refine keepsMark_get_bind fun r => ?_
  rw [ensures_bind, ensures_liftExcept]
  refine ⟨fun found _ => ?_, fun _ _ => rfl⟩
  rcases found with _ | ⟨v, used⟩ <;> rfl

theorem keepsMark_take (n : Nat) : KeepsMark (take n) := by
  refine keepsMark_get_bind fun r => ?_
  split <;> rfl

theorem keepsMark_decoding (block : Bytes) (d : Decoding Node) : KeepsMark (decoding block d) := by
  refine keepsMark_get_bind fun r => ?_
  rcases d.run.run ⟨0, block, r.dict⟩ with ⟨_ | _, c⟩ <;> rfl

theorem keepsMark_readFrame (rawLength : Nat) : KeepsMark (readFrame rawLength) := by
  refine (keepsMark_take rawLength).bind fun raw => ?_
  refine keepsMark_readLength.bind fun blockLength => keepsMark_get.bind fun r => ?_
  refine (keepsMark_take blockLength).bind fun block => ?_
  refine (keepsMark_decoding block _).bind fun root => ?_
  simp only
  split
  · exact keepsMark_pure _
  · exact keepsMark_throw _

/-- Reading that fails leaves the mark as it was. -/
theorem isFinished_of_error (h : r.next.result = .error e) :
    r.next.state.isFinished = r.isFinished := by
  have hread : Ensures readTree r (fun _ _ => True) fun _ r' => r'.isFinished = r.isFinished := by
    rw [readTree, ensures_bind, ensures_get]
    split
    · trivial
    · rw [ensures_bind]
      refine (keepsMark_readLength r).mono (fun rawLength r₁ hr₁ => ?_) fun _ _ h => h
      split
      · rw [ensures_bind]
        trivial
      · rw [ensures_bind]
        refine (keepsMark_readFrame rawLength r₁).mono (fun _ _ _ => trivial) fun _ r₂ hr₂ => ?_
        rw [hr₂, hr₁]
  have hfails : Fails readTree r e r.next.state := by rw [Fails, outcome_readTree, h]
  exact hread.of_fails hfails

/-! ## One call -/

/-- The terminator is not taken by a call that leaves the reader where it is. -/
theorem not_takes_of_position (h : (c.on r).state.position = r.position) :
    ¬ c.TakesTerminator data r := by
  rintro ⟨used, hdecode, hposition⟩
  obtain ⟨bs, rest, -, rfl, hform⟩ := Varint.form_of_decode hdecode
  have hpos := hform.length_pos
  omega

theorem Steady.isFinished_next (hr : Steady data r) : r.next.state.isFinished = true ↔
    r.isFinished = true ∨ Call.next.TakesTerminator data r := by
  have hconsistent := hr.reads.consistent
  have hrest := hr.reads.rest_eq
  cases hresult : r.next.result with
  | error e =>
    rw [isFinished_of_error hresult]
    refine ⟨.inl, fun h => h.resolve_right ?_⟩
    -- in front of a terminator a reader comes to nothing, and not to an error
    rintro ⟨used, hdecode, -⟩
    rw [← hrest] at hdecode
    obtain ⟨bs, rest, hbs, -, hform⟩ := Varint.form_of_decode hdecode
    by_cases hfinished : r.isFinished = true
    · have hnone := (answers_readTree_none hconsistent).2 (.atEnd (.inl hfinished))
      rw [(next_eq.2 hnone).1] at hresult
      cases hresult
    · have hnone := next_of_terminator hconsistent (by simpa using hfinished) hform hbs
      rw [hnone.1] at hresult
      cases hresult
  | ok a =>
    have hanswers := next_eq.1 ⟨hresult, rfl⟩
    cases a with
    | some t =>
      obtain ⟨hfinished, bytes, hform, hpass⟩ := (answers_readTree_some hconsistent).1 hanswers
      rw [hpass.isFinished_eq]
      refine ⟨.inl, fun h => h.resolve_right ?_⟩
      -- a frame begins with the length of its raw buffer, which is another number
      rintro ⟨used, hdecode, -⟩
      rw [← hrest, hpass.rest_eq] at hdecode
      cases hform with
      | mk hraw hend =>
        rw [List.append_assoc, Varint.decode_of_form hraw] at hdecode
        simp only [Except.ok.injEq, Option.some.injEq, Prod.mk.injEq] at hdecode
        exact hend hdecode.1
    | none =>
      generalize hstate : r.next.state = r' at hanswers
      cases (answers_readTree_none hconsistent).1 hanswers with
      | atEnd h =>
        refine ⟨.inl, fun h => h.resolve_right (not_takes_of_position ?_)⟩
        exact congrArg Reader.position hstate
      | @terminator bs r₁ hfinished hform hpass hdict =>
        refine iff_of_true rfl (.inr ⟨bs.length, ?_, ?_⟩)
        · rw [← hrest, hpass.rest_eq]
          exact Varint.decode_of_form hform _
        · exact (congrArg Reader.position hstate).trans hpass.position_eq

theorem position_nextItem (r : Reader) : r.nextItem.state.position = r.next.state.position := by
  rcases nextItem_state r with h | h <;> rw [h]

/-- One call, of either kind. -/
theorem Steady.isFinished_on (hr : Steady data r) (c : Call) : (c.on r).state.isFinished = true ↔
    r.isFinished = true ∨ c.TakesTerminator data r ∨ c.Breaks r := by
  have hnext := hr.isFinished_next
  cases c with
  | next => simpa [Call.on, Call.Breaks] using hnext
  | nextItem =>
    have htakes : Call.nextItem.TakesTerminator data r ↔ Call.next.TakesTerminator data r := by
      simp only [Call.TakesTerminator, Call.on, position_nextItem]
    rw [htakes, ← or_assoc, ← hnext]
    simp only [Call.on, Call.Breaks, Reader.nextItem]
    cases hresult : r.next.result <;> simp [hresult]

/-! ## A sequence of calls -/

theorem Steady.on (hr : Steady data r) (c : Call) : Steady data (c.on r).state := by
  cases c with
  | next => exact hr.next
  | nextItem => exact hr.nextItem

theorem Steady.isFinished_after (hr : Steady data r) (cs : List Call) :
    (r.after cs).isFinished = true ↔ r.isFinished = true ∨
      ∃ x ∈ r.calls cs, x.2.TakesTerminator data x.1 ∨ x.2.Breaks x.1 := by
  induction cs generalizing r with
  | nil => simp [after, calls]
  | cons c cs ih =>
    have hafter : r.after (c :: cs) = (c.on r).state.after cs := rfl
    rw [hafter, ih (hr.on c), hr.isFinished_on, calls, or_assoc]
    simp only [List.mem_cons, or_and_right, exists_or, exists_eq_left]

/-- **A reader is finished exactly if a call took the terminator or broke off.** Whatever the data
and the name given to the roots, and whatever calls are made in whatever order: the reader is
finished behind them exactly if one of them took the number that ends the stream, or one that ends
the reading at an error came to an error. -/
theorem isFinished_iff (h : Command.openReader data root? = .ok r) (cs : List Call) :
    (r.after cs).isFinished = true ↔
      (∃ x ∈ r.calls cs, x.2.TakesTerminator data x.1) ∨ ∃ x ∈ r.calls cs, x.2.Breaks x.1 := by
  obtain ⟨hsteady, rfl⟩ := steady_opened h
  have hopened : (opened data root?).isFinished = false := rfl
  rw [hsteady.isFinished_after, hopened]
  simp only [Bool.false_eq_true, false_or, and_or_left, exists_or]

/-- A frame of five bytes that has one. The first call leaves the reader unfinished, and the second,
which ends the reading, finishes it. -/
theorem isFinished_iff_cut :
    let data := header ++ [0x05, 0x78]
    let r := Reader.opened data none
    Command.openReader data none = .ok r ∧
      (r.after [.next]).isFinished = false ∧ (r.after [.next, .nextItem]).isFinished = true ∧
      ((∃ x ∈ r.calls [.next, .nextItem], x.2.TakesTerminator data x.1) ∨
        ∃ x ∈ r.calls [.next, .nextItem], x.2.Breaks x.1) := by
  intro data r
  have hopen : Command.openReader data none = .ok r := rfl
  exact ⟨hopen, rfl, rfl, (isFinished_iff hopen [.next, .nextItem]).1 rfl⟩

/-- A finished reader need not have taken the terminator. -/
theorem finished_without_terminator :
    ¬ ∀ (data : Bytes) (root? : Option String) (r : Reader) (cs : List Call),
      Command.openReader data root? = .ok r →
        ((r.after cs).isFinished = true ↔ ∃ x ∈ r.calls cs, x.2.TakesTerminator data x.1) := by
  intro h
  obtain ⟨x, hx, used, hdecode, -⟩ :=
    (h (header ++ [0x05, 0x78]) none (opened (header ++ [0x05, 0x78]) none) [.nextItem] rfl).1 rfl
  obtain rfl := List.mem_singleton.1 hx
  have hfive : Varint.decode ((header ++ [0x05, 0x78]).drop 6) = .ok (some (5, 1)) := rfl
  rw [show (opened (header ++ [0x05, 0x78]) none).position = 6 from rfl, hfive] at hdecode
  simp only [Except.ok.injEq, Option.some.injEq, Prod.mk.injEq] at hdecode
  exact absurd hdecode.1 (by decide)

end Reader

end SpanTree
