import SpanTree.Bill.Reader
import SpanTree.Bill.Stream
import SpanTree.Proofs.Decoding
import SpanTree.Proofs.Encoding
import SpanTree.Proofs.Varint

/-!
# Frames

```text
frame = varint(raw length) raw varint(block length) block
```

`FrameForm d root? bytes t d'` derives the tree `t` from the bytes of a frame. A reader answers a
tree exactly if it stands before a frame that is derivable with the names it knows
(`answers_readTree_some`), and comes to nothing exactly at the end of its data and at the number
that ends a stream (`answers_readTree_none`).

Frames that follow one another are `FramesForm`; reading them one after the other is
`Reader.Yields`.
-/

namespace SpanTree

open Bill

/-- The bytes of a frame. The length of the raw buffer is not the number that ends a stream. -/
inductive FrameForm (d : Dictionary) (root? : Option String) : Bytes → Tree → Dictionary → Prop
  | mk {as bs block raw : Bytes} {root : Node} {d' : Dictionary}
      (hraw : Varint.Form 0 as raw.length) (hend : raw.length ≠ terminator)
      (hblock : Varint.Form 0 bs block.length)
      (hform : BlockForm d raw.length root? block root d')
      (hvalid : Tree.isValid ⟨root, raw⟩ = true) :
      FrameForm d root? (as ++ (raw ++ bs ++ block)) ⟨root, raw⟩ d'

/-- Frames that follow one another. -/
inductive FramesForm (root? : Option String) : Dictionary → Bytes → List Tree → Dictionary → Prop
  | nil {d : Dictionary} : FramesForm root? d [] [] d
  | cons {d d' d'' : Dictionary} {bs cs : Bytes} {t : Tree} {ts : List Tree}
      (h : FrameForm d root? bs t d') (hrest : FramesForm root? d' cs ts d'') :
      FramesForm root? d (bs ++ cs) (t :: ts) d''

variable {d d' : Dictionary} {root? : Option String} {bs bytes block : Bytes} {t : Tree}
  {ts : List Tree} {v n : Nat} {r r' r'' : Reader}

theorem FrameForm.length_pos (h : FrameForm d root? bytes t d') : 0 < bytes.length := by
  cases h with
  | mk hraw =>
    have := hraw.length_pos
    simp
    omega

theorem FrameForm.learns (h : FrameForm d root? bytes t d') : d.Learns d' := by
  cases h with
  | mk _ _ _ hform => exact hform.learns

theorem FrameForm.isValid (h : FrameForm d root? bytes t d') : t.isValid = true := by
  cases h with
  | mk _ _ _ _ hvalid => exact hvalid

/-! ## Moving a reader -/

namespace Reader

/-- The position and the bytes from there on make up the data. -/
def Consistent (r : Reader) : Prop := r.position + r.rest.length = r.size

/-- Between the two readers lie the bytes `bs`. They may differ in the names that they know. -/
structure Passes (r : Reader) (bs : Bytes) (r' : Reader) : Prop where
  rest_eq : r.rest = bs ++ r'.rest
  position_eq : r'.position = r.position + bs.length
  size_eq : r'.size = r.size
  rootName_eq : r'.rootName = r.rootName
  isFinished_eq : r'.isFinished = r.isFinished

theorem Passes.refl (r : Reader) : r.Passes [] r := ⟨rfl, rfl, rfl, rfl, rfl⟩

theorem passes_skip {cs : Bytes} (h : r.rest = bs ++ cs) : r.Passes bs (r.skip bs.length) :=
  ⟨by simp [skip, h], rfl, rfl, rfl, rfl⟩

theorem rest_skip {cs : Bytes} (h : r.rest = bs ++ cs) : (r.skip bs.length).rest = cs := by
  simp [skip, h]

theorem passes_learn {cs : Bytes} (h : r.rest = bs ++ cs) (d : Dictionary) :
    r.Passes bs { r.skip bs.length with dict := d } :=
  ⟨by rw [h, rest_skip h], rfl, rfl, rfl, rfl⟩

theorem Passes.trans {cs : Bytes} (h : r.Passes bs r') (h' : r'.Passes cs r'') :
    r.Passes (bs ++ cs) r'' := by
  refine ⟨?_, ?_, h'.size_eq.trans h.size_eq, h'.rootName_eq.trans h.rootName_eq,
    h'.isFinished_eq.trans h.isFinished_eq⟩
  · rw [h.rest_eq, h'.rest_eq, List.append_assoc]
  · rw [h'.position_eq, h.position_eq, List.length_append, Nat.add_assoc]

/-- What is passed first, if both are passed from the same place. -/
theorem Passes.rest {cs : Bytes} (h : r.Passes bs r') (h' : r.Passes (bs ++ cs) r'') :
    r'.Passes cs r'' := by
  refine ⟨?_, ?_, h'.size_eq.trans h.size_eq.symm, h'.rootName_eq.trans h.rootName_eq.symm,
    h'.isFinished_eq.trans h.isFinished_eq.symm⟩
  · have heq := h.rest_eq.symm.trans h'.rest_eq
    rwa [List.append_assoc, List.append_cancel_left_eq] at heq
  · rw [h'.position_eq, h.position_eq, List.length_append, Nat.add_assoc]

theorem Passes.consistent (h : r.Passes bs r') (hr : r.Consistent) : r'.Consistent := by
  have := congrArg List.length h.rest_eq
  have := h.position_eq
  have := h.size_eq
  simp only [Consistent, List.length_append] at *
  omega

theorem Passes.eq_of_nil (h : r.Passes [] r') : r' = { r with dict := r'.dict } := by
  obtain ⟨size, position, rest, dict, rootName, isFinished⟩ := r
  obtain ⟨size', position', rest', dict', rootName', isFinished'⟩ := r'
  obtain ⟨hrest, hposition, hsize, hname, hfinished⟩ := h
  simp at hrest hposition hsize hname hfinished
  subst hrest hposition hsize hname hfinished
  rfl

theorem Passes.unique (h : r.Passes bs r') (h' : r.Passes bs r'') (hdict : r'.dict = r''.dict) :
    r' = r'' := by
  rw [← List.append_nil bs] at h'
  rw [(h.rest h').eq_of_nil, ← hdict]

/-- A place in between, and any names there. -/
theorem Passes.split {cs : Bytes} (h : r.Passes (bs ++ cs) r'') (d : Dictionary) :
    ∃ r', r.Passes bs r' ∧ r'.dict = d ∧ r'.Passes cs r'' := by
  have hrest : r.rest = bs ++ (cs ++ r''.rest) := by rw [h.rest_eq, List.append_assoc]
  have hpass : r.Passes bs
      { r with position := r.position + bs.length, rest := cs ++ r''.rest, dict := d } :=
    ⟨hrest, rfl, rfl, rfl, rfl⟩
  exact ⟨_, hpass, rfl, hpass.rest h⟩

/-! ## The parts of a frame -/

theorem answers_readLength :
    Answers readLength r v r' ↔ ∃ bs, Varint.Form 0 bs v ∧ r.Passes bs r' ∧ r'.dict = r.dict := by
  rw [readLength, answers_get_bind, answers_bind]
  simp only [answers_liftExcept]
  constructor
  · rintro ⟨_, _, ⟨hdecode, rfl⟩, h⟩
    split at h
    · simp at h
    · next used =>
      rw [answers_set_bind] at h
      obtain ⟨rfl, rfl⟩ := answers_pure.1 h
      obtain ⟨bs, rest, hbs, rfl, hform⟩ := Varint.form_of_decode hdecode
      exact ⟨bs, hform, passes_skip hbs, rfl⟩
  · rintro ⟨bs, hform, hpass, hdict⟩
    have hrest := hpass.rest_eq
    refine ⟨_, _, ⟨by rw [hrest]; exact Varint.decode_of_form hform _, rfl⟩, ?_⟩
    simp only [answers_set_bind, answers_pure, true_and]
    exact (passes_skip hrest).unique hpass hdict.symm

theorem answers_take (hr : r.Consistent) :
    Answers (take n) r bs r' ↔ bs.length = n ∧ r.Passes bs r' ∧ r'.dict = r.dict := by
  rw [take, answers_get_bind]
  unfold Consistent at hr
  constructor
  · intro h
    split at h
    · simp at h
    · next hfit =>
      rw [answers_set_bind] at h
      obtain ⟨rfl, rfl⟩ := answers_pure.1 h
      have hlen : (r.rest.take n).length = n := by simp; omega
      exact ⟨hlen, ⟨by simp [skip], by simp [skip, hlen], rfl, rfl, rfl⟩, rfl⟩
  · rintro ⟨rfl, hpass, hdict⟩
    have hrest := hpass.rest_eq
    have hlen := congrArg List.length hrest
    rw [List.length_append] at hlen
    rw [if_neg (by omega), answers_set_bind, answers_pure, hrest, List.take_left]
    exact ⟨rfl, (passes_skip hrest).unique hpass hdict.symm⟩

theorem answers_decoding {m : Decoding Node} {root : Node} :
    Answers (decoding block m) r root r' ↔
      ∃ c, Answers m ⟨0, block, r.dict⟩ root c ∧ { r with dict := c.dict } = r' := by
  rw [decoding, answers_get_bind]
  have hrun : m.run.run ⟨0, block, r.dict⟩ = outcome m ⟨0, block, r.dict⟩ := rfl
  unfold Answers at *
  rw [hrun]
  cases outcome m ⟨0, block, r.dict⟩ with
  | mk result c =>
    show Answers (set _ >>= fun _ => liftExcept result) r root r' ↔ _
    simp [and_assoc]

variable {rawLength : Nat}

theorem answers_readFrame (hr : r.Consistent) :
    Answers (readFrame rawLength) r t r' ↔
      ∃ bs block, t.raw.length = rawLength ∧ Varint.Form 0 bs block.length ∧
        BlockForm r.dict rawLength r.rootName block t.root r'.dict ∧ t.isValid = true ∧
        r.Passes (t.raw ++ bs ++ block) r' := by
  rw [readFrame]
  constructor
  · intro h
    obtain ⟨raw, r₁, hraw, h⟩ := answers_bind.1 h
    obtain ⟨blockLength, r₂, hlength, h⟩ := answers_bind.1 h
    rw [answers_get_bind] at h
    obtain ⟨block, r₃, hblock, h⟩ := answers_bind.1 h
    obtain ⟨root, r₄, hroot, h⟩ := answers_bind.1 h
    obtain ⟨hlen, hpass₁, hdict₁⟩ := (answers_take hr).1 hraw
    obtain ⟨bs, hform, hpass₂, hdict₂⟩ := answers_readLength.1 hlength
    obtain ⟨rfl, hpass₃, hdict₃⟩ :=
      (answers_take (hpass₂.consistent (hpass₁.consistent hr))).1 hblock
    obtain ⟨c, hdecode, rfl⟩ := answers_decoding.1 hroot
    have hdict : r₃.dict = r.dict := by rw [hdict₃, hdict₂, hdict₁]
    have hname : r₂.rootName = r.rootName := hpass₂.rootName_eq.trans hpass₁.rootName_eq
    rw [hdict, hname] at hdecode
    have hblockForm := form_of_decodeBlock hdecode rfl
    have hpass := (hpass₁.trans hpass₂).trans hpass₃
    simp only at h
    split at h
    · next hvalid =>
      obtain ⟨rfl, rfl⟩ := answers_pure.1 h
      exact ⟨bs, block, hlen, hform, hblockForm, hvalid,
        hpass.rest_eq, hpass.position_eq, hpass.size_eq, hpass.rootName_eq, hpass.isFinished_eq⟩
    · simp at h
  · rintro ⟨bs, block, rfl, hform, hblockForm, hvalid, hpass⟩
    rw [← List.append_nil (_ ++ _ ++ block)] at hpass
    obtain ⟨r₃, hpass', hdict₃, hend⟩ := hpass.split r.dict
    obtain ⟨r₂, hpass', hdict₂, hpass₃⟩ := hpass'.split r.dict
    obtain ⟨r₁, hpass₁, hdict₁, hpass₂⟩ := hpass'.split r.dict
    have hr₂ := hpass'.consistent hr
    have hdecode := decodeBlock_of_form (e := ⟨r₂.position, block.length⟩) hblockForm rfl
    rw [← hdict₃, ← hpass'.rootName_eq] at hdecode
    have hroot := answers_decoding.2 ⟨_, hdecode, rfl⟩
    simp only at hroot
    rw [← hend.eq_of_nil] at hroot
    refine .bind ((answers_take hr).2 ⟨rfl, hpass₁, hdict₁⟩)
      (.bind (answers_readLength.2 ⟨bs, hform, hpass₂, hdict₂.trans hdict₁.symm⟩) ?_)
    rw [answers_get_bind]
    refine .bind ((answers_take hr₂).2 ⟨rfl, hpass₃, hdict₃.trans hdict₂.symm⟩)
      (.bind hroot ?_)
    simp only [hvalid, if_true]
    exact answers_pure.2 ⟨rfl, rfl⟩

/-! ## Reading on -/

theorem atEnd_iff (hr : r.Consistent) : (r.position == r.size) = true ↔ r.rest = [] := by
  unfold Consistent at hr
  rw [beq_iff_eq, ← List.length_eq_zero_iff]
  omega

theorem not_over (hr : r.Consistent) (hfinished : r.isFinished = false) (hrest : r.rest ≠ []) :
    ¬ (r.isFinished || r.position == r.size) = true := by
  rwa [hfinished, Bool.false_or, atEnd_iff hr]

/-- In front of some bytes a reader is not at its end. -/
theorem Passes.not_over (h : r.Passes bs r') (hr : r.Consistent) (hfinished : r.isFinished = false)
    (hbs : 0 < bs.length) : ¬ (r.isFinished || r.position == r.size) = true := by
  refine Reader.not_over hr hfinished ?_
  rw [h.rest_eq]
  exact List.append_ne_nil_of_left_ne_nil (List.length_pos_iff.1 hbs) _

/-- **A tree is answered exactly in front of a frame that is derivable.** -/
theorem answers_readTree_some (hr : r.Consistent) :
    Answers readTree r (some t) r' ↔
      r.isFinished = false ∧ ∃ bytes, FrameForm r.dict r.rootName bytes t r'.dict ∧
        r.Passes bytes r' := by
  rw [readTree, answers_get_bind]
  constructor
  · intro h
    split at h
    · simp at h
    · next hmore =>
      simp only [Bool.or_eq_true, not_or, Bool.not_eq_true] at hmore
      obtain ⟨rawLength, r₁, hlength, h⟩ := answers_bind.1 h
      obtain ⟨as, hraw, hpass₁, hdict₁⟩ := answers_readLength.1 hlength
      split at h
      · rw [answers_modify_bind] at h
        simp at h
      · next hend =>
        obtain ⟨found, r₂, hframe, h⟩ := answers_bind.1 h
        obtain ⟨heq, rfl⟩ := answers_pure.1 h
        cases heq
        obtain ⟨bs, block, rfl, hblock, hform, hvalid, hpass₂⟩ :=
          (answers_readFrame (hpass₁.consistent hr)).1 hframe
        rw [hdict₁, hpass₁.rootName_eq] at hform
        exact ⟨hmore.1, _, .mk hraw hend hblock hform hvalid, hpass₁.trans hpass₂⟩
  · rintro ⟨hfinished, bytes, hform, hpass⟩
    have hmore := hpass.not_over hr hfinished hform.length_pos
    cases hform with
    | mk hraw hend hblock hform hvalid =>
      obtain ⟨r₁, hpass₁, hdict₁, hpass₂⟩ := hpass.split r.dict
      rw [← hdict₁, ← hpass₁.rootName_eq] at hform
      rw [if_neg hmore]
      refine .bind (answers_readLength.2 ⟨_, hraw, hpass₁, hdict₁⟩) ?_
      rw [if_neg hend]
      exact .bind ((answers_readFrame (hpass₁.consistent hr)).2
        ⟨_, _, rfl, hblock, hform, hvalid, hpass₂⟩) (answers_pure.2 ⟨rfl, rfl⟩)

/-- How a reader comes to nothing. -/
inductive EndRun (r : Reader) : Reader → Prop
  | atEnd (h : r.isFinished = true ∨ r.rest = []) : EndRun r r
  | terminator {bs : Bytes} {r' : Reader} (hfinished : r.isFinished = false)
      (hform : Varint.Form 0 bs terminator) (hpass : r.Passes bs r') (hdict : r'.dict = r.dict) :
      EndRun r { r' with isFinished := true }

/-- **A reader comes to nothing exactly at its end.** -/
theorem answers_readTree_none (hr : r.Consistent) :
    Answers readTree r none r' ↔ EndRun r r' := by
  rw [readTree, answers_get_bind]
  constructor
  · intro h
    split at h
    · next hover =>
      obtain ⟨-, rfl⟩ := answers_pure.1 h
      rw [Bool.or_eq_true, atEnd_iff hr] at hover
      exact .atEnd hover
    · next hmore =>
      simp only [Bool.or_eq_true, not_or, Bool.not_eq_true] at hmore
      obtain ⟨rawLength, r₁, hlength, h⟩ := answers_bind.1 h
      obtain ⟨as, hraw, hpass, hdict⟩ := answers_readLength.1 hlength
      split at h
      · next hend =>
        rw [answers_modify_bind] at h
        obtain ⟨-, rfl⟩ := answers_pure.1 h
        exact .terminator hmore.1 (hend ▸ hraw) hpass hdict
      · obtain ⟨found, r₂, -, h⟩ := answers_bind.1 h
        simp at h
  · intro h
    cases h with
    | atEnd h =>
      rw [if_pos (by rwa [Bool.or_eq_true, atEnd_iff hr])]
      exact answers_pure.2 ⟨rfl, rfl⟩
    | terminator hfinished hform hpass hdict =>
      rw [if_neg (hpass.not_over hr hfinished hform.length_pos)]
      refine .bind (answers_readLength.2 ⟨_, hform, hpass, hdict⟩) ?_
      rw [if_pos rfl, answers_modify_bind]
      exact answers_pure.2 ⟨rfl, rfl⟩

theorem outcome_readTree (r : Reader) : outcome readTree r = (r.next.result, r.next.state) := rfl

theorem next_eq {a : Option Tree} :
    r.next.result = .ok a ∧ r.next.state = r' ↔ Answers readTree r a r' := by
  rw [Answers, outcome_readTree, Prod.mk.injEq]

theorem next_of_fails {e : Error} (h : Fails readTree r e r') :
    r.next.result = .error e ∧ r.next.state = r' := by
  rwa [Fails, outcome_readTree, Prod.mk.injEq] at h

variable {rest : Bytes}

/-- In front of a frame. -/
theorem next_of_form (hr : r.Consistent) (hfinished : r.isFinished = false)
    (h : FrameForm r.dict r.rootName bs t d') (hrest : r.rest = bs ++ rest) :
    r.next.result = .ok (some t) ∧ r.next.state = { r.skip bs.length with dict := d' } :=
  next_eq.2 ((answers_readTree_some hr).2 ⟨hfinished, bs, h, passes_learn hrest d'⟩)

/-- At the end of the data. -/
theorem next_of_nil (hr : r.Consistent) (hrest : r.rest = []) :
    r.next.result = .ok none ∧ r.next.state = r :=
  next_eq.2 ((answers_readTree_none hr).2 (.atEnd (.inr hrest)))

/-- In front of the number that ends a stream, whatever comes behind it. -/
theorem next_of_terminator (hr : r.Consistent) (hfinished : r.isFinished = false)
    (h : Varint.Form 0 bs terminator) (hrest : r.rest = bs ++ rest) :
    r.next.result = .ok none ∧ r.next.state = { r.skip bs.length with isFinished := true } :=
  next_eq.2 ((answers_readTree_none hr).2 (.terminator hfinished h (passes_skip hrest) rfl))

/-- Reading on gives these trees and leaves the reader behind. -/
inductive Yields : Reader → List Tree → Reader → Prop
  | nil {r : Reader} : Yields r [] r
  | cons {r r' : Reader} {t : Tree} {ts : List Tree} (h : r.next.result = .ok (some t))
      (hrest : Yields r.next.state ts r') : Yields r (t :: ts) r'

/-- Reading on follows the frames. -/
theorem yields_iff (hr : r.Consistent) (hfinished : r.isFinished = false) :
    r.Yields ts r' ↔
      ∃ bytes, FramesForm r.rootName r.dict bytes ts r'.dict ∧ r.Passes bytes r' := by
  constructor
  · intro h
    induction h with
    | nil => exact ⟨[], .nil, .refl _⟩
    | cons h _ ih =>
      obtain ⟨-, bs, hform, hpass⟩ := (answers_readTree_some hr).1 (next_eq.1 ⟨h, rfl⟩)
      obtain ⟨cs, hforms, hpass'⟩ := ih (hpass.consistent hr) (hpass.isFinished_eq.trans hfinished)
      rw [hpass.rootName_eq] at hforms
      exact ⟨bs ++ cs, .cons hform hforms, hpass.trans hpass'⟩
  · rintro ⟨bytes, hforms, hpass⟩
    generalize hname : r.rootName = root? at hforms
    generalize hd : r.dict = d at hforms
    generalize hd' : r'.dict = d' at hforms
    induction hforms generalizing r with
    | nil =>
      have heq := hpass.eq_of_nil
      rw [hd', ← hd] at heq
      rw [heq]
      exact .nil
    | @cons _ d₁ _ bs _ t ts hform _ ih =>
      obtain ⟨r₁, hpass₁, hdict₁, hpass₂⟩ := hpass.split d₁
      rw [← hd, ← hname, ← hdict₁] at hform
      obtain ⟨hresult, hstate⟩ := next_eq.2
        ((answers_readTree_some hr).2 ⟨hfinished, bs, hform, hpass₁⟩)
      subst hstate
      exact .cons hresult (ih (hpass₁.consistent hr) (hpass₁.isFinished_eq.trans hfinished) hpass₂
        (hpass₁.rootName_eq.trans hname) hdict₁ hd')

end Reader

end SpanTree
