import SpanTree.Proofs.Agreement

/-!
# Streams that are cut off, and streams that go on

A stream may be cut off anywhere: within its header, within a number, within the raw buffer or the
block of a frame, within its terminator. **Where it is cut, reading gives the trees whose frames are
still there**, and then says whether it stands at the end of a frame or that the stream is truncated
(`Session.cut_or_extended`). In particular no cut makes a frame into a shorter one. What comes
behind the terminator is not read.

A frame that is cut off is refused before its block is decoded (`Reader.next_of_cut`).
-/

namespace SpanTree

open Bill
open SpanTree.Stream (Action)

variable {as bs p q : Bytes}

/-- Of bytes that are cut, the first part is cut itself or comes before the cut. -/
theorem cut_cases (h : as ++ bs = p ++ q) :
    (∃ c, c ≠ [] ∧ as = p ++ c ∧ q = c ++ bs) ∨ ∃ a, p = as ++ a ∧ bs = a ++ q := by
  rcases List.append_eq_append_iff.1 h with ⟨a, hp, hbs⟩ | ⟨c, has, hq⟩
  · exact .inr ⟨a, hp, hbs⟩
  · by_cases hc : c = []
    · subst hc
      exact .inr ⟨[], by simpa using has.symm, by simpa using hq.symm⟩
    · exact .inl ⟨c, hc, has, hq⟩

theorem length_lt_of_cut (h : as = p ++ q) (hq : q ≠ []) : p.length < as.length := by
  have := List.length_pos_iff.2 hq
  rw [h, List.length_append]
  omega

/-! ## Cut frames -/

namespace Reader

variable {r : Reader} {raw block bytes : Bytes} {n v : Nat} {d d' : Dictionary}
  {root? : Option String} {t : Tree}

theorem fails_readLength (h : Varint.decode r.rest = .ok none) :
    Fails readLength r (.truncated r.size) r := by
  rw [readLength, fails_get_bind]
  refine (answers_liftExcept.2 ⟨h, rfl⟩).bind_fails ?_
  exact fails_throw.2 ⟨rfl, rfl⟩

theorem fails_take (hr : r.Consistent) (h : r.rest.length < n) :
    Fails (take n) r (.truncated r.size) r := by
  unfold Consistent at hr
  rw [take, fails_get_bind, if_pos (by omega)]
  exact fails_throw.2 ⟨rfl, rfl⟩

theorem Consistent.skip (hr : r.Consistent) (h : r.rest = bs ++ p) :
    (r.skip bs.length).Consistent :=
  (passes_skip h).consistent hr

/-- A frame that is cut off behind its first number. -/
theorem readFrame_of_cut (hr : r.Consistent) (hform : Varint.Form 0 bs block.length)
    (hcut : raw ++ (bs ++ block) = r.rest ++ q) (hq : q ≠ []) :
    ∃ r', Fails (readFrame raw.length) r (.truncated r.size) r' := by
  rw [readFrame]
  rcases cut_cases hcut with ⟨c, hc, hraw, -⟩ | ⟨p₁, hrest, hcut⟩
  · exact ⟨r, (fails_take hr (length_lt_of_cut hraw hc)).bind⟩
  · have hraw : Answers (take raw.length) r raw (r.skip raw.length) :=
      (answers_take hr).2 ⟨rfl, passes_skip hrest, rfl⟩
    have hr₁ := hr.skip hrest
    have hrest₁ := rest_skip hrest
    rcases cut_cases hcut with ⟨c, hc, hbs, -⟩ | ⟨p₂, hp₁, hblock⟩
    · rw [hbs, ← hrest₁] at hform
      exact ⟨_, hraw.bind_fails (fails_readLength (Varint.decode_of_cut hform hc)).bind⟩
    · rw [hp₁] at hrest₁
      rw [← rest_skip hrest₁] at hblock
      have hlength : Answers readLength (r.skip raw.length) block.length
          ((r.skip raw.length).skip bs.length) :=
        answers_readLength.2 ⟨bs, hform, passes_skip hrest₁, rfl⟩
      refine ⟨(r.skip raw.length).skip bs.length, hraw.bind_fails (hlength.bind_fails ?_)⟩
      rw [fails_get_bind]
      exact (fails_take (hr₁.skip hrest₁) (length_lt_of_cut hblock hq)).bind

theorem next_of_readLength_fails (hr : r.Consistent) (hfinished : r.isFinished = false)
    (hrest : r.rest ≠ []) (h : Varint.decode r.rest = .ok none) :
    r.next.result = .error (.truncated r.size) := by
  have htree : Fails readTree r (.truncated r.size) r := by
    rw [readTree, fails_get_bind, if_neg (not_over hr hfinished hrest)]
    exact (fails_readLength h).bind
  exact (next_of_fails htree).1

/-- **In front of a frame that is cut off a reader says that the stream is truncated.** -/
theorem next_of_cut (hr : r.Consistent) (hfinished : r.isFinished = false) (hrest : r.rest ≠ [])
    (hform : FrameForm d root? bytes t d') (hcut : bytes = r.rest ++ q) (hq : q ≠ []) :
    r.next.result = .error (.truncated r.size) := by
  cases hform with
  | @mk as bs block raw root _ hraw hend hblock _ _ =>
    rw [List.append_assoc] at hcut
    rcases cut_cases hcut with ⟨c, hc, has, -⟩ | ⟨p₁, hrest₁, hcut⟩
    · rw [has] at hraw
      exact next_of_readLength_fails hr hfinished hrest (Varint.decode_of_cut hraw hc)
    · have hlength : Answers readLength r raw.length (r.skip as.length) :=
        answers_readLength.2 ⟨as, hraw, passes_skip hrest₁, rfl⟩
      have hcut' : raw ++ (bs ++ block) = (r.skip as.length).rest ++ q := by
        rw [rest_skip hrest₁]
        exact hcut
      obtain ⟨r', hframe⟩ := readFrame_of_cut (hr.skip hrest₁) hblock hcut' hq
      have htree : Fails readTree r (.truncated r.size) r' := by
        rw [readTree, fails_get_bind, if_neg (not_over hr hfinished hrest)]
        refine hlength.bind_fails ?_
        rw [if_neg hend]
        exact hframe.bind
      exact (next_of_fails htree).1

/-- How reading ends in data that are cut off at `n`: `whole` says that nothing is missing, and
frames end at the offsets `ends`. -/
structure Ends (r : Reader) (n : Nat) (whole : Prop) (ends : List Nat) : Prop where
  finished : whole → r.next.result = .ok none ∧ r.next.state.isFinished = true
  between : ¬ whole → n ∈ ends → r.next.result = .ok none ∧ r.next.state.isFinished = false
  within : ¬ whole → n ∉ ends → r.next.result = .error (.truncated n)

/-- A reader that stands at the last frame end that is left. -/
theorem ends_of_last {ends : List Nat} (hr : r.Consistent) (hfinished : r.isFinished = false)
    (hlater : ∀ o ∈ ends, r.size < o)
    (hwhole : q = [] → r.next.result = .ok none ∧ r.next.state.isFinished = true)
    (hcut : q ≠ [] → r.rest ≠ [] → r.next.result = .error (.truncated r.size)) :
    r.Ends r.size (q = []) (r.position :: ends) := by
  have hnil : r.size ∈ r.position :: ends ↔ r.rest = [] := by
    rw [← atEnd_iff hr, beq_iff_eq, List.mem_cons, eq_comm]
    refine ⟨fun h => h.resolve_right fun hmem => ?_, .inl⟩
    exact absurd (hlater _ hmem) (Nat.lt_irrefl _)
  refine ⟨hwhole, fun _ hmem => ?_, fun hq hmem => hcut hq fun hrest => hmem (hnil.2 hrest)⟩
  obtain ⟨hresult, hstate⟩ := next_of_nil hr (hnil.1 hmem)
  exact ⟨hresult, by rw [hstate, hfinished]⟩

end Reader

/-! ## Cut streams -/

section Framed

variable {s : Session} {us : List (Tree × Session)} {root? : Option String} {bytes tail : Bytes}
  {r : Reader}

theorem Framed.forms (h : Framed root? s bytes us) :
    ∃ d', FramesForm root? s.stream.dict bytes (us.map (·.1.readAs root?)) d' := by
  induction h with
  | nil => exact ⟨_, .nil⟩
  | cons h _ _ ih =>
    obtain ⟨d', hforms⟩ := ih
    exact ⟨d', .cons h hforms⟩

theorem Framed.le_written (h : Framed root? s bytes us) :
    ∀ u ∈ us, s.written.length ≤ u.2.written.length := by
  induction h with
  | nil => simp
  | @cons s s' bs _ t _ _ hwritten _ ih =>
    have hle : s.written.length ≤ s'.written.length := by
      rw [hwritten, List.length_append]
      exact Nat.le_add_right _ _
    exact List.forall_mem_cons.2 ⟨hle, fun u hu => Nat.le_trans hle (ih u hu)⟩

/-- **What is read of frames that are cut off.** The reader stands where the session had written to,
and the bytes `q` are missing behind the rest of its data. -/
theorem Framed.read_cut (h : Framed root? s bytes us) (htail : Varint.Form 0 tail terminator)
    (hr : r.Consistent) (hfinished : r.isFinished = false) (hname : r.rootName = root?)
    (hdict : r.dict = s.stream.dict) (hposition : r.position = s.written.length)
    (hcut : bytes ++ tail = r.rest ++ q) :
    ∃ r', r.Yields ((us.filter (·.2.written.length ≤ r.size)).map (·.1.readAs root?)) r' ∧
      r'.Ends r.size (q = []) (s.written.length :: us.map (·.2.written.length)) := by
  induction h generalizing r with
  | nil =>
    refine ⟨r, .nil, hposition ▸ Reader.ends_of_last hr hfinished (by simp) ?_ ?_⟩
    · rintro rfl
      have hrest : r.rest = tail ++ [] := by simpa using hcut.symm
      obtain ⟨hresult, hstate⟩ := Reader.next_of_terminator hr hfinished htail hrest
      exact ⟨hresult, by rw [hstate]⟩
    · intro hq hrest
      rw [List.nil_append] at hcut
      exact Reader.next_of_readLength_fails hr hfinished hrest
        (Varint.decode_of_cut (hcut ▸ htail) hq)
  | @cons s s' bs cs t us h hwritten hframed ih =>
    have hsize : r.position + r.rest.length = r.size := hr
    have hlength : s'.written.length = r.position + bs.length := by
      rw [hwritten, List.length_append, hposition]
    rw [List.append_assoc] at hcut
    rcases cut_cases hcut with ⟨c, hc, hbs, hq⟩ | ⟨p, hrest, hcut⟩
    · -- The cut lies within this frame, so no frame is left.
      have hlater : ∀ o ∈ ((t, s') :: us).map (·.2.written.length), r.size < o := by
        have hlt := length_lt_of_cut hbs hc
        refine List.forall_mem_map.2 (List.forall_mem_cons.2 ⟨?_, fun u hu => ?_⟩)
        · show r.size < s'.written.length
          omega
        · have := hframed.le_written u hu
          omega
      have hnone : ((t, s') :: us).filter (·.2.written.length ≤ r.size) = [] := by
        refine List.filter_eq_nil_iff.2 fun u hu => ?_
        have := hlater _ (List.mem_map_of_mem hu)
        simpa using this
      rw [hnone, ← hposition]
      refine ⟨r, .nil, Reader.ends_of_last hr hfinished hlater ?_ ?_⟩
      · rintro rfl
        exact absurd (List.append_eq_nil_iff.1 hq.symm).1 hc
      · exact fun _ hrest => Reader.next_of_cut hr hfinished hrest h hbs hc
    · -- The whole frame is there, and is read.
      have hpos := h.length_pos
      have hpass := Reader.passes_learn hrest s'.stream.dict
      rw [← hdict, ← hname] at h
      obtain ⟨hresult, hstate⟩ := Reader.next_of_form hr hfinished h hrest
      rw [hname] at hresult
      rw [← Reader.rest_skip hrest] at hcut
      obtain ⟨r', hyields, hends⟩ :=
        ih (hpass.consistent hr) hfinished hname rfl hlength.symm hcut
      have hlen := congrArg List.length hrest
      rw [List.length_append] at hlen
      have hkept : s'.written.length ≤ r.size := by omega
      rw [List.filter_cons_of_pos (by simpa using hkept)]
      refine ⟨r', .cons hresult (hstate ▸ hyields), hends.finished, fun hq hmem => ?_,
        fun hq hmem => hends.within hq fun hmem' => hmem (.tail _ hmem')⟩
      rcases List.mem_cons.1 hmem with heq | hmem
      · omega
      · exact hends.between hq hmem

end Framed

/-! ## Whole streams -/

theorem checkHeader_of_short {data : Bytes} (h : data.length < header.length) :
    checkHeader data = .error (.truncated data.length) := by
  unfold checkHeader
  split
  · simp only [List.length_cons, header, magic, List.length_append, List.length_nil] at h
    omega
  · rfl

namespace Session

variable {setup body : List Action} {root? : Option String} {s : Session}
  {us : List (Tree × Session)} {data bytes : Bytes} {n : Nat}

/-- A cut behind the header. -/
theorem read_cut_stream (hroot : ∀ name ∈ root?, Name.isNode name = true)
    (hbegun : Begun (.ofName root?) s) (hframed : Framed root? s bytes us)
    (hdata : data = header ++ (bytes ++ Varint.encode terminator)) (hn : header.length ≤ n)
    (hle : n ≤ data.length) :
    ∃ r r', Command.openReader (data.take n) root? = .ok r ∧
      r.Yields ((us.filter (·.2.written.length ≤ n)).map (·.1.readAs root?)) r' ∧
      r'.Ends n (n = data.length) (header.length :: us.map (·.2.written.length)) := by
  have hlength : (data.take n).length = n := List.length_take_of_le hle
  have hboth : header ++ (bytes ++ Varint.encode terminator) = data.take n ++ data.drop n := by
    rw [← hdata, List.take_append_drop]
  rcases cut_cases hboth with ⟨c, hc, hheader, -⟩ | ⟨rest, htake, hcut⟩
  · have := length_lt_of_cut hheader hc
    omega
  · have hr : (Reader.opened (data.take n) root?).Consistent := Reader.opened_consistent htake
    have hsize : (Reader.opened (data.take n) root?).size = n := hlength
    have hrest : (Reader.opened (data.take n) root?).rest = rest := by
      rw [Reader.opened, htake, List.drop_left]
    have hposition : header.length = s.written.length := by rw [hbegun.written]
    have hall : (data.drop n = []) = (n = data.length) := by
      rw [List.drop_eq_nil_iff, Nat.le_antisymm_iff, eq_iff_iff]
      exact ⟨fun h => ⟨hle, h⟩, fun h => h.2⟩
    obtain ⟨r', hyields, hends⟩ := hframed.read_cut (Varint.form_encode_of_le (Nat.le_refl _)) hr
      rfl rfl hbegun.dict.symm hposition (hrest.symm ▸ hcut)
    rw [hsize] at hyields hends
    rw [hall, ← hposition] at hends
    exact ⟨_, r', openReader_eq_ok.2 ⟨⟨rest, htake⟩, hroot, rfl⟩, hyields, hends⟩

/-- Bytes behind the terminator. -/
theorem read_extended_stream (hroot : ∀ name ∈ root?, Name.isNode name = true)
    (hbegun : Begun (.ofName root?) s) (hframed : Framed root? s bytes us)
    (hdata : data = header ++ (bytes ++ Varint.encode terminator)) (more : Bytes) :
    ∃ r r', Command.openReader (data ++ more) root? = .ok r ∧
      r.ReadsAll (us.map (·.1.readAs root?)) r' ∧ r'.next.state.isFinished = true := by
  obtain ⟨d', hforms⟩ := hframed.forms
  rw [hbegun.dict] at hforms
  have hmore : data ++ more = header ++ (bytes ++ (Varint.encode terminator ++ more)) := by
    rw [hdata]
    simp only [List.append_assoc]
  obtain ⟨hopen, hyields⟩ := yields_of_forms hroot hforms hmore
  have hr : Reader.Consistent ⟨(data ++ more).length, header.length + bytes.length,
      Varint.encode terminator ++ more, d', root?, false⟩ := by
    have hlength := congrArg List.length hmore
    simp only [Reader.Consistent, List.length_append] at hlength ⊢
    omega
  obtain ⟨hresult, hstate⟩ := Reader.next_of_terminator hr rfl
    (Varint.form_encode_of_le (Nat.le_refl _)) rfl
  exact ⟨_, _, hopen, ⟨hyields, hresult⟩, by rw [hstate]⟩

/-- **Cutting or extending a stream never yields a wrong tree.** A stream is begun, trees are
appended of which only the root may be nameless, and the stream is ended. If less than the header is
left of it, then a reader says so at once. Otherwise it gives exactly the trees whose frames are
still whole; then it comes to nothing, and has finished, if all is left, it comes to nothing without
having finished if the cut is at the end of the header or of a frame, and it says that the stream is
truncated anywhere else. Whatever comes behind a whole stream changes neither the trees
nor the end. -/
theorem cut_or_extended (hroot : ∀ name ∈ root?, Name.isNode name = true)
    (hsetup : Setup (.ofName root?) setup)
    (hbody : ∀ action ∈ body, action.Grows fun t => t.WellFormed ∧ t.NamedBelowRoot)
    (hsize : (whole setup body).taken.length ≤ terminator) :
    let data := (whole setup body).taken
    let us := (fresh.run setup).history body
    us.map (·.1) = (whole setup body).accepted ∧
    (∀ n < header.length, Reader.ofBytes (data.take n) = .error (.truncated n)) ∧
    (∀ n, header.length ≤ n → n ≤ data.length →
      ∃ r r', Command.openReader (data.take n) root? = .ok r ∧
        r.Yields ((us.filter (·.2.written.length ≤ n)).map (·.1.readAs root?)) r' ∧
        r'.Ends n (n = data.length) (header.length :: us.map (·.2.written.length))) ∧
    ∀ more, ∃ r r', Command.openReader (data ++ more) root? = .ok r ∧
      r.ReadsAll (us.map (·.1.readAs root?)) r' ∧ r'.next.state.isFinished = true := by
  intro data us
  have hbegun := hsetup.begun
  obtain ⟨htaken, haccepted⟩ := whole_eq setup body
  have hlength := congrArg List.length htaken
  rw [List.length_append] at hlength
  obtain ⟨bytes, hframed, hwritten⟩ := framed_of_runs hsetup (fun a ha => (hbody a ha).runs)
    (List.pairwise_cons.1 (growing_history hbody)).2 (by omega)
  have hdata : data = header ++ (bytes ++ Varint.encode terminator) := by
    rw [← List.append_assoc, ← hwritten, ← htaken]
  refine ⟨?_, fun n hn => ?_, fun n => read_cut_stream hroot hbegun hframed hdata,
    read_extended_stream hroot hbegun hframed hdata⟩
  · rw [haccepted, run_append, accepted_run, hbegun.accepted, List.nil_append]
  · have hle : n ≤ data.length := by
      rw [hdata, List.length_append]
      omega
    have hlength : (data.take n).length = n := List.length_take_of_le hle
    rw [Reader.ofBytes, checkHeader_of_short (by rwa [hlength]), hlength]

/-- Two texts, cut within the raw buffer of the second one and right behind it. -/
theorem cut_or_extended_two_texts :
    let t : Tree := ⟨⟨"$", 0, 2, []⟩, [104, 105]⟩
    let data := (whole [.header] [.append t, .append t]).taken
    data.length = 30 ∧
      (∃ r r', Command.openReader (data.take 16) none = .ok r ∧ r.Yields [t] r' ∧
        r'.next.result = .error (.truncated 16)) ∧
      ∃ r r', Command.openReader (data.take 20) none = .ok r ∧ r.Yields [t, t] r' ∧
        r'.next.result = .ok none ∧ r'.next.state.isFinished = false := by
  intro t data
  have ht : t.WellFormed := ⟨rfl, .inr rfl, trivial⟩
  have hroot : ∀ name ∈ (none : Option String), Name.isNode name = true := by simp
  have hbody : ∀ action ∈ [Action.append t, .append t],
      action.Grows fun t => t.WellFormed ∧ t.NamedBelowRoot := by
    simp [Action.Grows, ht, Tree.NamedBelowRoot, Node.AllNamesIn, t]
  have hlength : (whole [.header] [.append t, .append t]).taken.length = 30 := by decide +kernel
  have hends : ((fresh.run [.header]).history [.append t, .append t]).map
      (·.2.written.length) = [14, 20] := by decide +kernel
  obtain ⟨-, -, hcut, -⟩ := cut_or_extended hroot setup_header hbody (by decide +kernel)
  refine ⟨hlength, ?_, ?_⟩
  · have hleft : (((fresh.run [.header]).history [.append t, .append t]).filter
        (·.2.written.length ≤ 16)).map (·.1.readAs none) = [t] := by decide +kernel
    obtain ⟨r, r', hopen, hyields, hend⟩ := hcut 16 (by decide) (by decide +kernel)
    rw [hleft] at hyields
    rw [hends, hlength] at hend
    exact ⟨r, r', hopen, hyields, hend.within (by decide) (by decide)⟩
  · have hleft : (((fresh.run [.header]).history [.append t, .append t]).filter
        (·.2.written.length ≤ 20)).map (·.1.readAs none) = [t, t] := by decide +kernel
    obtain ⟨r, r', hopen, hyields, hend⟩ := hcut 20 (by decide) (by decide +kernel)
    rw [hleft] at hyields
    rw [hends, hlength] at hend
    exact ⟨r, r', hopen, hyields, hend.between (by decide) (by decide)⟩

end Session

end SpanTree
