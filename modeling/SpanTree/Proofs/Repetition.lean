import SpanTree.Proofs.Session

/-!
# Trees that are appended again

A tree that a stream accepted is accepted again, in a frame that is no longer, and no name is new to
the dictionary then (`stays_acceptable`).

A dictionary that has merely grown is not enough for this: filled with other names, it makes a tree
longer, perhaps too long. What a tree leaves behind where it is accepted is that **each of its names
is settled**: it is known, or the dictionary was full when the name came. A settled name stays so
while the dictionary grows, since what was known stays known and what was full stays full. Then
every name of the tree takes one byte or the bytes it took before, and lengths only shrink, level by
level.
-/

namespace SpanTree

open Bill
open SpanTree.Stream (Action)

/-! ## Settled names -/

namespace Dictionary

variable {d e : Dictionary} {name : String}

/-- Learning the name again changes nothing. -/
def Settled (d : Dictionary) (name : String) : Prop := name ∈ d.names ∨ d.capacity ≤ d.size

theorem settled_learn (d : Dictionary) (name : String) : (d.learn name).Settled name := by
  by_cases hmem : name ∈ d.names
  · rw [learn_of_mem hmem]
    exact .inl hmem
  · by_cases hfull : d.capacity ≤ d.size
    · rw [learn_of_full hfull]
      exact .inr hfull
    · rw [learn_of_room hmem (by omega)]
      exact .inl (by simp)

theorem Settled.learn (h : d.Settled name) : d.learn name = d := by
  rcases h with hmem | hfull
  · exact learn_of_mem hmem
  · exact learn_of_full hfull

theorem Settled.mono (h : d.Settled name) (he : e.Extends d) : e.Settled name := by
  rcases h with hmem | hfull
  · left
    exact List.IsPrefix.subset he.names_prefix hmem
  · right
    rw [he.capacity_eq]
    exact Nat.le_trans hfull he.names_prefix.length_le

end Dictionary

/-! ## Encoding again -/

namespace Bill

variable {cursor depth : Nat} {d d' e : Dictionary} {bs block : Bytes} {name : String} {n : Node}
  {ns : List Node} {t : Tree} {mode : RootMode}

theorem NameRun.length_pos (h : NameRun d name bs) : 0 < bs.length := by
  cases h with
  | index => exact Nat.one_pos
  | full _ hfull =>
    obtain ⟨lo, hi, rfl, -⟩ := encodeFullName_eq_ok hfull
    exact Nat.succ_pos _

/-- A name that was known is known, and any other one was written in full. -/
theorem encodeName_again (h : Answers (encodeName name) d bs d') (he : e.Extends d')
    (hindexable : e.Indexable) :
    ∃ cs, Answers (encodeName name) e cs e ∧ cs.length ≤ bs.length := by
  obtain ⟨hrun, rfl⟩ := answers_encodeName.1 h
  have hsettled := ((Dictionary.settled_learn d name).mono he).learn.symm
  by_cases hknown : name ∈ e.names
  · obtain ⟨i, hfind⟩ := Dictionary.mem_names_iff.1 hknown
    have hrun' := NameRun.index hfind (hindexable.find_lt hfind)
    exact ⟨_, answers_encodeName.2 ⟨hrun', hsettled⟩, hrun.length_pos⟩
  · have hne : ∀ i, e.find name ≠ .index i := by
      intro i hfind
      exact hknown (Dictionary.mem_names_iff.2 ⟨i, hfind⟩)
    cases hrun with
    | index hfind =>
      have hold := Dictionary.mem_names_iff.2 ⟨_, hfind⟩
      have hextends := he.trans (Dictionary.extends_learn d name)
      exact absurd (List.IsPrefix.subset hextends.names_prefix hold) hknown
    | full _ hfull => exact ⟨bs, answers_encodeName.2 ⟨.full hne hfull, hsettled⟩, Nat.le_refl _⟩

mutual

theorem encodeNode_again : ∀ {n : Node} {cursor depth : Nat} {d d' e : Dictionary} {bs : Bytes},
    Answers (encodeNode cursor depth n) d bs d' → e.Extends d' → e.Indexable →
    ∃ cs, Answers (encodeNode cursor depth n) e cs e ∧ cs.length ≤ bs.length
  | ⟨name, start, stop, children⟩, cursor, depth, d, d', e, bs, h, he, hd => by
    cases answers_encodeNode.1 h with
    | leaf hdepth hname hspan =>
      obtain ⟨as, has, hle⟩ := encodeName_again hname he hd
      refine ⟨_, answers_encodeNode.2 (.leaf hdepth has hspan), ?_⟩
      simp only [List.length_append]
      omega
    | @inner _ _ _ _ _ spanBytes _ _ _ _ hdepth hname hspan hchildren hne hheader =>
      -- neither the name nor the children add a name to `e`, so they can be put together
      have hlearns := (ensures_encodeNodes _ _ _ _).of_answers hchildren
      obtain ⟨as, has, hasle⟩ := encodeName_again hname (he.trans hlearns.extends) hd
      obtain ⟨ds, hds, hdsle⟩ := encodeNodes_again hchildren he hd
      obtain ⟨lo, hi, rfl, -, hlen⟩ := encodeChildrenHeader_eq_ok hheader
      have hmax := childrenLength_le lo hi
      simp only [List.length_append] at hlen
      have hshort : (as ++ spanBytes ++ ds).length ≤ maxBlockLength := by
        simp only [List.length_append]
        omega
      obtain ⟨header', hheader', hheaderlen⟩ := encodeChildrenHeader_of_le hshort
      refine ⟨_, answers_encodeNode.2 (.inner hdepth has hspan hds hne hheader'), ?_⟩
      simp only [List.length_append, List.length_cons, List.length_nil]
      omega

theorem encodeNodes_again : ∀ {ns : List Node} {cursor depth : Nat} {d d' e : Dictionary}
    {bs : Bytes}, Answers (encodeNodes cursor depth ns) d bs d' → e.Extends d' → e.Indexable →
    ∃ cs, Answers (encodeNodes cursor depth ns) e cs e ∧ cs.length ≤ bs.length
  | [], _, _, _, _, _, _, _, _, _ => ⟨[], answers_encodeNodes_nil.2 ⟨rfl, rfl⟩, Nat.zero_le _⟩
  | n :: ns, cursor, depth, d, d', e, bs, h, he, hd => by
    obtain ⟨as, d₁, ds, has, hds, rfl⟩ := answers_encodeNodes_cons.1 h
    have hlearns := (ensures_encodeNodes _ _ _ _).of_answers hds
    obtain ⟨as', has', hasle⟩ := encodeNode_again has (he.trans hlearns.extends) hd
    obtain ⟨ds', hds', hdsle⟩ := encodeNodes_again hds he hd
    refine ⟨_, answers_encodeNodes_cons.2 ⟨as', e, ds', has', hds', rfl⟩, ?_⟩
    simp only [List.length_append]
    omega

end

theorem encodeTree_again (h : Answers (encodeTree t mode) d block d') (he : e.Extends d')
    (hd : e.Indexable) : ∃ cs, Answers (encodeTree t mode) e cs e ∧ cs.length ≤ block.length := by
  cases mode with
  | written =>
    simp only [encodeTree] at h ⊢
    split at h
    · simp at h
    · next hname =>
      rw [if_neg hname]
      exact encodeNode_again h he hd
  | omitted => exact encodeNodes_again h he hd

theorem length_frame_le {raw : Bytes} {cs : Bytes} (h : cs.length ≤ block.length) :
    (Stream.frame raw cs).length ≤ (Stream.frame raw block).length := by
  have hmono := Varint.length_encode_mono h
  simp only [Stream.frame, List.length_append]
  omega

end Bill

/-! ## Appending again -/

namespace Session

variable {t : Tree} {before between : List Action}

/-- **A tree that was accepted stays acceptable and gets no longer.** A stream, whatever it has been
through, accepts a tree. After it any trees are appended, accepted or not, and bytes are taken. Then
appending the tree again comes to no error and adds no name: nothing but a frame is added to the
buffer, and this frame is no longer than the tree's first. -/
theorem stays_acceptable (h : ((fresh.run before).stream.append t).result = .ok ())
    (hbetween : ∀ action ∈ between, action.Grows fun _ => True) :
    let s := fresh.run before
    let later := ((s.step (.append t)).run between).stream
    ∃ first again,
      (s.stream.append t).state.buffer = s.stream.buffer ++ first ∧
      (later.append t).result = .ok () ∧
      (later.append t).state = { later with buffer := later.buffer ++ again } ∧
      again.length ≤ first.length := by
  intro s later
  have hindexable : s.stream.dict.Indexable := indexable_fresh_run before
  cases hrun : outcome (encodeTree t s.stream.mode) s.stream.dict with
  | mk result d =>
    cases result with
    | error e =>
      rw [(Stream.append_of_fails hrun).1] at h
      cases h
    | ok block =>
      have hstate := (Stream.append_of_answers hrun).2
      have hfirst := step_append_of_answers hrun
      obtain ⟨us, bytes, hwrites, -⟩ := run_grows (s := s.step (.append t)) hbetween
      have hmode : later.mode = s.stream.mode := hwrites.mode.trans hfirst.mode
      have hextends : later.dict.Extends d := by
        rw [← (hfirst.frames.unique (.single hrun)).2]
        exact hwrites.frames.learns.extends
      have hlater : later.dict.Indexable := indexable_run (indexable_step hindexable _) between
      obtain ⟨cs, hagain, hle⟩ := encodeTree_again hrun hextends hlater
      rw [← hmode] at hagain
      obtain ⟨hresult', hstate'⟩ := Stream.append_of_answers hagain
      exact ⟨_, _, by rw [hstate], hresult', hstate', length_frame_le hle⟩

/-- A text with one child, after which another tree is appended, one is refused, and the bytes are
taken. -/
theorem stays_acceptable_one_child :
    let t : Tree := ⟨⟨"$", 0, 2, [⟨"a", 0, 2, []⟩]⟩, [104, 105]⟩
    let between : List Action := [.append ⟨⟨"b", 0, 0, []⟩, []⟩, .append .empty, .take]
    let later := (((fresh.run [.header]).step (.append t)).run between).stream
    (later.append t).result = .ok () ∧ (later.append t).state.dict = later.dict := by
  intro t between later
  have hresult : ((fresh.run [.header]).stream.append t).result = .ok () := rfl
  have hbetween : ∀ action ∈ between, action.Grows fun _ => True := by
    simp [between, Action.Grows]
  obtain ⟨first, again, -, hlater, hstate, -⟩ := stays_acceptable hresult hbetween
  exact ⟨hlater, by rw [hstate]⟩

end Session

end SpanTree
