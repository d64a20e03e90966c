import SpanTree.Bill.Decode
import SpanTree.Proofs.Computation
import SpanTree.Proofs.Grammar

/-!
# Decoding accepts what the grammar derives

*Complete*: from a cursor in front of a derivable block, decoding answers the node that is derived,
whatever follows the block, and stops behind it. *Sound*: where decoding answers a node, the bytes
that it has passed derive this node.

The induction of both runs over the levels of a node and, within a node, over its children. What is
carried along is that the position and the bytes that are left make up the size of the block; the
checks against the size are checks against the bytes because of it.
-/

namespace SpanTree.Bill

namespace Cursor

/-- The position and the bytes from there on make up the block. -/
def Within (e : Extent) (c : Cursor) : Prop := c.pos + c.rest.length = e.size

/-- Between the two cursors lie the bytes `bs`. -/
structure Passes (c : Cursor) (bs : Bytes) (c' : Cursor) : Prop where
  rest_eq : c.rest = bs ++ c'.rest
  pos_eq : c'.pos = c.pos + bs.length

variable {e : Extent} {c c' c'' : Cursor} {bs cs : Bytes}

theorem Passes.refl (c : Cursor) : c.Passes [] c := ⟨rfl, rfl⟩

theorem Passes.trans (h : c.Passes bs c') (h' : c'.Passes cs c'') : c.Passes (bs ++ cs) c'' := by
  refine ⟨?_, ?_⟩
  · rw [h.rest_eq, h'.rest_eq, List.append_assoc]
  · rw [h'.pos_eq, h.pos_eq, List.length_append, Nat.add_assoc]

theorem Passes.within (h : c.Passes bs c') (hc : c.Within e) : c'.Within e := by
  have := congrArg List.length h.rest_eq
  have := h.pos_eq
  simp only [Within, List.length_append] at *
  omega

end Cursor

variable {e : Extent} {levels cursor pos stop : Nat} {d d' : Dictionary} {bs rest : Bytes}
  {name : String} {n : Node} {ns : List Node} {c c' : Cursor}

@[simp] theorem answers_advance_bind {α : Type} {k : Nat} {f : Unit → Decoding α} {a : α} :
    Answers (advance k >>= f) c a c' ↔
      Answers (f ()) ⟨c.pos + k, c.rest.drop k, c.dict⟩ a c' := Iff.rfl

/-! ## The ways to an answer -/

/-- How the decoding of a node with `levels` levels below it comes to an answer. -/
inductive NodeRun (e : Extent) (levels cursor : Nat) (c : Cursor) : Node → Cursor → Prop
  | leaf {c₁ c₂ c₃ : Cursor} {name : String} {skip length : Nat}
      (hheader : Answers (decodeChildrenHeader e) c none c₁)
      (hname : Answers (decodeNodeName e) c₁ name c₂)
      (hspan : Answers (decodeNodeSpan e) c₂ (skip, length) c₃) :
      NodeRun e levels cursor c ⟨name, cursor + skip, cursor + skip + length, []⟩ c₃
  | inner {c₁ c₂ c₃ c₄ : Cursor} {name : String} {skip length stop : Nat} {children : List Node}
      (hheader : Answers (decodeChildrenHeader e) c (some stop) c₁)
      (hname : Answers (decodeNodeName e) c₁ name c₂)
      (hspan : Answers (decodeNodeSpan e) c₂ (skip, length) c₃)
      (hchildren : Answers (decodeUntil e (decodeNode e levels) stop e.size (cursor + skip)) c₃
        children c₄)
      (hne : children ≠ []) :
      NodeRun e levels cursor c ⟨name, cursor + skip, cursor + skip + length, children⟩ c₄

theorem answers_decodeNode :
    Answers (decodeNode e (levels + 1) cursor) c n c' ↔ NodeRun e levels cursor c n c' := by
  rw [decodeNode]
  constructor
  · intro h
    obtain ⟨stop?, c₁, hheader, h⟩ := answers_bind.1 h
    obtain ⟨name, c₂, hname, h⟩ := answers_bind.1 h
    obtain ⟨⟨skip, length⟩, c₃, hspan, h⟩ := answers_bind.1 h
    cases stop? with
    | none =>
      obtain ⟨rfl, rfl⟩ := answers_pure.1 h
      exact .leaf hheader hname hspan
    | some stop =>
      obtain ⟨children, c₄, hchildren, h⟩ := answers_bind.1 h
      split at h
      · simp at h
      · next hne =>
        obtain ⟨rfl, rfl⟩ := answers_pure.1 h
        exact .inner hheader hname hspan hchildren (by simpa using hne)
  · intro h
    cases h with
    | leaf hheader hname hspan =>
      exact hheader.bind (hname.bind (hspan.bind (answers_pure.2 ⟨rfl, rfl⟩)))
    | inner hheader hname hspan hchildren hne =>
      refine hheader.bind (hname.bind (hspan.bind (hchildren.bind ?_)))
      rw [if_neg (by simpa using hne)]
      exact answers_pure.2 ⟨rfl, rfl⟩

/-- How the decoding of nodes up to `stop` comes to an answer. -/
inductive UntilRun (e : Extent) (node : Nat → Decoding Node) (stop : Nat) :
    (bytesLeft cursor : Nat) → Cursor → List Node → Cursor → Prop
  | done {bytesLeft cursor : Nat} {c : Cursor} (h : c.pos = stop) :
      UntilRun e node stop bytesLeft cursor c [] c
  | more {bytesLeft cursor : Nat} {c c₁ c₂ : Cursor} {n : Node} {ns : List Node}
      (h : c.pos < stop) (hnode : Answers (node cursor) c n c₁)
      (hrest : Answers (decodeUntil e node stop bytesLeft n.stop) c₁ ns c₂) :
      UntilRun e node stop (bytesLeft + 1) cursor c (n :: ns) c₂

theorem answers_decodeUntil {node : Nat → Decoding Node} {bytesLeft : Nat} :
    Answers (decodeUntil e node stop bytesLeft cursor) c ns c' ↔
      UntilRun e node stop bytesLeft cursor c ns c' := by
  rw [decodeUntil.eq_def, answers_get_bind]
  constructor
  · intro h
    split at h
    · next hlt =>
      split at h
      · simp at h
      · obtain ⟨n, c₁, hnode, h⟩ := answers_bind.1 h
        obtain ⟨ns, c₂, hrest, h⟩ := answers_bind.1 h
        obtain ⟨rfl, rfl⟩ := answers_pure.1 h
        exact .more hlt hnode hrest
    · split at h
      · next heq =>
        obtain ⟨rfl, rfl⟩ := answers_pure.1 h
        exact .done heq
      · simp at h
  · intro h
    cases h with
    | done heq =>
      rw [if_neg (by omega), if_pos heq]
      exact answers_pure.2 ⟨rfl, rfl⟩
    | more hlt hnode hrest =>
      rw [if_pos hlt]
      exact hnode.bind (hrest.bind (answers_pure.2 ⟨rfl, rfl⟩))

/-! ## Complete -/

theorem NameForm.head_lt (h : NameForm d name bs d') :
    ∃ b bs', bs = b :: bs' ∧ b.toNat < 128 := by
  cases h with
  | index hb => exact ⟨_, _, rfl, by omega⟩
  | full _ hlo' => exact ⟨_, _, rfl, hlo'⟩

theorem decodeName_of_form (h : NameForm d name bs d')
    (hsize : pos + (bs ++ rest).length = e.size) :
    Answers (decodeName e) ⟨pos, bs ++ rest, d⟩ name ⟨pos + bs.length, rest, d'⟩ := by
  rw [decodeName, answers_get_bind]
  cases h with
  | @index b hb hname =>
    simp only [List.cons_append, List.nil_append, if_pos hb, hname, answers_advance_bind,
      answers_pure, true_and]
    rfl
  | @full lo hi hlo hlo' hlen =>
    have hsize' : ¬ e.size < pos + 2 + (Utf8.encode name).length := by
      simp at hsize
      omega
    simp only [List.cons_append, if_neg (Nat.not_lt.2 hlo), if_pos hlo', decodeFullName,
      answers_get_bind, ← hlen, if_neg hsize', List.take_left, Utf8.decode?_encode,
      answers_advance_bind, answers_modify_bind, answers_pure, true_and]
    simp [Nat.add_comm 2]

theorem decodeNodeName_of_form (h : NameForm d name bs d') (hvalid : Name.isNode name = true)
    (hsize : pos + (bs ++ rest).length = e.size) :
    Answers (decodeNodeName e) ⟨pos, bs ++ rest, d⟩ name ⟨pos + bs.length, rest, d'⟩ := by
  refine (decodeName_of_form h hsize).bind ?_
  simp [hvalid]

theorem decodeNodeSpan_of_form {skip length : Nat} (h : SpanForm bs skip length) (pos : Nat)
    (rest : Bytes) (d : Dictionary) :
    Answers (decodeNodeSpan e) ⟨pos, bs ++ rest, d⟩ (skip, length) ⟨pos + bs.length, rest, d⟩ := by
  simp only [decodeNodeSpan, answers_get_bind, decodeSpan_of_form h, answers_advance_bind,
    List.drop_left, answers_pure, and_self]

/-- A name cannot be taken for a header. -/
theorem decodeChildrenHeader_of_name (h : NameForm d name bs d') (pos : Nat) (rest : Bytes) :
    Answers (decodeChildrenHeader e) ⟨pos, bs ++ rest, d⟩ none ⟨pos, bs ++ rest, d⟩ := by
  obtain ⟨b, bs', rfl, hb⟩ := h.head_lt
  rw [decodeChildrenHeader, answers_get_bind, List.cons_append]
  cases bs' ++ rest <;> simp [hb]

theorem decodeChildrenHeader_some {lo hi : UInt8} (hlo : 128 ≤ lo.toNat)
    (hsize : pos + 2 + childrenLength lo hi ≤ e.size) (rest : Bytes) (d : Dictionary) :
    Answers (decodeChildrenHeader e) ⟨pos, lo :: hi :: rest, d⟩
      (some (pos + 2 + childrenLength lo hi)) ⟨pos + 2, rest, d⟩ := by
  simp only [decodeChildrenHeader, answers_get_bind, if_neg (Nat.not_lt.2 hlo),
    if_neg (Nat.not_lt.2 hsize), answers_advance_bind, answers_pure, true_and]
  rfl

mutual

theorem decodeNode_of_form : ∀ {levels cursor d bs n d'}, NodeForm levels cursor d bs n d' →
    ∀ (pos : Nat) (rest : Bytes), pos + (bs ++ rest).length = e.size →
    Answers (decodeNode e levels cursor) ⟨pos, bs ++ rest, d⟩ n ⟨pos + bs.length, rest, d'⟩
  | _, cursor, d, _, _, d', .leaf hhead, pos, rest, hsize => by
    cases hhead with
    | @mk bs cs name skip length _ hname hvalid hspan =>
      have hheader := decodeChildrenHeader_of_name (e := e) hname pos (cs ++ rest)
      rw [List.append_assoc] at hsize ⊢
      rw [answers_decodeNode, List.length_append, ← Nat.add_assoc]
      exact .leaf hheader (decodeNodeName_of_form hname hvalid hsize)
        (decodeNodeSpan_of_form hspan _ _ _)
  | _, cursor, d, _, _, d'', @NodeForm.inner _ _ _ _ _ _ _ _ ds _ lo hi _ hhead hchildren hne hlo
      hlen, pos, rest, hsize => by
    cases hhead with
    | @mk bs cs name skip length d' hname hvalid hspan =>
      have hcount := hchildren.two_mul_le_length
      simp only [List.cons_append, List.append_assoc, List.length_cons, List.length_append]
        at hsize hlen ⊢
      rw [answers_decodeNode]
      refine .inner (decodeChildrenHeader_some hlo (by omega) _ _)
        (decodeNodeName_of_form hname hvalid (by simp; omega)) (decodeNodeSpan_of_form hspan _ _ _)
        ?_ hne
      have hkids := decodeUntil_of_form hchildren (pos + 2 + bs.length + cs.length) rest e.size
        (by simp; omega) (by omega)
      have hstop : pos + 2 + childrenLength lo hi =
          pos + 2 + bs.length + cs.length + ds.length := by omega
      have hend : pos + (bs.length + (cs.length + ds.length) + 1 + 1) =
          pos + 2 + bs.length + cs.length + ds.length := by omega
      rwa [hstop, hend]

theorem decodeUntil_of_form : ∀ {levels cursor d bs ns d'}, NodesForm levels cursor d bs ns d' →
    ∀ (pos : Nat) (rest : Bytes) (bytesLeft : Nat), pos + (bs ++ rest).length = e.size →
    ns.length ≤ bytesLeft →
    Answers (decodeUntil e (decodeNode e levels) (pos + bs.length) bytesLeft cursor)
      ⟨pos, bs ++ rest, d⟩ ns ⟨pos + bs.length, rest, d'⟩
  | levels, cursor, d, _, _, _, .nil, pos, rest, bytesLeft, hsize, _ =>
    answers_decodeUntil.2 (.done rfl)
  | levels, cursor, d, _, _, d'', @NodesForm.cons _ _ _ _ _ bs cs _ _ hnode hrest, pos, rest,
      bytesLeft + 1, hsize, hcount => by
    have hpos := hnode.two_le_length
    rw [List.append_assoc] at hsize ⊢
    rw [answers_decodeUntil, List.length_append]
    refine .more (by simp; omega) (decodeNode_of_form hnode _ _ hsize) ?_
    rw [← Nat.add_assoc]
    exact decodeUntil_of_form hrest _ _ _ (by simp at hsize ⊢; omega) (by simpa using hcount)

end

/-! ## Sound -/

theorem form_of_decodeName (h : Answers (decodeName e) c name c') (hc : c.Within e) :
    ∃ bs, c.Passes bs c' ∧ NameForm c.dict name bs c'.dict := by
  obtain ⟨pos, bytes, d⟩ := c
  rw [decodeName, answers_get_bind] at h
  cases bytes with
  | nil => simp at h
  | cons b bs =>
    simp only at h
    split at h
    · next hb =>
      split at h
      · simp at h
      · next found hfound =>
        rw [answers_advance_bind] at h
        obtain ⟨rfl, rfl⟩ := answers_pure.1 h
        exact ⟨[b], ⟨rfl, rfl⟩, .index hb hfound⟩
    · next hb =>
      split at h
      · next hb' =>
        cases bs with
        | nil => simp [decodeFullName] at h
        | cons hi bs =>
          rw [decodeFullName, answers_get_bind] at h
          simp only at h
          split at h
          · simp at h
          · next hfit =>
            split at h
            · simp at h
            · next found hfound =>
              rw [answers_advance_bind, answers_modify_bind] at h
              obtain ⟨rfl, rfl⟩ := answers_pure.1 h
              have hlen : fullNameLength b hi ≤ bs.length := by
                simp [Cursor.Within] at hc
                omega
              have htake := Utf8.encode_of_decode? hfound
              refine ⟨b :: hi :: Utf8.encode found, ⟨?_, ?_⟩, .full (by omega) hb' ?_⟩
              · simp [htake, Nat.add_comm 2]
              · simp [htake, hlen, Nat.add_comm 2]
              · simp [htake, hlen]
      · simp at h

theorem form_of_decodeNodeName (h : Answers (decodeNodeName e) c name c') (hc : c.Within e) :
    ∃ bs, c.Passes bs c' ∧ NameForm c.dict name bs c'.dict ∧ Name.isNode name = true := by
  obtain ⟨found, c₁, hfound, h⟩ := answers_bind.1 h
  split at h
  · next hvalid =>
    obtain ⟨rfl, rfl⟩ := answers_pure.1 h
    obtain ⟨bs, hbs, hform⟩ := form_of_decodeName hfound hc
    exact ⟨bs, hbs, hform, hvalid⟩
  · simp at h

theorem form_of_decodeNodeSpan {skip length : Nat}
    (h : Answers (decodeNodeSpan e) c (skip, length) c') :
    ∃ bs, c.Passes bs c' ∧ SpanForm bs skip length ∧ c'.dict = c.dict := by
  rw [decodeNodeSpan, answers_get_bind] at h
  split at h
  · simp at h
  · next found =>
    rw [answers_advance_bind] at h
    obtain ⟨hpair, rfl⟩ := answers_pure.1 h
    cases hpair
    obtain ⟨bs, rest, hbs, rfl, hform⟩ := form_of_decodeSpan found
    exact ⟨bs, ⟨by simp [hbs], rfl⟩, hform, rfl⟩

theorem eq_of_decodeChildrenHeader_none (h : Answers (decodeChildrenHeader e) c none c') :
    c' = c := by
  rw [decodeChildrenHeader, answers_get_bind] at h
  split at h
  · simp at h
  · split at h
    · exact (answers_pure.1 h).2.symm
    · simp at h
  · split at h
    · exact (answers_pure.1 h).2.symm
    · rw [answers_advance_bind] at h
      simp only at h
      split at h <;> simp at h

theorem form_of_decodeChildrenHeader (h : Answers (decodeChildrenHeader e) c (some stop) c') :
    ∃ lo hi : UInt8, 128 ≤ lo.toNat ∧ c.Passes [lo, hi] c' ∧ c'.dict = c.dict ∧
      stop = c'.pos + childrenLength lo hi ∧ stop ≤ e.size := by
  rw [decodeChildrenHeader, answers_get_bind] at h
  split at h
  · simp at h
  · split at h <;> simp at h
  · next lo hi bs hrest =>
    split at h
    · simp at h
    · next hlo =>
      rw [answers_advance_bind] at h
      simp only at h
      split at h
      · simp at h
      · next hfit =>
        obtain ⟨hstop, rfl⟩ := answers_pure.1 h
        cases hstop
        exact ⟨lo, hi, by omega, ⟨by simp [hrest], rfl⟩, rfl, rfl, by omega⟩

/-- Soundness of the loop, given that of its step. -/
theorem form_of_decodeUntil {bytesLeft : Nat}
    (hstep : ∀ {cursor c n c'}, Answers (decodeNode e levels cursor) c n c' → c.Within e →
      ∃ bs, c.Passes bs c' ∧ NodeForm levels cursor c.dict bs n c'.dict)
    (h : Answers (decodeUntil e (decodeNode e levels) stop bytesLeft cursor) c ns c')
    (hc : c.Within e) :
    ∃ bs, c.Passes bs c' ∧ NodesForm levels cursor c.dict bs ns c'.dict ∧ c'.pos = stop := by
  induction bytesLeft generalizing cursor c ns with
  | zero =>
    cases answers_decodeUntil.1 h with
    | done heq => exact ⟨[], .refl _, .nil, heq⟩
  | succ bytesLeft ih =>
    cases answers_decodeUntil.1 h with
    | done heq => exact ⟨[], .refl _, .nil, heq⟩
    | more _ hnode hrest =>
      obtain ⟨bs, hbs, hform⟩ := hstep hnode hc
      obtain ⟨cs, hcs, hforms, heq⟩ := ih hrest (hbs.within hc)
      exact ⟨bs ++ cs, hbs.trans hcs, .cons hform hforms, heq⟩

theorem form_of_decodeNode (h : Answers (decodeNode e levels cursor) c n c') (hc : c.Within e) :
    ∃ bs, c.Passes bs c' ∧ NodeForm levels cursor c.dict bs n c'.dict := by
  induction levels generalizing cursor c n c' with
  | zero => simp [decodeNode] at h
  | succ levels ih =>
    cases answers_decodeNode.1 h with
    | leaf hheader hname hspan =>
      obtain rfl := eq_of_decodeChildrenHeader_none hheader
      obtain ⟨bs, hbs, hform, hvalid⟩ := form_of_decodeNodeName hname hc
      obtain ⟨cs, hcs, hspan, hdict⟩ := form_of_decodeNodeSpan hspan
      rw [hdict]
      exact ⟨bs ++ cs, hbs.trans hcs, .leaf (.mk hform hvalid hspan)⟩
    | inner hheader hname hspan hchildren hne =>
      obtain ⟨lo, hi, hlo, hpass, hdict, rfl, -⟩ := form_of_decodeChildrenHeader hheader
      have hc₁ := hpass.within hc
      obtain ⟨bs, hbs, hform, hvalid⟩ := form_of_decodeNodeName hname hc₁
      obtain ⟨cs, hcs, hspan, hdict'⟩ := form_of_decodeNodeSpan hspan
      obtain ⟨ds, hds, hforms, hstop⟩ :=
        form_of_decodeUntil ih hchildren (hcs.within (hbs.within hc₁))
      rw [hdict] at hform
      rw [hdict'] at hforms
      refine ⟨lo :: hi :: (bs ++ cs ++ ds), hpass.trans ((hbs.trans hcs).trans hds),
        .inner (.mk hform hvalid hspan) hforms hne hlo ?_⟩
      have := ((hbs.trans hcs).trans hds).pos_eq
      omega

/-! ## Whole blocks -/

/-- The root of a block, or the root over the nodes of a block, if roots are given a name. -/
def decodeBlock (e : Extent) (root? : Option String) (rawSize : Nat) : Decoding Node :=
  match root? with
  | none => decodeRoot e
  | some name => decodeChildrenOf e name rawSize

variable {root? : Option String} {rawSize : Nat} {root : Node} {block : Bytes}

theorem decodeBlock_of_form (h : BlockForm d rawSize root? block root d')
    (hsize : block.length = e.size) :
    Answers (decodeBlock e root? rawSize) ⟨0, block, d⟩ root ⟨block.length, [], d'⟩ := by
  cases h with
  | written h =>
    have hroot := decodeNode_of_form (e := e) h 0 [] (by simpa using hsize)
    rw [List.append_nil, Nat.zero_add] at hroot
    refine hroot.bind ?_
    rw [answers_get_bind, if_pos hsize]
    exact answers_pure.2 ⟨rfl, rfl⟩
  | omitted h =>
    have hcount := h.two_mul_le_length
    have hkids := decodeUntil_of_form (e := e) h 0 [] e.size (by simpa using hsize) (by omega)
    rw [List.append_nil, Nat.zero_add, hsize] at hkids
    rw [hsize]
    exact hkids.bind (answers_pure.2 ⟨rfl, rfl⟩)

/-- What is passed up to the end of a block is the block. -/
theorem Cursor.Passes.eq_block (h : Cursor.Passes ⟨0, block, d⟩ bs c) (hpos : c.pos = e.size)
    (hsize : block.length = e.size) : bs = block := by
  have hlen := congrArg List.length h.rest_eq
  have hend := h.pos_eq
  have hnil : c.rest = [] := by
    rw [← List.length_eq_zero_iff]
    simp at hlen hend
    omega
  simpa [hnil] using h.rest_eq.symm

theorem form_of_decodeBlock (h : Answers (decodeBlock e root? rawSize) ⟨0, block, d⟩ root c')
    (hsize : block.length = e.size) : BlockForm d rawSize root? block root c'.dict := by
  have hc : Cursor.Within e ⟨0, block, d⟩ := by simpa [Cursor.Within] using hsize
  cases root? with
  | none =>
    obtain ⟨found, c₁, hroot, h⟩ := answers_bind.1 h
    obtain ⟨bs, hbs, hform⟩ := form_of_decodeNode hroot hc
    rw [answers_get_bind] at h
    split at h
    · next hpos =>
      obtain ⟨rfl, rfl⟩ := answers_pure.1 h
      obtain rfl := hbs.eq_block hpos hsize
      exact .written hform
    · simp at h
  | some name =>
    obtain ⟨children, c₁, hkids, h⟩ := answers_bind.1 h
    obtain ⟨rfl, rfl⟩ := answers_pure.1 h
    obtain ⟨bs, hbs, hforms, hpos⟩ := form_of_decodeUntil form_of_decodeNode hkids hc
    obtain rfl := hbs.eq_block hpos hsize
    exact .omitted hforms

end SpanTree.Bill
