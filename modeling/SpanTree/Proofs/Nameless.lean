import SpanTree.Proofs.RoundTrip

/-!
# Nodes without a name

Encoding looks at the name of the root only. A node below the root may be nameless, since an empty
tree can be pushed, and is then written with the empty name; no reader accepts this name.

So a stream is read up to the first tree that has a nameless node below its root, and the frame of
this tree is answered by an error (`refuses_nameless`).
-/

namespace SpanTree

open Bill
open SpanTree.Stream (Action)

variable {d d' : Dictionary} {root? : Option String} {bs block rest : Bytes} {t : Tree}

/-! ## Blocks -/

namespace Bill

variable {e : Extent} {pos : Nat}

theorem EncodeRun.two_le_length {cursor depth : Nat} {n : Node}
    (h : EncodeRun cursor depth d n bs d') : 2 ≤ bs.length := by
  cases h with
  | leaf _ hname hspan =>
    have := (form_of_encodeName hname).length_pos
    have := (form_of_encodeSpan hspan).length_pos
    simp
    omega
  | inner _ _ _ _ _ hheader =>
    obtain ⟨lo, hi, rfl, -⟩ := encodeChildrenHeader_eq_ok hheader
    simp

theorem two_mul_le_length_of_encodeNodes {ns : List Node} {cursor depth : Nat}
    (h : Answers (encodeNodes cursor depth ns) d bs d') : 2 * ns.length ≤ bs.length := by
  induction ns generalizing cursor d bs with
  | nil => simp
  | cons n ns ih =>
    obtain ⟨cs, d₁, ds, hcs, hds, rfl⟩ := answers_encodeNodes_cons.1 h
    have := (answers_encodeNode.1 hcs).two_le_length
    have := ih hds
    simp
    omega

/-- The empty name is found, but it is no name for a node. -/
theorem decodeNodeName_nameless (h : NameForm d "" bs d')
    (hsize : pos + (bs ++ rest).length = e.size) :
    Fails (decodeNodeName e) ⟨pos, bs ++ rest, d⟩ (.invalidNodeName "")
      ⟨pos + bs.length, rest, d'⟩ := by
  refine (decodeName_of_form h hsize).bind_fails ?_
  rw [if_neg (by decide)]
  exact fails_throw.2 ⟨rfl, rfl⟩

/-- A nameless node is refused when its name is read, behind its header if it has one. -/
theorem decodeNode_empty {levels cursor depth start stop : Nat} {children : List Node}
    (h : EncodeRun cursor depth d ⟨"", start, stop, children⟩ bs d')
    (hsize : pos + (bs ++ rest).length = e.size) :
    ∃ c, Fails (decodeNode e (levels + 1) cursor) ⟨pos, bs ++ rest, d⟩ (.invalidNodeName "") c := by
  rw [decodeNode]
  cases h with
  | leaf _ hname _ =>
    have hform := form_of_encodeName hname
    rw [List.append_assoc] at hsize ⊢
    exact ⟨_, (decodeChildrenHeader_of_name hform _ _).bind_fails
      (decodeNodeName_nameless hform hsize).bind⟩
  | @inner _ _ _ _ as cs ds _ _ _ _ hname _ _ _ hheader =>
    have hform := form_of_encodeName hname
    obtain ⟨lo, hi, rfl, hlo, hlen⟩ := encodeChildrenHeader_eq_ok hheader
    simp only [List.cons_append, List.nil_append, List.append_assoc, List.length_cons,
      List.length_append] at hsize hlen ⊢
    have hfit : pos + 2 + childrenLength lo hi ≤ e.size := by omega
    have hopen := decodeChildrenHeader_some hlo hfit (as ++ (cs ++ (ds ++ rest))) d
    have hsize' : pos + 2 + (as ++ (cs ++ (ds ++ rest))).length = e.size := by
      simp only [List.length_append]
      omega
    exact ⟨_, hopen.bind_fails (decodeNodeName_nameless hform hsize').bind⟩

mutual

/-- Decoding a node comes upon the first nameless node in it. -/
theorem decodeNode_nameless : ∀ {n : Node} {levels cursor depth hi : Nat} {d d' : Dictionary}
    {bs : Bytes}, Answers (encodeNode cursor depth n) d bs d' →
    levels + depth = maxDepth + 1 → n.fits cursor hi = true →
    n.AllNames (fun s => s = "" ∨ Name.isNode s = true) → ¬ n.AllNames (· ≠ "") →
    ∀ (pos : Nat) (rest : Bytes), pos + (bs ++ rest).length = e.size →
    ∃ c, Fails (decodeNode e levels cursor) ⟨pos, bs ++ rest, d⟩ (.invalidNodeName "") c
  | ⟨name, start, stop, children⟩, levels, cursor, depth, hi, d, d', bs, h, hlevels,
      hfits, hnames, hnameless, pos, rest, hsize => by
    simp only [Node.fits, Bool.and_eq_true, decide_eq_true_eq] at hfits
    obtain ⟨⟨⟨hstart, -⟩, hstop⟩, hkids⟩ := hfits
    obtain ⟨levels, rfl⟩ : ∃ l, levels = l + 1 := ⟨levels - 1, by
      cases answers_encodeNode.1 h <;> omega⟩
    by_cases hempty : name = ""
    · subst hempty
      exact decodeNode_empty (answers_encodeNode.1 h) hsize
    have hvalid := hnames.1.resolve_left hempty
    have hbelow : ¬ Node.AllNamesIn (· ≠ "") children := fun hall => hnameless ⟨hempty, hall⟩
    rw [decodeNode]
    cases answers_encodeNode.1 h with
    | leaf => exact absurd trivial hbelow
    | @inner _ _ _ _ as cs ds _ d₁ _ hdepth hname hcs hchildren hne hheader =>
      have hform := form_of_encodeName hname
      obtain ⟨lo, hi, rfl, hlo, hlen⟩ := encodeChildrenHeader_eq_ok hheader
      have hlen' : as.length + cs.length + ds.length = childrenLength lo hi := by
        simpa [Nat.add_assoc] using hlen.symm
      simp only [List.cons_append, List.nil_append, List.append_assoc, List.length_cons,
        List.length_append] at hsize ⊢
      have hfit : pos + 2 + childrenLength lo hi ≤ e.size := by omega
      have hopen := decodeChildrenHeader_some hlo hfit (as ++ (cs ++ (ds ++ rest))) d
      have hcount := two_mul_le_length_of_encodeNodes hchildren
      have hlevels' : levels + (depth + 1) = maxDepth + 1 := by omega
      obtain ⟨c, hc⟩ := decodeUntil_nameless hchildren hlevels' hkids hnames.2 hbelow
        (pos + 2 + as.length + cs.length) rest e.size (by simp only [List.length_append]; omega)
        (by omega)
      have hsize' : pos + 2 + (as ++ (cs ++ (ds ++ rest))).length = e.size := by
        simp only [List.length_append]
        omega
      have hread := decodeNodeName_of_form hform hvalid hsize'
      have hspan := decodeNodeSpan_of_form (e := e) (form_of_encodeSpan hcs)
        (pos + 2 + as.length) (ds ++ rest) d₁
      refine ⟨c, hopen.bind_fails (hread.bind_fails (hspan.bind_fails (Fails.bind ?_)))⟩
      have hstop : pos + 2 + childrenLength lo hi =
          pos + 2 + as.length + cs.length + ds.length := by omega
      rwa [show cursor + (start - cursor) = start by omega, hstop]

theorem decodeUntil_nameless : ∀ {ns : List Node} {levels cursor depth hi : Nat} {d d' : Dictionary}
    {bs : Bytes}, Answers (encodeNodes cursor depth ns) d bs d' →
    levels + depth = maxDepth + 1 →
    Node.fitsAll cursor hi ns = true →
    Node.AllNamesIn (fun s => s = "" ∨ Name.isNode s = true) ns → ¬ Node.AllNamesIn (· ≠ "") ns →
    ∀ (pos : Nat) (rest : Bytes) (bytesLeft : Nat), pos + (bs ++ rest).length = e.size →
    ns.length ≤ bytesLeft →
    ∃ c, Fails (decodeUntil e (decodeNode e levels) (pos + bs.length) bytesLeft cursor)
      ⟨pos, bs ++ rest, d⟩ (.invalidNodeName "") c
  | [], _, _, _, _, _, _, _, _, _, _, _, hnameless, _, _, _, _, _ => absurd trivial hnameless
  | n :: ns, levels, cursor, depth, hi, d, d', bs, h, hlevels, hfits, hnames, hnameless,
      pos, rest, bytesLeft + 1, hsize, hcount => by
    simp only [Node.fitsAll, Bool.and_eq_true] at hfits
    obtain ⟨cs, d₁, ds, hcs, hds, rfl⟩ := answers_encodeNodes_cons.1 h
    have hpos := (answers_encodeNode.1 hcs).two_le_length
    rw [List.append_assoc] at hsize ⊢
    rw [decodeUntil, List.length_append, ← Nat.add_assoc]
    have hmore : pos < pos + cs.length + ds.length := by omega
    by_cases hnamed : n.AllNames (· ≠ "")
    · have hform := form_of_encodeNode hcs hlevels hfits.1
        ((hnames.1.and hnamed).mono fun _ h => h.1.resolve_left h.2)
      obtain ⟨c, hc⟩ := decodeUntil_nameless hds hlevels hfits.2 hnames.2
        (fun hall => hnameless ⟨hnamed, hall⟩) (pos + cs.length) rest bytesLeft
        (by simp at hsize ⊢; omega) (by simpa using hcount)
      refine ⟨c, ?_⟩
      show Fails (if pos < pos + cs.length + ds.length then _ else _) _ _ _
      rw [if_pos hmore]
      exact (decodeNode_of_form hform _ _ hsize).bind_fails hc.bind
    · obtain ⟨c, hc⟩ := decodeNode_nameless hcs hlevels hfits.1 hnames.1 hnamed
        _ _ hsize
      refine ⟨c, ?_⟩
      show Fails (if pos < pos + cs.length + ds.length then _ else _) _ _ _
      rw [if_pos hmore]
      exact hc.bind

end

theorem decodeBlock_nameless (h : Answers (encodeTree t (.ofName root?)) d block d')
    (ht : t.WellFormed) (hnameless : ¬ t.NamedBelowRoot) (hsize : block.length = e.size) :
    ∃ c, Fails (decodeBlock e root? t.raw.length) ⟨0, block, d⟩ (.invalidNodeName "") c := by
  obtain ⟨hstart, -, hfits⟩ := Tree.isValid_iff.1 ht.isValid
  cases root? with
  | none =>
    simp only [RootMode.ofName, encodeTree] at h
    split at h
    · simp at h
    · rw [hstart] at h
      have hlevels : maxDepth + 1 + 0 = maxDepth + 1 := rfl
      obtain ⟨c, hc⟩ := decodeNode_nameless (e := e) h hlevels
        (Tree.fits_of_isValid ht.isValid) ht.names
        (fun hall => hnameless (Node.allNames_iff.1 hall).2) 0 [] (by simpa using hsize)
      rw [List.append_nil] at hc
      exact ⟨c, hc.bind⟩
  | some name =>
    simp only [RootMode.ofName, encodeTree, hstart] at h
    have hcount := two_mul_le_length_of_encodeNodes h
    have hlevels : maxDepth + 1 = maxDepth + 1 := rfl
    obtain ⟨c, hc⟩ := decodeUntil_nameless (e := e) h hlevels hfits
      (Node.allNames_iff.1 ht.names).2 hnameless 0 [] e.size (by simpa using hsize) (by omega)
    rw [List.append_nil, Nat.zero_add, hsize] at hc
    exact ⟨c, hc.bind⟩

end Bill

/-! ## Frames -/

namespace Reader

variable {r r' : Reader} {raw : Bytes} {err : Error}

theorem fails_decoding {m : Decoding Node} {c : Cursor} (h : Fails m ⟨0, block, r.dict⟩ err c) :
    Fails (decoding block m) r err { r with dict := c.dict } := by
  have hrun : m.run.run ⟨0, block, r.dict⟩ = (.error err, c) := h
  rw [decoding, fails_get_bind, hrun]
  exact fails_set_bind.2 (fails_liftExcept.2 ⟨rfl, rfl⟩)

/-- A block that cannot be decoded makes its frame an error. -/
theorem next_of_decodeBlock_fails (hr : r.Consistent) (hfinished : r.isFinished = false)
    (hrest : r.rest = Stream.frame raw block ++ rest)
    (hsize : (Stream.frame raw block).length ≤ terminator)
    (h : ∀ e : Extent, block.length = e.size →
      ∃ c, Fails (decodeBlock e r.rootName raw.length) ⟨0, block, r.dict⟩ err c) :
    r.next.result = .error err := by
  obtain ⟨hraw, hblock⟩ := length_le_frame raw block
  have hpass := passes_skip hrest
  obtain ⟨r₃, hpass₃, hdict₃, hover⟩ := hpass.split r.dict
  obtain ⟨r₂, hpass₂, hdict₂, hlength⟩ := hpass₃.split r.dict
  obtain ⟨r₁, hpass₁, hdict₁, hbytes⟩ := hpass₂.split r.dict
  obtain ⟨c, hc⟩ := h ⟨r₃.position, block.length⟩ rfl
  have hrawLength : Answers readLength r raw.length r₁ :=
    answers_readLength.2 ⟨_, Varint.form_encode_of_le (by omega), hpass₁, hdict₁⟩
  have hrawTaken : Answers (take raw.length) r₁ raw r₂ :=
    (answers_take (hpass₁.consistent hr)).2 ⟨rfl, hbytes, hdict₂.trans hdict₁.symm⟩
  have hblockLength : Answers readLength r₂ block.length r₃ :=
    answers_readLength.2
      ⟨_, Varint.form_encode_of_le (by omega), hlength, hdict₃.trans hdict₂.symm⟩
  have hblockTaken :
      Answers (take block.length) r₃ block (r.skip (Stream.frame raw block).length) :=
    (answers_take (hpass₃.consistent hr)).2 ⟨rfl, hover, hdict₃.symm⟩
  have hframe : Fails (readFrame raw.length) r₁ err
      { r.skip (Stream.frame raw block).length with dict := c.dict } := by
    rw [readFrame]
    refine hrawTaken.bind_fails (hblockLength.bind_fails ?_)
    rw [fails_get_bind]
    refine hblockTaken.bind_fails (Fails.bind (fails_decoding ?_))
    rw [hpass₃.rootName_eq]
    exact hc
  have htree : Fails readTree r err
      { r.skip (Stream.frame raw block).length with dict := c.dict } := by
    rw [readTree, fails_get_bind, if_neg (hpass.not_over hr hfinished (by omega))]
    refine hrawLength.bind_fails ?_
    rw [if_neg (by omega)]
    exact hframe.bind
  exact (next_of_fails htree).1

/-- Of two ways to read on, the shorter one can be continued. -/
theorem Yields.continues {r'' : Reader} {ts us : List Tree} (h : r.Yields ts r')
    (h' : r.Yields us r'') (hlt : ts.length < us.length) : ∃ t, r'.next.result = .ok (some t) := by
  induction h generalizing us with
  | nil =>
    cases h' with
    | nil => simp at hlt
    | cons h' _ => exact ⟨_, h'⟩
  | cons h _ ih =>
    cases h' with
    | nil => simp at hlt
    | cons _ hrest => exact ih hrest (by simpa using hlt)

end Reader

/-! ## Streams -/

theorem exists_first_not {α : Type} {P : α → Prop} {as : List α} (h : ¬ ∀ a ∈ as, P a) :
    ∃ bs a cs, as = bs ++ a :: cs ∧ (∀ b ∈ bs, P b) ∧ ¬ P a := by
  induction as with
  | nil => simp at h
  | cons a as ih =>
    by_cases ha : P a
    · obtain ⟨bs, b, cs, rfl, hbs, hb⟩ := ih fun hall => h (by simpa [ha] using hall)
      exact ⟨a :: bs, b, cs, rfl, by simpa [ha] using hbs, hb⟩
    · exact ⟨[], a, as, rfl, by simp, ha⟩

namespace Session

variable {setup body : List Action}

/-- What a reader answers behind the frames of trees without nameless nodes. -/
theorem next_after_frames {bytes data : Bytes} {before after : List Tree}
    (hroot : ∀ name ∈ root?, Name.isNode name = true)
    (hframes : Frames (.ofName root?) (Dictionary.ofCapacity dictionarySize) (before ++ t :: after)
      bytes d')
    (hts : ∀ u ∈ before ++ t :: after, u.WellFormed) (hbefore : ∀ u ∈ before, u.NamedBelowRoot)
    (hdata : data = header ++ bytes) (hsize : bytes.length ≤ terminator) :
    ∃ r', (Reader.opened data root?).Yields (before.map (·.readAs root?)) r' ∧
      (t.NamedBelowRoot → r'.next.result = .ok (some (t.readAs root?))) ∧
      (¬ t.NamedBelowRoot → r'.next.result = .error (.invalidNodeName "")) := by
  obtain ⟨bs, cs, d, hbs, hcs, rfl⟩ := hframes.split
  have hlen := congrArg List.length hdata
  rw [List.length_append] at hsize
  rw [List.length_append, List.length_append] at hlen
  have hforms := forms_of_frames hbs
    (fun u hu => ⟨hts u (List.mem_append_left _ hu), hbefore u hu⟩) (by omega)
  have hyields := (yields_of_forms hroot hforms hdata).2
  have ht := hts t (by simp)
  generalize hr' : Reader.mk data.length (header.length + bs.length) cs d root? false = r'
    at hyields
  have hr : r'.Consistent := by
    subst hr'
    simp only [Reader.Consistent]
    omega
  cases hcs with
  | @cons _ d₁ _ _ _ block rest h _ =>
    rw [List.length_append] at hsize
    refine ⟨r', hyields, ?_, ?_⟩
    · intro hnamed
      have hform := form_of_frame h ht hnamed (by omega)
      have hpass : r'.Passes (Stream.frame t.raw block)
          { r'.skip (Stream.frame t.raw block).length with dict := d₁ } := by
        subst hr'
        exact ⟨by simp [Reader.skip], rfl, rfl, rfl, rfl⟩
      subst hr'
      exact (Reader.next_eq.2 ((Reader.answers_readTree_some hr).2 ⟨rfl, _, hform, hpass⟩)).1
    · intro hnameless
      subst hr'
      apply Reader.next_of_decodeBlock_fails hr rfl rfl (by omega)
      intro e he
      exact decodeBlock_nameless h ht hnameless he

/-- **Exactly the trees without nameless nodes are read back.** Trees that can be made are appended
to a stream. A reader gives as many trees as were accepted if and only if none of them has a
nameless node below its root. In front of the frame of an accepted tree, all trees before which are
of this kind, it answers the tree if it is of this kind as well, and otherwise the error that the
empty name is invalid. -/
theorem refuses_nameless (hroot : ∀ name ∈ root?, Name.isNode name = true)
    (hsetup : Setup (.ofName root?) setup) (hbody : ∀ action ∈ body, action.Grows Tree.Made)
    (hsize : (fresh.run (setup ++ body)).written.length ≤ terminator) :
    ∃ r, Command.openReader (fresh.run (setup ++ body)).written root? = .ok r ∧
      ((∃ ts r', r.Yields ts r' ∧ ts.length = (fresh.run (setup ++ body)).accepted.length) ↔
        ∀ t ∈ (fresh.run (setup ++ body)).accepted, t.NamedBelowRoot) ∧
      ∀ before t after, (fresh.run (setup ++ body)).accepted = before ++ t :: after →
        (∀ u ∈ before, u.NamedBelowRoot) →
        ∃ r', r.Yields (before.map (·.readAs root?)) r' ∧
          (t.NamedBelowRoot → r'.next.result = .ok (some (t.readAs root?))) ∧
          (¬ t.NamedBelowRoot → r'.next.result = .error (.invalidNodeName "")) := by
  obtain ⟨bytes, hwritten, hframes, hts⟩ := run_body hsetup hbody
  generalize (fresh.run (setup ++ body)).written = data at *
  generalize (fresh.run (setup ++ body)).accepted = accepted at *
  have hlen := congrArg List.length hwritten
  rw [List.length_append] at hlen
  have hsize' : bytes.length ≤ terminator := by omega
  have hopen := openReader_eq_ok.2 ⟨⟨_, hwritten⟩, hroot, rfl⟩
  have hprefix := fun before t after (heq : accepted = before ++ t :: after) hbefore =>
    next_after_frames hroot (heq ▸ hframes) (fun u hu => (hts u (heq ▸ hu)).wellFormed) hbefore
      hwritten hsize'
  refine ⟨_, hopen, ⟨?_, ?_⟩, hprefix⟩
  · rintro ⟨ts, r', hyields, hcount⟩
    apply Classical.byContradiction
    intro hnot
    obtain ⟨before, t, after, rfl, hbefore, hnameless⟩ := exists_first_not hnot
    obtain ⟨r'', hyields', -, herror⟩ := hprefix before t after rfl hbefore
    obtain ⟨u, hu⟩ := hyields'.continues hyields (by simp [hcount])
    rw [herror hnameless] at hu
    cases hu
  · intro hnamed
    have hforms := forms_of_frames hframes
      (fun t ht => ⟨(hts t ht).wellFormed, hnamed t ht⟩) hsize'
    rw [← List.append_nil bytes] at hwritten
    exact ⟨_, _, (yields_of_forms hroot hforms hwritten).2, by simp⟩

/-- A root into which the empty tree was pushed is accepted, and its frame is refused. -/
theorem refuses_pushed_empty :
    let s := fresh.run ([.header] ++ [.append ⟨⟨"$", 0, 0, [⟨"", 0, 0, []⟩]⟩, []⟩])
    s.accepted = [⟨⟨"$", 0, 0, [⟨"", 0, 0, []⟩]⟩, []⟩] ∧
      ∃ r, Command.openReader s.written none = .ok r ∧
        r.next.result = .error (.invalidNodeName "") := by
  have hmade : Tree.Made ⟨⟨"$", 0, 0, [⟨"", 0, 0, []⟩]⟩, []⟩ :=
    .push (@Tree.Made.named "$" _ rfl) .empty
  have haccepted : (fresh.run ([.header] ++
      [.append ⟨⟨"$", 0, 0, [⟨"", 0, 0, []⟩]⟩, []⟩])).accepted =
        [⟨⟨"$", 0, 0, [⟨"", 0, 0, []⟩]⟩, []⟩] := by decide +kernel
  refine ⟨haccepted, ?_⟩
  have hsetup : Setup (.ofName none) [.header] := ⟨by simp, by decide, by simp [RootMode.ofName]⟩
  have hbody : ∀ action ∈ [Action.append ⟨⟨"$", 0, 0, [⟨"", 0, 0, []⟩]⟩, []⟩],
      action.Grows Tree.Made := by simpa [Action.Grows] using hmade
  obtain ⟨r, hopen, -, hprefix⟩ := refuses_nameless (by simp) hsetup hbody (by decide +kernel)
  obtain ⟨r', hyields, -, herror⟩ := hprefix [] _ [] haccepted (by simp)
  cases hyields
  exact ⟨r, hopen, herror (by simp [Tree.NamedBelowRoot, Node.AllNamesIn, Node.AllNames])⟩

end Session

end SpanTree
