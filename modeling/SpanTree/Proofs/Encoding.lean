import SpanTree.Bill.Encode
import SpanTree.Proofs.Computation
import SpanTree.Proofs.Grammar

/-!
# Encoding writes what the grammar derives

Where encoding answers a block and the names are valid, the grammar derives the node from that block
(`form_of_encodeNode`), whatever the dictionary: an index that does not fit six bits is not written.
Conversely every derived node can be encoded, from the same dictionary to the same dictionary, in no
more bytes than it was derived from (`encodeNode_of_form`): each limit of the encoder is implied by
the grammar, and each of its choices is the shortest one. Here the dictionary is that of a stream,
since a name in full may be one that another dictionary has at an index above 63.

Encoding only adds names, also where it fails.
-/

namespace SpanTree

/-! ## Names that have an index -/

namespace Dictionary

variable {d d' : Dictionary}

/-- The dictionary of a stream: each of its names can be written as an index. -/
structure Indexable (d : Dictionary) : Prop extends WellFormed d where
  capacity_le : d.capacity ≤ Bill.dictionarySize

theorem indexable_ofCapacity : (ofCapacity Bill.dictionarySize).Indexable :=
  ⟨wellFormed_ofCapacity _, Nat.le_refl _⟩

theorem Indexable.reset (hd : d.Indexable) : d.reset.Indexable :=
  ⟨.reset d, hd.capacity_le⟩

theorem Learns.indexable (h : d.Learns d') (hd : d.Indexable) : d'.Indexable := by
  refine ⟨h.wellFormed hd.toWellFormed, ?_⟩
  rw [h.extends.capacity_eq]
  exact hd.capacity_le

theorem Indexable.find_lt {name : String} {i : Nat} (hd : d.Indexable)
    (h : d.find name = .index i) : i < Bill.dictionarySize := by
  have hlt := lt_size_of_name? (name?_of_find h)
  exact Nat.lt_of_lt_of_le hlt (Nat.le_trans hd.size_le hd.capacity_le)

end Dictionary

/-- The names that the block of a tree is written from, in their order. -/
def Tree.writtenNames (mode : Bill.RootMode) (t : Tree) : List String :=
  match mode with
  | .written => t.root.names
  | .omitted => Node.namesAll t.root.children

namespace Bill

variable {levels cursor depth hi rawSize : Nat} {d d' : Dictionary} {bs : Bytes} {name : String}
  {n : Node} {ns : List Node} {root? : Option String}

/-! ## The ways to an answer -/

/-- How the encoding of a node comes to an answer. -/
inductive EncodeRun (cursor depth : Nat) (d : Dictionary) : Node → Bytes → Dictionary → Prop
  | leaf {name : String} {start stop : Nat} {bs cs : Bytes} {d' : Dictionary}
      (hdepth : depth ≤ maxDepth) (hname : Answers (encodeName name) d bs d')
      (hspan : encodeSpan (start - cursor) (stop - start) = .ok cs) :
      EncodeRun cursor depth d ⟨name, start, stop, []⟩ (bs ++ cs) d'
  | inner {name : String} {start stop : Nat} {children : List Node} {bs cs ds header : Bytes}
      {d' d'' : Dictionary}
      (hdepth : depth ≤ maxDepth) (hname : Answers (encodeName name) d bs d')
      (hspan : encodeSpan (start - cursor) (stop - start) = .ok cs)
      (hchildren : Answers (encodeNodes start (depth + 1) children) d' ds d'')
      (hne : children ≠ []) (hheader : encodeChildrenHeader (bs ++ cs ++ ds).length = .ok header) :
      EncodeRun cursor depth d ⟨name, start, stop, children⟩ (header ++ (bs ++ cs ++ ds)) d''

theorem answers_encodeNode :
    Answers (encodeNode cursor depth n) d bs d' ↔ EncodeRun cursor depth d n bs d' := by
  obtain ⟨name, start, stop, children⟩ := n
  rw [encodeNode]
  constructor
  · intro h
    split at h
    · obtain ⟨_, _, h, -⟩ := answers_bind.1 h
      simp at h
    · next hdepth =>
      obtain ⟨nameBytes, d₁, hname, h⟩ := answers_bind.1 h
      obtain ⟨spanBytes, _, hlift, h⟩ := answers_bind.1 h
      obtain ⟨hspan, rfl⟩ := answers_liftExcept.1 hlift
      obtain ⟨inner, d₂, hchildren, h⟩ := answers_bind.1 h
      cases children with
      | nil =>
        rw [encodeNodes] at hchildren
        obtain ⟨rfl, rfl⟩ := answers_pure.1 hchildren
        obtain ⟨rfl, rfl⟩ := answers_pure.1 h
        rw [List.append_nil]
        exact .leaf (by omega) hname hspan
      | cons n ns =>
        obtain ⟨header, _, hlift', h⟩ := answers_bind.1 h
        obtain ⟨hheader, rfl⟩ := answers_liftExcept.1 hlift'
        obtain ⟨rfl, rfl⟩ := answers_pure.1 h
        exact .inner (by omega) hname hspan hchildren (by simp) hheader
  · intro h
    cases h with
    | leaf hdepth hname hspan =>
      rw [if_neg (by omega)]
      refine hname.bind (.bind (answers_liftExcept.2 ⟨hspan, rfl⟩)
        (.bind (answers_pure.2 ⟨rfl, rfl⟩) ?_))
      rw [List.append_nil]
      exact answers_pure.2 ⟨rfl, rfl⟩
    | inner hdepth hname hspan hchildren hne hheader =>
      rw [if_neg (by omega)]
      refine hname.bind (.bind (answers_liftExcept.2 ⟨hspan, rfl⟩) (hchildren.bind ?_))
      rw [if_neg (by simpa using hne)]
      exact .bind (answers_liftExcept.2 ⟨hheader, rfl⟩) (answers_pure.2 ⟨rfl, rfl⟩)

theorem answers_encodeNodes_nil :
    Answers (encodeNodes cursor depth []) d bs d' ↔ bs = [] ∧ d' = d := by
  rw [encodeNodes, answers_pure]
  simp [eq_comm]

theorem answers_encodeNodes_cons :
    Answers (encodeNodes cursor depth (n :: ns)) d bs d' ↔
      ∃ cs d₁ ds, Answers (encodeNode cursor depth n) d cs d₁ ∧
        Answers (encodeNodes n.stop depth ns) d₁ ds d' ∧ bs = cs ++ ds := by
  rw [encodeNodes]
  constructor
  · intro h
    obtain ⟨cs, d₁, hcs, h⟩ := answers_bind.1 h
    obtain ⟨ds, d₂, hds, h⟩ := answers_bind.1 h
    obtain ⟨rfl, rfl⟩ := answers_pure.1 h
    exact ⟨cs, d₁, ds, hcs, hds, rfl⟩
  · rintro ⟨cs, d₁, ds, hcs, hds, rfl⟩
    exact hcs.bind (hds.bind (answers_pure.2 ⟨rfl, rfl⟩))

/-! ## Names -/

/-- How the encoding of a name comes to an answer. -/
inductive NameRun (d : Dictionary) (name : String) : Bytes → Prop
  | index {i : Nat} (h : d.find name = .index i) (hlt : i < dictionarySize) :
      NameRun d name [UInt8.ofNat i]
  | full {bs : Bytes} (h : ∀ i, d.find name ≠ .index i) (hfull : encodeFullName name = .ok bs) :
      NameRun d name bs

/-- Whichever way a name is written, it is known from then on, if there is room. -/
theorem answers_encodeName :
    Answers (encodeName name) d bs d' ↔ NameRun d name bs ∧ d' = d.learn name := by
  rw [encodeName, answers_get_bind]
  constructor
  · intro h
    cases hfind : d.find name with
    | index i =>
      simp only [hfind] at h
      by_cases hlt : i < dictionarySize
      · rw [if_pos hlt] at h
        obtain ⟨rfl, rfl⟩ := answers_pure.1 h
        exact ⟨.index hfind hlt, (Dictionary.learn_of_find_index hfind).symm⟩
      · rw [if_neg hlt] at h
        exact absurd h answers_throw
    | notFound =>
      rw [hfind] at h
      obtain ⟨hcs, rfl⟩ := answers_liftExcept.1 (answers_modify_bind.1 h)
      exact ⟨.full (by simp [hfind]) hcs, rfl⟩
    | overflow =>
      rw [hfind] at h
      obtain ⟨hcs, rfl⟩ := answers_liftExcept.1 h
      exact ⟨.full (by simp [hfind]) hcs, (Dictionary.learn_of_find_overflow hfind).symm⟩
    | duplicate => exact absurd hfind Dictionary.find_ne_duplicate
  · intro h
    obtain ⟨hrun, rfl⟩ := h
    cases hrun with
    | index hfind hlt =>
      simp only [hfind, if_pos hlt, Dictionary.learn_of_find_index hfind]
      exact answers_pure.2 ⟨rfl, rfl⟩
    | full hne hfull =>
      cases hfind : d.find name with
      | index i => exact absurd hfind (hne i)
      | notFound => exact answers_modify_bind.2 (answers_liftExcept.2 ⟨hfull, rfl⟩)
      | overflow =>
        rw [Dictionary.learn_of_find_overflow hfind]
        exact answers_liftExcept.2 ⟨hfull, rfl⟩
      | duplicate => exact absurd hfind Dictionary.find_ne_duplicate

theorem learned_encodeName (h : Answers (encodeName name) d bs d') : d' = d.learn name :=
  (answers_encodeName.1 h).2

theorem toNat_index {i : Nat} (hlt : i < dictionarySize) : (UInt8.ofNat i).toNat = i := by
  rw [dictionarySize] at hlt
  simp only [UInt8.toNat_ofNat']
  omega

theorem form_of_encodeName (h : Answers (encodeName name) d bs d') : NameForm d name bs d' := by
  obtain ⟨hrun, rfl⟩ := answers_encodeName.1 h
  cases hrun with
  | index hfind hlt =>
    have hname := Dictionary.name?_of_find hfind
    rw [Dictionary.learn_of_find_index hfind]
    exact .index (by rwa [toNat_index hlt]) (by rwa [toNat_index hlt])
  | full _ hfull =>
    obtain ⟨lo, hi, rfl, hlo, hlo', hlen⟩ := encodeFullName_eq_ok hfull
    exact .full hlo hlo' hlen

theorem encodeName_of_form (h : NameForm d name bs d') (hd : d.Indexable) :
    ∃ cs, Answers (encodeName name) d cs d' ∧ cs.length ≤ bs.length := by
  cases h with
  | @index b hb hname =>
    have hfind := Dictionary.find_of_name? hd.toWellFormed hname
    refine ⟨_, answers_encodeName.2 ⟨.index hfind hb, ?_⟩, Nat.le_refl 1⟩
    exact (Dictionary.learn_of_find_index hfind).symm
  | full hlo hlo' hlen =>
    by_cases hknown : ∃ i, d.find name = .index i
    · obtain ⟨i, hfind⟩ := hknown
      exact ⟨_, answers_encodeName.2 ⟨.index hfind (hd.find_lt hfind), rfl⟩, by simp⟩
    · obtain ⟨cs, hcs, hcslen⟩ := encodeFullName_of_le (hlen ▸ fullNameLength_le _ _)
      refine ⟨cs, answers_encodeName.2 ⟨.full ?_ hcs, rfl⟩, by simp; omega⟩
      intro i hfind
      exact hknown ⟨i, hfind⟩

/-! ## Nodes -/

mutual

/-- The names of a node are met in pre-order. -/
theorem learned_encodeNode : ∀ {n : Node} {cursor depth : Nat} {d d' : Dictionary} {bs : Bytes},
    Answers (encodeNode cursor depth n) d bs d' → d' = n.names.foldl Dictionary.learn d
  | ⟨name, start, stop, children⟩, cursor, depth, d, d', bs, h => by
    cases answers_encodeNode.1 h with
    | leaf _ hname => exact learned_encodeName hname
    | inner _ hname _ hchildren =>
      obtain rfl := learned_encodeName hname
      exact learned_encodeNodes hchildren

theorem learned_encodeNodes : ∀ {ns : List Node} {cursor depth : Nat} {d d' : Dictionary}
    {bs : Bytes}, Answers (encodeNodes cursor depth ns) d bs d' →
    d' = (Node.namesAll ns).foldl Dictionary.learn d
  | [], _, _, _, _, _, h => (answers_encodeNodes_nil.1 h).2
  | n :: ns, cursor, depth, d, d', bs, h => by
    obtain ⟨cs, d₁, ds, hcs, hds, -⟩ := answers_encodeNodes_cons.1 h
    obtain rfl := learned_encodeNode hcs
    rw [Node.namesAll, List.foldl_append]
    exact learned_encodeNodes hds

end

mutual

theorem form_of_encodeNode : ∀ {n : Node} {levels cursor depth hi : Nat} {d d' : Dictionary}
    {bs : Bytes}, Answers (encodeNode cursor depth n) d bs d' →
    levels + depth = maxDepth + 1 → n.fits cursor hi = true →
    n.AllNames (Name.isNode · = true) → NodeForm levels cursor d bs n d'
  | ⟨name, start, stop, children⟩, levels, cursor, depth, hi, d, d', bs, h, hlevels, hfits,
      hnames => by
    simp only [Node.fits, Bool.and_eq_true, decide_eq_true_eq] at hfits
    obtain ⟨⟨⟨hstart, -⟩, hstop⟩, hkids⟩ := hfits
    have hspan {cs : Bytes} (hcs : encodeSpan (start - cursor) (stop - start) = .ok cs)
        {as : Bytes} {d₁ : Dictionary} (hname : NameForm d name as d₁) :
        HeadForm cursor d (as ++ cs) name start stop d₁ := by
      have hhead : HeadForm cursor d (as ++ cs) name (cursor + (start - cursor))
          (cursor + (start - cursor) + (stop - start)) d₁ :=
        .mk hname hnames.1 (form_of_encodeSpan hcs)
      rwa [show cursor + (start - cursor) = start by omega,
        show start + (stop - start) = stop by omega] at hhead
    cases answers_encodeNode.1 h with
    | leaf hdepth hname hcs =>
      obtain ⟨levels, rfl⟩ : ∃ l, levels = l + 1 := ⟨levels - 1, by omega⟩
      exact .leaf (hspan hcs (form_of_encodeName hname))
    | @inner _ _ _ _ as cs ds _ _ _ hdepth hname hcs hchildren hne hheader =>
      obtain ⟨levels, rfl⟩ : ∃ l, levels = l + 1 := ⟨levels - 1, by omega⟩
      have hform := form_of_encodeName hname
      have hlevels' : levels + (depth + 1) = maxDepth + 1 := by omega
      have hforms := form_of_encodeNodes hchildren hlevels' hkids hnames.2
      obtain ⟨lo, hi, rfl, hlo, hlen⟩ := encodeChildrenHeader_eq_ok hheader
      exact @NodeForm.inner _ _ _ _ _ _ _ (as ++ cs) ds _ _ _ _ (hspan hcs hform) hforms hne hlo
        hlen

theorem form_of_encodeNodes : ∀ {ns : List Node} {levels cursor depth hi : Nat} {d d' : Dictionary}
    {bs : Bytes}, Answers (encodeNodes cursor depth ns) d bs d' → levels + depth = maxDepth + 1 →
    Node.fitsAll cursor hi ns = true → Node.AllNamesIn (Name.isNode · = true) ns →
    NodesForm levels cursor d bs ns d'
  | [], _, _, _, _, _, _, _, h, _, _, _ => by
    obtain ⟨rfl, rfl⟩ := answers_encodeNodes_nil.1 h
    exact .nil
  | n :: ns, levels, cursor, depth, hi, d, d', bs, h, hlevels, hfits, hnames => by
    simp only [Node.fitsAll, Bool.and_eq_true] at hfits
    obtain ⟨cs, d₁, ds, hcs, hds, rfl⟩ := answers_encodeNodes_cons.1 h
    have hform := form_of_encodeNode hcs hlevels hfits.1 hnames.1
    exact .cons hform (form_of_encodeNodes hds hlevels hfits.2 hnames.2)

end

mutual

theorem encodeNode_of_form : ∀ {levels cursor d bs n d'}, NodeForm levels cursor d bs n d' →
    ∀ (depth : Nat), d.Indexable → levels + depth = maxDepth + 1 →
    ∃ cs, Answers (encodeNode cursor depth n) d cs d' ∧ cs.length ≤ bs.length
  | _, cursor, d, _, _, d', .leaf hhead, depth, hd, hlevels => by
    cases hhead with
    | mk hname _ hspan =>
      obtain ⟨as, has, haslen⟩ := encodeName_of_form hname hd
      obtain ⟨cs, hcs, hcslen⟩ := encodeSpan_of_form hspan
      refine ⟨as ++ cs, answers_encodeNode.2 (.leaf (by omega) has ?_), ?_⟩
      · simpa using hcs
      · simp only [List.length_append]
        omega
  | _, cursor, d, _, _, d', @NodeForm.inner _ _ _ _ _ _ _ _ _ _ lo hi _ hhead hchildren hne hlo
      hlen, depth, hd, hlevels => by
    cases hhead with
    | mk hname _ hspan =>
      obtain ⟨as, has, haslen⟩ := encodeName_of_form hname hd
      obtain ⟨cs, hcs, hcslen⟩ := encodeSpan_of_form hspan
      obtain ⟨ds, hds, hdslen⟩ := encodeNodes_of_form hchildren (depth + 1)
        (hname.learns.indexable hd) (by omega)
      have hle : (as ++ cs ++ ds).length ≤ childrenLength lo hi := by
        rw [hlen]
        simp only [List.length_append]
        omega
      obtain ⟨header, hheader, hheaderlen⟩ :=
        encodeChildrenHeader_of_le (Nat.le_trans hle (childrenLength_le _ _))
      refine ⟨header ++ (as ++ cs ++ ds),
        answers_encodeNode.2 (.inner (by omega) has ?_ hds hne hheader), ?_⟩
      · simpa using hcs
      · simp only [List.length_append, List.length_cons]
        omega

theorem encodeNodes_of_form : ∀ {levels cursor d bs ns d'}, NodesForm levels cursor d bs ns d' →
    ∀ (depth : Nat), d.Indexable → levels + depth = maxDepth + 1 →
    ∃ cs, Answers (encodeNodes cursor depth ns) d cs d' ∧ cs.length ≤ bs.length
  | _, _, _, _, _, _, .nil, _, _, _ =>
    ⟨[], answers_encodeNodes_nil.2 ⟨rfl, rfl⟩, Nat.le_refl _⟩
  | _, _, _, _, _, _, .cons hnode hrest, depth, hd, hlevels => by
    obtain ⟨cs, hcs, hcslen⟩ := encodeNode_of_form hnode depth hd hlevels
    obtain ⟨ds, hds, hdslen⟩ := encodeNodes_of_form hrest depth
      (hnode.learns.indexable hd) hlevels
    refine ⟨cs ++ ds, answers_encodeNodes_cons.2 ⟨cs, _, ds, hcs, hds, rfl⟩, ?_⟩
    simp only [List.length_append]
    omega

end

/-! ## Trees -/

/-- Roots are not written where reading gives them their name. -/
def RootMode.ofName : Option String → RootMode
  | none => .written
  | some _ => .omitted

theorem encodeTree_readAs (t : Tree) :
    encodeTree (t.readAs root?) (.ofName root?) = encodeTree t (.ofName root?) := by
  cases root? <;> rfl

variable {t : Tree} {block : Bytes} {mode : RootMode}

theorem learned_encodeTree (h : Answers (encodeTree t mode) d block d') :
    d' = (t.writtenNames mode).foldl Dictionary.learn d := by
  cases mode with
  | written =>
    simp only [encodeTree] at h
    split at h
    · simp at h
    · exact learned_encodeNode h
  | omitted => exact learned_encodeNodes h

theorem form_of_encodeTree (h : Answers (encodeTree t (.ofName root?)) d block d')
    (ht : t.WellFormed) (hnamed : t.NamedBelowRoot) :
    BlockForm d t.raw.length root? block (t.readAs root?).root d' := by
  obtain ⟨hstart, hstop, hfits⟩ := Tree.isValid_iff.1 ht.isValid
  have hkids := ht.isNode_below hnamed
  cases root? with
  | none =>
    simp only [RootMode.ofName, encodeTree] at h
    split at h
    · simp at h
    · next hne =>
      have hname : Name.isNode t.root.name = true :=
        (Node.allNames_iff.1 ht.names).1.resolve_left (by simpa [Tree.rootName] using hne)
      rw [hstart] at h
      exact .written (form_of_encodeNode h rfl (Tree.fits_of_isValid ht.isValid)
        (Node.allNames_iff.2 ⟨hname, hkids⟩))
  | some name =>
    simp only [RootMode.ofName, encodeTree, hstart] at h
    have hroot : (t.readAs (some name)).root = ⟨name, 0, t.raw.length, t.root.children⟩ := by
      simp [Tree.readAs, hstart, hstop]
    rw [hroot]
    exact .omitted (form_of_encodeNodes h rfl hfits hkids)

theorem encodeTree_of_form (h : BlockForm d t.raw.length root? block t.root d')
    (hd : d.Indexable) (hvalid : t.isValid = true) :
    ∃ bs, Answers (encodeTree t (.ofName root?)) d bs d' ∧ bs.length ≤ block.length := by
  have hstart := (Tree.isValid_iff.1 hvalid).1
  generalize hroot : t.root = root at h
  cases h with
  | written h =>
    have hname : t.rootName ≠ "" := by
      rintro heq
      have := (Node.allNames_iff.1 h.allNames).1
      rw [← hroot, show t.root.name = "" from heq] at this
      exact absurd this (by decide)
    obtain ⟨bs, hbs, hle⟩ := encodeNode_of_form h 0 hd rfl
    refine ⟨bs, ?_, hle⟩
    simp only [RootMode.ofName, encodeTree]
    rw [if_neg (by simpa using hname), hstart, hroot]
    exact hbs
  | omitted h =>
    obtain ⟨bs, hbs, hle⟩ := encodeNodes_of_form h 1 hd rfl
    refine ⟨bs, ?_, hle⟩
    simp only [RootMode.ofName, encodeTree, hroot]
    exact hbs

/-! ## Names are only added -/

theorem ensures_encodeName (name : String) (d : Dictionary) :
    Ensures (encodeName name) d (fun _ d' => d.Learns d') fun _ d' => d.Learns d' := by
  rw [encodeName, ensures_bind, ensures_get]
  split
  · split
    · exact ensures_pure.2 (.refl d)
    · exact ensures_throw.2 (.refl d)
  · rw [ensures_bind, ensures_modify, ensures_liftExcept]
    exact ⟨fun _ _ => Dictionary.learns_learn d name, fun _ _ => Dictionary.learns_learn d name⟩
  · exact ensures_liftExcept.2 ⟨fun _ _ => .refl d, fun _ _ => .refl d⟩

mutual

theorem ensures_encodeNode : ∀ (cursor depth : Nat) (n : Node) (d : Dictionary),
    Ensures (encodeNode cursor depth n) d (fun _ d' => d.Learns d') fun _ d' => d.Learns d'
  | cursor, depth, ⟨name, start, stop, children⟩, d => by
    rw [encodeNode]
    split
    · rw [ensures_bind]
      exact ensures_throw.2 (.refl d)
    · rw [ensures_bind]
      refine (ensures_encodeName name d).mono (fun _ d₁ h₁ => ?_) fun _ _ h => h
      rw [ensures_bind, ensures_liftExcept]
      refine ⟨fun _ _ => ?_, fun _ _ => h₁⟩
      rw [ensures_bind]
      refine (ensures_encodeNodes start (depth + 1) children d₁).mono (fun _ d₂ h₂ => ?_)
        fun _ _ h => h₁.trans h
      split
      · exact ensures_pure.2 (h₁.trans h₂)
      · rw [ensures_bind, ensures_liftExcept]
        exact ⟨fun _ _ => ensures_pure.2 (h₁.trans h₂), fun _ _ => h₁.trans h₂⟩

theorem ensures_encodeNodes : ∀ (cursor depth : Nat) (ns : List Node) (d : Dictionary),
    Ensures (encodeNodes cursor depth ns) d (fun _ d' => d.Learns d') fun _ d' => d.Learns d'
  | _, _, [], d => by
    rw [encodeNodes]
    exact ensures_pure.2 (.refl d)
  | cursor, depth, n :: ns, d => by
    rw [encodeNodes, ensures_bind]
    refine (ensures_encodeNode cursor depth n d).mono (fun _ d₁ h₁ => ?_) fun _ _ h => h
    rw [ensures_bind]
    refine (ensures_encodeNodes n.stop depth ns d₁).mono (fun _ _ h₂ => ?_)
      fun _ _ h => h₁.trans h
    exact ensures_pure.2 (h₁.trans h₂)

end

/-- Encoding a tree only adds names, also where it fails. -/
theorem ensures_encodeTree (t : Tree) (mode : RootMode) (d : Dictionary) :
    Ensures (encodeTree t mode) d (fun _ d' => d.Learns d') fun _ d' => d.Learns d' := by
  cases mode with
  | written =>
    simp only [encodeTree]
    split
    · exact ensures_throw.2 (.refl d)
    · exact ensures_encodeNode _ _ _ _
  | omitted => exact ensures_encodeNodes _ _ _ _

end Bill

end SpanTree
