import SpanTree.Proofs.Safety

/-!
# What readers accept

The format is documented by a grammar of nodes,

```text
node = [children header] name span [children]
```

together with what holds of its parts: a header stands exactly before nodes with children and counts
the bytes behind it, a name is an index or is spelled out, no node lies too deep, and the spans that
come out are nested, in order, and cover the raw buffer. `BlockRule` and `Tree.InPlace` say this for
whole blocks and whole trees, and `Derives` puts both together.

**A reader that has read frames answers a tree exactly if the next frame derives one, and then this
tree** (`Reader.Fluent.accepts_grammar`).

The rules ask for less than `NodeForm`, along which readers were shown to be sound and complete: an
index may stand for any known name, be it one that a node may have or not. The two agree where all
names that are known are names for nodes, and a reader that has come to no error knows no others.
-/

namespace SpanTree

open Bill

/-! ## Spans in place -/

namespace Node

/-- The spans of the children lie within the span of the node, from left to right. -/
structure InOrder (n : Node) : Prop where
  start_le : n.start ≤ n.stop
  within : ∀ c ∈ n.children, n.start ≤ c.start ∧ c.stop ≤ n.stop
  ordered : n.children.Pairwise fun c c' => c.stop ≤ c'.start

theorem mem_preorder (n : Node) (depth : Nat) : (depth, n) ∈ n.preorder depth := by
  cases n
  simp [preorder]

mutual

theorem fits_iff_inOrder : ∀ (n : Node) (lo hi depth : Nat), n.fits lo hi = true ↔
    lo ≤ n.start ∧ n.stop ≤ hi ∧ ∀ x ∈ n.preorder depth, x.2.InOrder
  | ⟨name, start, stop, children⟩, lo, hi, depth => by
    rw [fits_iff, fitsAll_iff_inOrder children start stop (depth + 1)]
    simp only [preorder, List.mem_cons, forall_eq_or_imp]
    constructor
    · rintro ⟨hlo, hhi, hle, hwithin, hordered, hbelow⟩
      exact ⟨hlo, hhi, ⟨hle, hwithin, hordered⟩, hbelow⟩
    · rintro ⟨hlo, hhi, ⟨hle, hwithin, hordered⟩, hbelow⟩
      exact ⟨hlo, hhi, hle, hwithin, hordered, hbelow⟩

theorem fitsAll_iff_inOrder : ∀ (ns : List Node) (lo hi depth : Nat), fitsAll lo hi ns = true ↔
    (∀ c ∈ ns, lo ≤ c.start ∧ c.stop ≤ hi) ∧ (ns.Pairwise fun c c' => c.stop ≤ c'.start) ∧
      ∀ x ∈ preorderAll depth ns, x.2.InOrder
  | [], lo, hi, depth => by simp [fitsAll, preorderAll]
  | n :: ns, lo, hi, depth => by
    simp only [fitsAll, Bool.and_eq_true, fits_iff_inOrder n lo hi depth,
      fitsAll_iff_inOrder ns n.stop hi depth, preorderAll, List.mem_cons, List.mem_append,
      List.pairwise_cons, forall_eq_or_imp]
    constructor
    · rintro ⟨⟨hlo, hhi, hn⟩, hwithin, hordered, hbelow⟩
      have hle : n.start ≤ n.stop := (hn _ (n.mem_preorder depth)).start_le
      refine ⟨⟨⟨hlo, hhi⟩, fun c hc => ?_⟩, ⟨fun c hc => (hwithin c hc).1, hordered⟩, ?_⟩
      · have := hwithin c hc
        omega
      · rintro x (hx | hx)
        · exact hn x hx
        · exact hbelow x hx
    · rintro ⟨⟨⟨hlo, hhi⟩, hwithin⟩, ⟨hnext, hordered⟩, hall⟩
      exact ⟨⟨hlo, hhi, fun x hx => hall x (.inl hx)⟩,
        fun c hc => ⟨hnext c hc, (hwithin c hc).2⟩, hordered, fun x hx => hall x (.inr hx)⟩

end

end Node

/-- The root covers the raw buffer, and every span holds those below it. -/
structure Tree.InPlace (t : Tree) : Prop where
  start_eq : t.root.start = 0
  stop_eq : t.root.stop = t.raw.length
  inOrder : ∀ x ∈ t.preorder, x.2.InOrder

theorem Tree.isValid_iff_inPlace {t : Tree} : t.isValid = true ↔ t.InPlace := by
  simp only [Tree.isValid, Bool.and_eq_true, beq_iff_eq, Node.fits_iff_inOrder t.root _ _ 0]
  constructor
  · rintro ⟨⟨hstart, hstop⟩, -, -, horder⟩
    exact ⟨hstart, hstop, horder⟩
  · rintro ⟨hstart, hstop, horder⟩
    exact ⟨⟨hstart, hstop⟩, by omega, by omega, horder⟩

/-! ## Names for nodes -/

/-- All names that are known are such that a node may have. -/
def Dictionary.OnlyNodeNames (d : Dictionary) : Prop := ∀ name ∈ d.names, Name.isNode name = true

/-! ## The rules -/

namespace Bill

/-- A name is the index of a known one, or a length of 14 bits and as many bytes, the UTF-8 of a
name that a node may have. A name that is spelled out is added to the known ones exactly if it is
not among them and there is room. -/
inductive NameRule (d : Dictionary) : Bytes → (name : String) → Dictionary → Prop
  | index {b : UInt8} {name : String} (hb : b.toNat < 64) (h : d.names[b.toNat]? = some name) :
      NameRule d [b] name d
  | added {lo hi : UInt8} {name : String} (hlo : 64 ≤ lo.toNat) (hlo' : lo.toNat < 128)
      (hlen : (Utf8.encode name).length = fullNameLength lo hi) (hvalid : Name.isNode name = true)
      (hnew : name ∉ d.names) (hroom : d.size < d.capacity) :
      NameRule d (lo :: hi :: Utf8.encode name) name { d with names := d.names ++ [name] }
  | kept {lo hi : UInt8} {name : String} (hlo : 64 ≤ lo.toNat) (hlo' : lo.toNat < 128)
      (hlen : (Utf8.encode name).length = fullNameLength lo hi) (hvalid : Name.isNode name = true)
      (h : name ∈ d.names ∨ d.capacity ≤ d.size) :
      NameRule d (lo :: hi :: Utf8.encode name) name d

/-- A header of two bytes exactly if there are children. It gives the length of what follows. -/
inductive HeaderRule : (children : List Node) → (length : Nat) → Bytes → Prop
  | absent {length : Nat} : HeaderRule [] length []
  | present {children : List Node} {length : Nat} {lo hi : UInt8} (hne : children ≠ [])
      (hlo : 128 ≤ lo.toNat) (hlen : childrenLength lo hi = length) :
      HeaderRule children length [lo, hi]

mutual

/-- A node at a depth; its span counts from `cursor`. -/
inductive NodeRule : (depth cursor : Nat) → Dictionary → Bytes → Node → Dictionary → Prop
  | mk {depth cursor skip length : Nat} {d d' d'' : Dictionary} {header as bs cs : Bytes}
      {name : String} {children : List Node} (hdepth : depth ≤ maxDepth)
      (hheader : HeaderRule children (as ++ bs ++ cs).length header) (hname : NameRule d as name d')
      (hspan : SpanForm bs skip length)
      (hchildren : NodesRule (depth + 1) (cursor + skip) d' cs children d'') :
      NodeRule depth cursor d (header ++ (as ++ bs ++ cs))
        ⟨name, cursor + skip, cursor + skip + length, children⟩ d''

/-- Nodes that follow one another: the span of each counts from the end of the one before. -/
inductive NodesRule : (depth cursor : Nat) → Dictionary → Bytes → List Node → Dictionary → Prop
  | nil {depth cursor : Nat} {d : Dictionary} : NodesRule depth cursor d [] [] d
  | cons {depth cursor : Nat} {d d' d'' : Dictionary} {bs cs : Bytes} {n : Node} {ns : List Node}
      (hnode : NodeRule depth cursor d bs n d') (hrest : NodesRule depth n.stop d' cs ns d'') :
      NodesRule depth cursor d (bs ++ cs) (n :: ns) d''

end

/-- A block is one node, the root, or any number of nodes below a root that is given. -/
inductive BlockRule (d : Dictionary) (rawSize : Nat) :
    (root? : Option String) → Bytes → Node → Dictionary → Prop
  | written {bs : Bytes} {root : Node} {d' : Dictionary} (h : NodeRule 0 0 d bs root d') :
      BlockRule d rawSize none bs root d'
  | omitted {bs : Bytes} {children : List Node} {d' : Dictionary} {name : String}
      (h : NodesRule 1 0 d bs children d') :
      BlockRule d rawSize (some name) bs ⟨name, 0, rawSize, children⟩ d'

/-- A raw buffer and a block derive a tree. -/
structure Derives (d : Dictionary) (root? : Option String) (raw block : Bytes) (t : Tree)
    (d' : Dictionary) : Prop where
  raw_eq : t.raw = raw
  rule : BlockRule d raw.length root? block t.root d'
  inPlace : t.InPlace

variable {levels depth cursor rawSize : Nat} {d d' : Dictionary} {bs block raw : Bytes}
  {name : String} {n : Node} {ns : List Node} {root? : Option String} {t : Tree}

/-! ## The rules only teach names for nodes -/

theorem NameRule.isNode (h : NameRule d bs name d') (hd : d.OnlyNodeNames) :
    Name.isNode name = true := by
  cases h with
  | index _ h => exact hd name (List.mem_of_getElem? h)
  | added _ _ _ hvalid => exact hvalid
  | kept _ _ _ hvalid => exact hvalid

theorem NameRule.onlyNodeNames (h : NameRule d bs name d') (hd : d.OnlyNodeNames) :
    d'.OnlyNodeNames := by
  have hvalid := h.isNode hd
  cases h with
  | index => exact hd
  | kept => exact hd
  | added =>
    intro known hknown
    rcases List.mem_append.1 hknown with hknown | hknown
    · exact hd known hknown
    · rwa [List.mem_singleton.1 hknown]

mutual

theorem NodeRule.onlyNodeNames : ∀ {depth cursor d bs n d'}, NodeRule depth cursor d bs n d' →
    d.OnlyNodeNames → d'.OnlyNodeNames
  | _, _, _, _, _, _, .mk _ _ hname _ hchildren, hd =>
    hchildren.onlyNodeNames (hname.onlyNodeNames hd)

theorem NodesRule.onlyNodeNames : ∀ {depth cursor d bs ns d'},
    NodesRule depth cursor d bs ns d' → d.OnlyNodeNames → d'.OnlyNodeNames
  | _, _, _, _, _, _, .nil, hd => hd
  | _, _, _, _, _, _, .cons hnode hrest, hd => hrest.onlyNodeNames (hnode.onlyNodeNames hd)

end

theorem BlockRule.onlyNodeNames (h : BlockRule d rawSize root? bs n d') (hd : d.OnlyNodeNames) :
    d'.OnlyNodeNames := by
  cases h with
  | written h => exact h.onlyNodeNames hd
  | omitted h => exact h.onlyNodeNames hd

/-! ## The rules and the forms -/

theorem nameRule_iff (hd : d.OnlyNodeNames) :
    NameRule d bs name d' ↔ NameForm d name bs d' ∧ Name.isNode name = true := by
  constructor
  · intro h
    refine ⟨?_, h.isNode hd⟩
    cases h with
    | index hb h => exact .index hb h
    | added hlo hlo' hlen _ hnew hroom =>
      rw [← Dictionary.learn_of_room hnew hroom]
      exact .full hlo hlo' hlen
    | kept hlo hlo' hlen _ h =>
      have hlearn : d.learn name = d := by
        rcases h with h | h
        · exact Dictionary.learn_of_mem h
        · exact Dictionary.learn_of_full h
      have hform := NameForm.full (d := d) hlo hlo' hlen
      rwa [hlearn] at hform
  · rintro ⟨h, hvalid⟩
    cases h with
    | index hb h => exact .index hb h
    | full hlo hlo' hlen =>
      by_cases hknown : name ∈ d.names
      · rw [Dictionary.learn_of_mem hknown]
        exact .kept hlo hlo' hlen hvalid (.inl hknown)
      · rcases Nat.lt_or_ge d.size d.capacity with hroom | hfull
        · rw [Dictionary.learn_of_room hknown hroom]
          exact .added hlo hlo' hlen hvalid hknown hroom
        · rw [Dictionary.learn_of_full hfull]
          exact .kept hlo hlo' hlen hvalid (.inr hfull)

mutual

theorem NodeRule.form : ∀ {depth cursor d bs n d'}, NodeRule depth cursor d bs n d' →
    d.OnlyNodeNames → ∀ {levels : Nat}, levels + depth = maxDepth + 1 →
    NodeForm levels cursor d bs n d'
  | depth, _, _, _, _, _, .mk hdepth hheader hname hspan hchildren, hd, levels, hlevels => by
    obtain ⟨levels, rfl⟩ : ∃ l, levels = l + 1 := ⟨levels - 1, by omega⟩
    obtain ⟨hform, hvalid⟩ := (nameRule_iff hd).1 hname
    have hlevels' : levels + (depth + 1) = maxDepth + 1 := by omega
    have hforms := hchildren.forms (hname.onlyNodeNames hd) hlevels'
    cases hheader with
    | absent =>
      cases hforms with
      | nil =>
        rw [List.append_nil, List.nil_append]
        exact .leaf (.mk hform hvalid hspan)
    | present hne hlo hlen =>
      rw [List.cons_append, List.cons_append, List.nil_append]
      exact .inner (.mk hform hvalid hspan) hforms hne hlo hlen

theorem NodesRule.forms : ∀ {depth cursor d bs ns d'}, NodesRule depth cursor d bs ns d' →
    d.OnlyNodeNames → ∀ {levels : Nat}, levels + depth = maxDepth + 1 →
    NodesForm levels cursor d bs ns d'
  | _, _, _, _, _, _, .nil, _, _, _ => .nil
  | _, _, _, _, _, _, .cons hnode hrest, hd, _, hlevels =>
    .cons (hnode.form hd hlevels) (hrest.forms (hnode.onlyNodeNames hd) hlevels)

end

mutual

theorem NodeForm.rule : ∀ {levels cursor d bs n d'}, NodeForm levels cursor d bs n d' →
    d.OnlyNodeNames → ∀ {depth : Nat}, levels + depth = maxDepth + 1 →
    NodeRule depth cursor d bs n d'
  | _, cursor, _, _, _, _, .leaf hhead, hd, depth, hlevels => by
    have hdepth : depth ≤ maxDepth := by omega
    cases hhead with
    | @mk _ _ _ skip _ _ hname hvalid hspan =>
      have hnone := @NodesRule.nil (depth + 1) (cursor + skip)
      have hrule := NodeRule.mk hdepth .absent ((nameRule_iff hd).2 ⟨hname, hvalid⟩) hspan hnone
      rwa [List.append_nil, List.nil_append] at hrule
  | _, _, _, _, _, _, .inner hhead hchildren hne hlo hlen, hd, depth, hlevels => by
    have hdepth : depth ≤ maxDepth := by omega
    cases hhead with
    | mk hname hvalid hspan =>
      have hrule := (nameRule_iff hd).2 ⟨hname, hvalid⟩
      exact .mk hdepth (.present hne hlo hlen) hrule hspan
        (hchildren.rules (hrule.onlyNodeNames hd) (by omega))

theorem NodesForm.rules : ∀ {levels cursor d bs ns d'}, NodesForm levels cursor d bs ns d' →
    d.OnlyNodeNames → ∀ {depth : Nat}, levels + depth = maxDepth + 1 →
    NodesRule depth cursor d bs ns d'
  | _, _, _, _, _, _, .nil, _, _, _ => .nil
  | _, _, _, _, _, _, .cons hnode hrest, hd, _, hlevels =>
    have hrule := hnode.rule hd hlevels
    .cons hrule (hrest.rules (hrule.onlyNodeNames hd) hlevels)

end

theorem blockRule_iff (hd : d.OnlyNodeNames) :
    BlockRule d rawSize root? bs n d' ↔ BlockForm d rawSize root? bs n d' := by
  constructor
  · intro h
    cases h with
    | written h => exact .written (h.form hd rfl)
    | omitted h => exact .omitted (h.forms hd rfl)
  · intro h
    cases h with
    | written h => exact .written (h.rule hd rfl)
    | omitted h => exact .omitted (h.rules hd rfl)

end Bill

/-! ## Reading a frame -/

namespace Reader

variable {data as bs raw block rest : Bytes} {r : Reader} {t : Tree} {d' : Dictionary}

/-- The readers of data that have only read frames. The roots may be given a name at any time. -/
inductive Fluent (data : Bytes) : Reader → Prop
  | opened {r : Reader} (h : ofBytes data = .ok r) : Fluent data r
  | named {r r' : Reader} {name : String} (hr : Fluent data r) (h : r.withRootName name = .ok r') :
      Fluent data r'
  | tree {r : Reader} {t : Tree} (hr : Fluent data r) (h : r.next.result = .ok (some t)) :
      Fluent data r.next.state

theorem Fluent.reached (h : Fluent data r) : Reached data r := by
  induction h with
  | opened h => exact .opened h
  | named _ h ih => exact .named ih h
  | tree _ _ ih => exact .next ih

theorem Fluent.consistent (h : Fluent data r) : r.Consistent := h.reached.steady.reads.consistent

/-- It has not come to the end of a stream, and knows names for nodes only. -/
theorem Fluent.inv (h : Fluent data r) : r.isFinished = false ∧ r.dict.OnlyNodeNames := by
  induction h with
  | @opened r h =>
    unfold ofBytes at h
    split at h
    · cases h
    · cases h
      exact ⟨rfl, fun name hname => absurd hname List.not_mem_nil⟩
  | @named r r' name hr h ih =>
    unfold withRootName at h
    split at h
    · cases h
      exact ih
    · cases h
  | @tree r t hr h ih =>
    obtain ⟨-, bytes, hform, hpass⟩ :=
      (answers_readTree_some hr.consistent).1 (next_eq.1 ⟨h, rfl⟩)
    refine ⟨hpass.isFinished_eq.trans ih.1, ?_⟩
    cases hform with
    | mk _ _ _ hblock => exact ((blockRule_iff ih.2).2 hblock).onlyNodeNames ih.2

/-- The parts of a frame can be told apart. -/
theorem eq_of_frames {as' bs' raw' block' rest' : Bytes} (hraw : Varint.Form 0 as raw.length)
    (hblock : Varint.Form 0 bs block.length) (hraw' : Varint.Form 0 as' raw'.length)
    (hblock' : Varint.Form 0 bs' block'.length)
    (h : as ++ (raw ++ bs ++ block) ++ rest = as' ++ (raw' ++ bs' ++ block') ++ rest') :
    as = as' ∧ raw = raw' ∧ bs = bs' ∧ block = block' ∧ rest = rest' := by
  simp only [List.append_assoc] at h
  obtain ⟨hlen, rfl, h₁⟩ := hraw.unique_prefix hraw' h
  obtain ⟨rfl, h₂⟩ := List.append_inj h₁ hlen
  obtain ⟨hlen', rfl, h₃⟩ := hblock.unique_prefix hblock' h₂
  obtain ⟨rfl, rfl⟩ := List.append_inj h₃ hlen'
  exact ⟨rfl, rfl, rfl, rfl, rfl⟩

/-- What is answered in front of a frame is derived from it. -/
theorem Fluent.derives (hr : Fluent data r) (hraw : Varint.Form 0 as raw.length)
    (hblock : Varint.Form 0 bs block.length)
    (hrest : r.rest = as ++ (raw ++ bs ++ block) ++ rest) (h : r.next.result = .ok (some t)) :
    Derives r.dict r.rootName raw block t r.next.state.dict ∧ r.next.state.rest = rest := by
  obtain ⟨-, hd⟩ := hr.inv
  obtain ⟨-, bytes, hform, hpass⟩ := (answers_readTree_some hr.consistent).1 (next_eq.1 ⟨h, rfl⟩)
  have heq := hrest.symm.trans hpass.rest_eq
  cases hform with
  | mk hraw' _ hblock' hform hvalid =>
    obtain ⟨-, rfl, -, rfl, hrest'⟩ := eq_of_frames hraw hblock hraw' hblock' heq
    exact ⟨⟨rfl, (blockRule_iff hd).2 hform, Tree.isValid_iff_inPlace.1 hvalid⟩, hrest'.symm⟩

/-- What a frame derives is answered in front of it. -/
theorem Fluent.next_of_derives (hr : Fluent data r) (hraw : Varint.Form 0 as raw.length)
    (hend : raw.length ≠ terminator) (hblock : Varint.Form 0 bs block.length)
    (hrest : r.rest = as ++ (raw ++ bs ++ block) ++ rest)
    (h : Derives r.dict r.rootName raw block t d') :
    r.next.result = .ok (some t) ∧ r.next.state.dict = d' := by
  obtain ⟨hfinished, hd⟩ := hr.inv
  obtain ⟨rfl, hrule, hplace⟩ := h
  have hframe := FrameForm.mk hraw hend hblock ((blockRule_iff hd).1 hrule)
    (Tree.isValid_iff_inPlace.2 hplace)
  obtain ⟨hresult, hstate⟩ := next_of_form hr.consistent hfinished hframe hrest
  exact ⟨hresult, by rw [hstate]⟩

/-- A reader in front of a frame does not come to nothing. -/
theorem Fluent.next_ne_none (hr : Fluent data r) (hraw : Varint.Form 0 as raw.length)
    (hend : raw.length ≠ terminator) (hrest : r.rest = as ++ (raw ++ bs ++ block) ++ rest) :
    r.next.result ≠ .ok none := by
  intro h
  rw [List.append_assoc] at hrest
  have hend' := (answers_readTree_none hr.consistent).1 (next_eq.1 ⟨h, rfl⟩)
  generalize r.next.state = r' at hend'
  cases hend' with
  | atEnd hover =>
    have hpos := hraw.length_pos
    rcases hover with hover | hover
    · rw [hr.inv.1] at hover
      cases hover
    · rw [hrest] at hover
      rw [(List.append_eq_nil_iff.1 hover).1] at hpos
      exact Nat.lt_irrefl 0 hpos
  | terminator _ hform hpass _ =>
    exact hend (hraw.unique_prefix hform (hrest.symm.trans hpass.rest_eq)).1

/-- **Readers accept exactly what the grammar derives.** A reader has come to no error so far, and
stands in front of two lengths, however they are written, a raw buffer and a block. It answers a
tree and then knows certain names if and only if the tree and the names are derived from the raw
buffer, the block and the names known before. It then stands behind the frame. Where nothing is
derived it answers an error. -/
theorem Fluent.accepts_grammar (hr : Fluent data r) (hraw : Varint.Form 0 as raw.length)
    (hend : raw.length ≠ terminator) (hblock : Varint.Form 0 bs block.length)
    (hrest : r.rest = as ++ (raw ++ bs ++ block) ++ rest) :
    (∀ t d', r.next.result = .ok (some t) ∧ r.next.state.dict = d' ↔
      Derives r.dict r.rootName raw block t d') ∧
    (∀ t, r.next.result = .ok (some t) → r.next.state.rest = rest) ∧
    ((∃ e, r.next.result = .error e) ↔ ¬ ∃ t d', Derives r.dict r.rootName raw block t d') := by
  have hiff : ∀ t d', r.next.result = .ok (some t) ∧ r.next.state.dict = d' ↔
      Derives r.dict r.rootName raw block t d' := by
    intro t d'
    constructor
    · rintro ⟨h, rfl⟩
      exact (hr.derives hraw hblock hrest h).1
    · exact hr.next_of_derives hraw hend hblock hrest
  refine ⟨hiff, fun t h => (hr.derives hraw hblock hrest h).2, ?_⟩
  constructor
  · rintro ⟨e, he⟩ ⟨t, d', h⟩
    rw [((hiff t d').2 h).1] at he
    cases he
  · intro hnone
    cases hresult : r.next.result with
    | error e => exact ⟨e, rfl⟩
    | ok answer =>
      cases answer with
      | none => exact absurd hresult (hr.next_ne_none hraw hend hrest)
      | some t => exact absurd ⟨t, _, (hiff t _).1 ⟨hresult, rfl⟩⟩ hnone

/-- Behind the frame of a root, a frame that refers to the name of this root, over one child. -/
theorem Fluent.accepts_known_root :
    let data := header ++ [0, 4, 0x41, 0, 0x24, 0] ++
      [2, 104, 105, 8, 0x86, 0, 0x00, 0x02, 0x41, 0, 0x61, 0x02]
    let r := (Reader.opened data none).next.state
    r.dict.names = ["$"] ∧
      Derives r.dict none [104, 105] [0x86, 0, 0x00, 0x02, 0x41, 0, 0x61, 0x02]
        ⟨⟨"$", 0, 2, [⟨"a", 0, 2, []⟩]⟩, [104, 105]⟩ r.next.state.dict := by
  intro data r
  have hr : Fluent data r := .tree (t := ⟨⟨"$", 0, 0, []⟩, []⟩) (.opened rfl) rfl
  have hraw : Varint.Form 0 [2] [104, 105].length :=
    .last (b := 2) (by decide) (by decide)
  have hblock : Varint.Form 0 [8] 8 := .last (b := 8) (by decide) (by decide)
  refine ⟨rfl, ?_⟩
  exact ((hr.accepts_grammar hraw (by decide) hblock rfl).1 _ _).1 ⟨rfl, rfl⟩

end Reader

end SpanTree
