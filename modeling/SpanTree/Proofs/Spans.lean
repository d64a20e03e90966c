import SpanTree.Proofs.Likeness
import SpanTree.Proofs.Session

/-!
# Spans and names

A block is read with the names that the reader knows, which need not be those that it was written
with: after an error, or after the writer has forgotten its names, an index may stand for another
name. **The spans do not depend on the names.** Whatever nodes are read from the bytes that were
written for some nodes, they have the same shape and the same spans (`similar_of_encodeNodes`).

How many bytes a name, a span and a header take can be told from the bytes themselves. So two
readings of the same bytes go on side by side.

Hence a tree that is read where a tree was written has the same buffer and no other spans
(`FrameForm.spans_written`), even if only one side writes or reads the root.
-/

namespace SpanTree

namespace Node

def SameSpan (n m : Node) : Prop := n.start = m.start ∧ n.stop = m.stop

theorem preorder_eq (n : Node) (depth : Nat) :
    n.preorder depth = (depth, n) :: preorderAll (depth + 1) n.children := by
  cases n
  rfl

variable {R : Node → Node → Prop}

mutual

/-- Each node of the one subtree is related to some node of the other. -/
theorem Similar.exists_mem : ∀ {n m : Node} {depth depth' : Nat}, n.Similar R m →
    ∀ x ∈ m.preorder depth', ∃ y ∈ n.preorder depth, R y.2 x.2
  | ⟨_, _, _, _⟩, ⟨_, _, _, _⟩, _, _, h, x, hx => by
    simp only [Similar] at h
    rcases List.mem_cons.1 hx with rfl | hx
    · exact ⟨_, .head _, h.1⟩
    · obtain ⟨y, hy, hxy⟩ := SimilarAll.exists_mem h.2 x hx
      exact ⟨y, .tail _ hy, hxy⟩

theorem SimilarAll.exists_mem : ∀ {ns ms : List Node} {depth depth' : Nat}, SimilarAll R ns ms →
    ∀ x ∈ preorderAll depth' ms, ∃ y ∈ preorderAll depth ns, R y.2 x.2
  | [], [], _, _, _, _, hx => by simp [preorderAll] at hx
  | _ :: _, _ :: _, _, _, h, x, hx => by
    rcases List.mem_append.1 hx with hx | hx
    · obtain ⟨y, hy, hxy⟩ := Similar.exists_mem h.1 x hx
      exact ⟨y, List.mem_append_left _ hy, hxy⟩
    · obtain ⟨y, hy, hxy⟩ := SimilarAll.exists_mem h.2 x hx
      exact ⟨y, List.mem_append_right _ hy, hxy⟩
  | [], _ :: _, _, _, h, _, _ => h.elim
  | _ :: _, [], _, _, h, _, _ => h.elim

end

end Node

namespace Bill

open Node (SameSpan Similar SimilarAll)

variable {d d' e e' : Dictionary} {as bs cs ds : Bytes} {name name' : String}
  {skip skip' length length' : Nat}

/-- Of two names at the front of the same bytes neither is longer. -/
theorem NameForm.unique_prefix (h : NameForm d name as d') (h' : NameForm e name' bs e')
    (heq : as ++ cs = bs ++ ds) : as = bs ∧ cs = ds := by
  cases h with
  | index hb =>
    cases h' with
    | index => simpa using heq
    | full hlo =>
      obtain ⟨rfl, -⟩ := List.cons.inj heq
      omega
  | full hlo hlo' hlen =>
    cases h' with
    | index hb =>
      obtain ⟨rfl, -⟩ := List.cons.inj heq
      omega
    | full hlo₂ hlo₂' hlen' =>
      simp only [List.cons_append, List.cons.injEq] at heq
      obtain ⟨rfl, rfl, hnames⟩ := heq
      obtain ⟨hname, hrest⟩ := List.append_inj hnames (hlen.trans hlen'.symm)
      exact ⟨by rw [hname], hrest⟩

theorem SpanForm.unique_prefix (h : SpanForm as skip length) (h' : SpanForm bs skip' length')
    (heq : as ++ cs = bs ++ ds) : skip = skip' ∧ length = length' ∧ as = bs ∧ cs = ds := by
  have hread := decodeSpan_of_form h cs
  rw [heq, decodeSpan_of_form h' ds] at hread
  simp only [Option.some.injEq, Prod.mk.injEq] at hread
  obtain ⟨hskip, hlength, hused⟩ := hread
  obtain ⟨has, hcs⟩ := List.append_inj heq hused.symm
  exact ⟨hskip.symm, hlength.symm, has, hcs⟩

variable {n : Node} {cursor depth start stop start' stop' : Nat}

/-- Two heads at the front of the same bytes have the same span. -/
theorem HeadForm.same_span (hname : Answers (encodeName name) d as d')
    (hspan : encodeSpan (start - cursor) (stop - start) = .ok bs) (hstart : cursor ≤ start)
    (hstop : start ≤ stop) {head : Bytes} (h : HeadForm cursor e head name' start' stop' e')
    (heq : as ++ bs ++ cs = head ++ ds) :
    start = start' ∧ stop = stop' ∧ as ++ bs = head ∧ cs = ds := by
  cases h with
  | mk hname' _ hspan' =>
    rw [List.append_assoc, List.append_assoc] at heq
    have hfull := form_of_encodeName hname
    obtain ⟨rfl, hrest⟩ := hfull.unique_prefix hname' heq
    obtain ⟨hskip, hlength, rfl, hbehind⟩ :=
      SpanForm.unique_prefix (form_of_encodeSpan hspan) hspan' hrest
    exact ⟨by omega, by omega, rfl, hbehind⟩

/-- A name does not begin like a children header. -/
theorem not_header_of_encodeName {b : UInt8} {rest : Bytes} (h : Answers (encodeName name) d as d')
    (heq : as ++ cs = b :: rest) : b.toNat < 128 := by
  have hform := form_of_encodeName h
  cases hform with
  | index hb =>
    obtain ⟨rfl, -⟩ := List.cons.inj heq
    omega
  | full hlo hlo' =>
    obtain ⟨rfl, -⟩ := List.cons.inj heq
    exact hlo'

theorem length_pos_of_encodeNode (h : Answers (encodeNode cursor depth n) d bs d') :
    0 < bs.length := by
  cases answers_encodeNode.1 h with
  | leaf _ _ hspan | inner _ _ hspan =>
    have := (form_of_encodeSpan hspan).length_pos
    simp only [List.length_append]
    omega

mutual

/-- A node read at the front of the bytes that were written for a node. -/
theorem similar_of_encodeNode : ∀ {n m : Node} {cursor depth hi levels : Nat}
    {d d' e e' : Dictionary} {as bs cs ds : Bytes}, Answers (encodeNode cursor depth n) d as d' →
    n.fits cursor hi = true → NodeForm levels cursor e bs m e' →
    as ++ cs = bs ++ ds → n.Similar SameSpan m ∧ as = bs ∧ cs = ds
  | ⟨name, start, stop, children⟩, m, cursor, _, _, _, _, _, _, _, _, _, _, _, h, hfits, hform,
      heq => by
    obtain ⟨hstart, -, hstop, hkids⟩ := Node.fits_iff.1 hfits
    cases answers_encodeNode.1 h with
    | leaf _ hname hspan =>
      cases hform with
      | leaf hhead =>
        obtain ⟨rfl, rfl, rfl, rfl⟩ := hhead.same_span hname hspan hstart hstop heq
        exact ⟨⟨⟨rfl, rfl⟩, trivial⟩, rfl, rfl⟩
      | inner _ _ _ hlo _ =>
        rw [List.append_assoc] at heq
        have hlt := not_header_of_encodeName hname heq
        omega
    | inner _ hname hspan hchildren _ hheader =>
      obtain ⟨lo, hi, rfl, hlo, hlen⟩ := encodeChildrenHeader_eq_ok hheader
      cases hform with
      | leaf hhead =>
        cases hhead with
        | mk hname' _ _ =>
          obtain ⟨b, bs', rfl, hb⟩ := hname'.head_lt
          obtain ⟨rfl, -⟩ := List.cons.inj heq
          omega
      | inner hhead hchildren' _ _ hlen' =>
        simp only [List.cons_append, List.nil_append, List.cons.injEq] at heq
        obtain ⟨rfl, rfl, heq⟩ := heq
        obtain ⟨hcontent, rfl⟩ := List.append_inj heq (hlen.symm.trans hlen')
        obtain ⟨rfl, rfl, rfl, rfl⟩ := hhead.same_span hname hspan hstart hstop hcontent
        have hsimilar := similar_of_encodeNodes hchildren hkids hchildren'
        exact ⟨⟨⟨rfl, rfl⟩, hsimilar⟩, rfl, rfl⟩

/-- **Nodes read from the bytes that were written for some nodes** have the same spans. -/
theorem similar_of_encodeNodes : ∀ {ns ms : List Node} {cursor depth hi levels : Nat}
    {d d' e e' : Dictionary} {bs : Bytes}, Answers (encodeNodes cursor depth ns) d bs d' →
    Node.fitsAll cursor hi ns = true → NodesForm levels cursor e bs ms e' →
    SimilarAll SameSpan ns ms
  | [], _, _, _, _, _, _, _, _, _, _, h, _, hforms => by
    obtain ⟨rfl, -⟩ := answers_encodeNodes_nil.1 h
    generalize hnone : ([] : Bytes) = bs at hforms
    cases hforms with
    | nil => trivial
    | cons hnode _ =>
      have htwo := hnode.two_le_length
      have hlen := congrArg List.length hnone
      simp only [List.length_nil, List.length_append] at hlen
      omega
  | n :: ns, _, _, _, _, _, _, _, _, _, _, h, hfits, hforms => by
    simp only [Node.fitsAll, Bool.and_eq_true] at hfits
    obtain ⟨cs, d₁, ds, hfirst, hrest, rfl⟩ := answers_encodeNodes_cons.1 h
    generalize hbytes : cs ++ ds = bytes at hforms
    cases hforms with
    | nil =>
      have hpos := length_pos_of_encodeNode hfirst
      rw [(List.append_eq_nil_iff.1 hbytes).1] at hpos
      exact absurd hpos (Nat.lt_irrefl 0)
    | cons hnode hnodes =>
      obtain ⟨hsimilar, rfl, rfl⟩ := similar_of_encodeNode hfirst hfits.1 hnode hbytes
      have hstop := (Node.similar_iff.1 hsimilar).1.2
      exact ⟨hsimilar, similar_of_encodeNodes hrest hfits.2 (hstop ▸ hnodes)⟩

end

/-! ## Trees -/

variable {t : Tree} {mode : RootMode} {block : Bytes} {root? : Option String} {root : Node}
  {rawSize : Nat}

/-- The nodes that are written, which are nodes of the tree. -/
theorem nodes_of_encodeTree (h : Answers (encodeTree t mode) d block d') (ht : t.isValid = true) :
    ∃ ns above depth, Answers (encodeNodes 0 above ns) d block d' ∧
      Node.fitsAll 0 t.raw.length ns = true ∧ ∀ x ∈ Node.preorderAll depth ns, x ∈ t.preorder := by
  obtain ⟨hstart, -, hkids⟩ := Tree.isValid_iff.1 ht
  cases mode with
  | written =>
    simp only [encodeTree, hstart] at h
    split at h
    · exact absurd h answers_throw
    · refine ⟨[t.root], 0, 0, ?_, ?_, ?_⟩
      · have hnil : Answers (encodeNodes t.root.stop 0 []) d' [] d' :=
          answers_encodeNodes_nil.2 ⟨rfl, rfl⟩
        exact answers_encodeNodes_cons.2 ⟨block, d', [], h, hnil, (List.append_nil _).symm⟩
      · simpa [Node.fitsAll] using Tree.fits_of_isValid ht
      · intro x hx
        rwa [Node.preorderAll, Node.preorderAll, List.append_nil] at hx
  | omitted =>
    simp only [encodeTree, hstart] at h
    refine ⟨t.root.children, 1, 1, h, hkids, fun x hx => ?_⟩
    rw [Tree.preorder, Node.preorder_eq]
    exact .tail _ hx

/-- The nodes that are read, which are those of the tree, but for a root that is not in
the block. -/
theorem nodes_of_blockForm (h : BlockForm e rawSize root? block root e') :
    ∃ ms levels depth, NodesForm levels 0 e block ms e' ∧ ∀ x ∈ root.preorder 0,
      x ∈ Node.preorderAll depth ms ∨ x.2.start = 0 ∧ x.2.stop = rawSize := by
  cases h with
  | written h =>
    refine ⟨[root], maxDepth + 1, 0, ?_, fun x hx => .inl ?_⟩
    · rw [← List.append_nil block]
      exact .cons h .nil
    · rwa [Node.preorderAll, Node.preorderAll, List.append_nil]
  | @omitted _ children _ _ h =>
    refine ⟨children, maxDepth, 1, h, fun x hx => ?_⟩
    rcases List.mem_cons.1 hx with rfl | hx
    · exact .inr ⟨rfl, rfl⟩
    · exact .inl hx

/-- No span is read that was not written. -/
theorem BlockForm.spans_written (hform : BlockForm e t.raw.length root? block root e')
    (h : Answers (encodeTree t mode) d block d') (ht : t.isValid = true) :
    ∀ x ∈ root.preorder 0, ∃ y ∈ t.preorder, y.2.SameSpan x.2 := by
  obtain ⟨ns, above, depth, hns, hfits, hmem⟩ := nodes_of_encodeTree h ht
  obtain ⟨ms, levels, depth', hms, hread⟩ := nodes_of_blockForm hform
  have hsimilar := similar_of_encodeNodes hns hfits hms
  intro x hx
  rcases hread x hx with hx | ⟨hstart, hstop⟩
  · obtain ⟨y, hy, hspan⟩ := hsimilar.exists_mem x hx
    exact ⟨y, hmem y hy, hspan⟩
  · obtain ⟨hstart', hstop', -⟩ := Tree.isValid_iff.1 ht
    exact ⟨(0, t.root), t.root.mem_preorder 0, hstart'.trans hstart.symm, hstop'.trans hstop.symm⟩

end Bill

open Bill

variable {d d' e e' : Dictionary} {t u : Tree} {mode : RootMode} {root? : Option String}
  {block bytes cs ds : Bytes}

/-- **A tree that is read where a tree was written has its buffer and no other spans**, whatever
names are known to the writer and to the reader. -/
theorem FrameForm.spans_written (hform : FrameForm e root? bytes u e')
    (h : Answers (encodeTree t mode) d block d') (ht : t.isValid = true)
    (heq : Stream.frame t.raw block ++ cs = bytes ++ ds) :
    u.raw = t.raw ∧ ∀ x ∈ u.preorder, ∃ y ∈ t.preorder, y.2.SameSpan x.2 := by
  cases hform with
  | mk hraw _ hblock hnodes _ =>
    simp only [Stream.frame, List.append_assoc] at heq
    obtain ⟨hsize, -, hbehind⟩ := hraw.unique_encode heq
    obtain ⟨rfl, hrest⟩ := List.append_inj hbehind hsize
    obtain ⟨hsize', -, hend⟩ := hblock.unique_encode hrest
    obtain ⟨rfl, -⟩ := List.append_inj hend hsize'
    exact ⟨rfl, hnodes.spans_written h ht⟩

end SpanTree
