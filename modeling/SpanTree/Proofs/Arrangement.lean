import SpanTree.Proofs.Draft
import SpanTree.Proofs.PathKeys

/-!
# Arranging entries

`Path.toTree` makes an outline of the absolute entries and builds a tree from it. It fails only on a
relative entry, and then names the least. Otherwise the tree has one node for each beginning of a
key, with the content of that key first and the nodes of the next segments behind it.

**Outlines.** Adding a content changes the outline at its chain of segments and nowhere else
(`Outline.add_ok`); the levels of the outline are sorted entries, and adding is inserting.

**Nodes** (`Realizes`). A node is what an outline asks for if its text and its children are the
content's, followed by those of nodes that are what the outlines of the next segments ask for. This
stays true of a node that is moved together with its bytes (`Realizes.moved`), and so it is carried
from each subtree into the whole tree.
-/

namespace SpanTree

/-! ## Nodes and their bytes -/

namespace Node

variable {k l lo hi : Nat} {n : Node} {ns : List Node} {raw : Bytes}

mutual

theorem moved_moved (k l : Nat) : ∀ n : Node, (n.moved k).moved l = n.moved (k + l)
  | ⟨name, start, stop, children⟩ => by
    simp [moved, movedAll_movedAll k l children, Nat.add_assoc]

theorem movedAll_movedAll (k l : Nat) : ∀ ns : List Node,
    movedAll l (movedAll k ns) = movedAll (k + l) ns
  | [] => rfl
  | n :: ns => by
    rw [movedAll, movedAll, movedAll, moved_moved k l n, movedAll_movedAll k l ns]

end

mutual

@[simp] theorem moved_zero : ∀ n : Node, n.moved 0 = n
  | ⟨name, start, stop, children⟩ => by simp [moved, movedAll_zero children]

@[simp] theorem movedAll_zero : ∀ ns : List Node, movedAll 0 ns = ns
  | [] => rfl
  | n :: ns => by rw [movedAll, moved_zero n, movedAll_zero ns]

end

/-- A node that is moved along with the bytes keeps its text. -/
theorem text_moved (before after : Bytes) (hle : n.start ≤ n.stop) (hstop : n.stop ≤ raw.length) :
    (n.moved before.length).text (before ++ (raw ++ after)) = n.text raw := by
  have hstart : n.start + before.length = before.length + n.start := Nat.add_comm ..
  have hlen : n.stop + before.length - (before.length + n.start) = n.stop - n.start := by omega
  rw [text, text, List.extract_eq_take_drop, List.extract_eq_take_drop, start_moved, stop_moved,
    hstart, hlen, ← List.drop_drop, List.drop_left, List.drop_append_of_le_length (by omega),
    List.take_append_of_le_length (by rw [List.length_drop]; omega)]

theorem fits_of_mem (h : fitsAll lo hi ns = true) (hn : n ∈ ns) : n.fits lo hi = true := by
  induction ns generalizing lo with
  | nil => cases hn
  | cons m ns ih =>
    simp only [fitsAll, Bool.and_eq_true] at h
    obtain ⟨hstart, -, hle, -⟩ := fits_iff.1 h.1
    rcases List.mem_cons.1 hn with rfl | hn
    · exact h.1
    · exact fits_mono (Nat.le_trans hstart hle) (Nat.le_refl hi) (ih h.2 hn)

theorem fits_of_mem_children (h : n.fits lo hi = true) {m : Node} (hm : m ∈ n.children) :
    m.fits lo hi = true := by
  obtain ⟨hstart, hstop, -, hkids⟩ := fits_iff.1 h
  exact fits_mono hstart hstop (fits_of_mem hkids hm)

end Node

/-! ## Nodes that outlines ask for -/

/-- A node whose text and whose children are those of the content, followed by those of the nodes
that the outlines of the next segments ask for. -/
inductive Realizes (raw : Bytes) : Outline → Node → Prop
  | node {content : Tree} {next : List (String × Outline)} {n : Node} {ks : List Node}
      (htext : n.text raw = content.raw ++ (ks.map (Node.text · raw)).flatten)
      (hchildren : n.children = Node.movedAll n.start content.root.children ++ ks)
      (hnames : ks.map Node.name = next.map Prod.fst)
      (hnext : ∀ x ∈ next.zip ks, Realizes raw x.1.2 x.2) : Realizes raw (.node content next) n

theorem Realizes.moved {raw : Bytes} {o : Outline} {n : Node} {lo : Nat} (h : Realizes raw o n)
    (hfits : n.fits lo raw.length = true) (before after : Bytes) :
    Realizes (before ++ (raw ++ after)) o (n.moved before.length) := by
  induction h generalizing lo with
  | @node content next n ks htext hchildren hnames hnext ih =>
    obtain ⟨-, hstop, hle, -⟩ := Node.fits_iff.1 hfits
    have hks : ∀ k ∈ ks, k.fits lo raw.length = true := fun k hk =>
      Node.fits_of_mem_children hfits (hchildren ▸ List.mem_append_right _ hk)
    have htexts : (ks.map (Node.moved before.length)).map
        (Node.text · (before ++ (raw ++ after))) = ks.map (Node.text · raw) := by
      rw [List.map_map]
      refine List.map_congr_left fun k hk => ?_
      obtain ⟨-, hstop, hle, -⟩ := Node.fits_iff.1 (hks k hk)
      exact Node.text_moved before after hle hstop
    have hchildren' : (n.moved before.length).children =
        Node.movedAll (n.moved before.length).start content.root.children ++
          ks.map (Node.moved before.length) := by
      rw [Node.children_moved, hchildren, Node.movedAll_eq_map, List.map_append,
        ← Node.movedAll_eq_map, Node.movedAll_movedAll, Node.start_moved]
    refine .node ?_ hchildren' ?_ ?_
    · rw [Node.text_moved before after hle hstop, htexts, htext]
    · rw [List.map_map, ← hnames]
      exact List.map_congr_left fun k _ => Node.name_moved before.length k
    · intro x hx
      rw [List.zip_map_right] at hx
      obtain ⟨⟨e, k⟩, hmem, rfl⟩ := List.mem_map.1 hx
      exact ih (e, k) hmem (hks k (List.of_mem_zip hmem).2)

namespace Tree

variable {s c t : Tree}

/-- Nameless trees that are merged into an empty one are taken over as they are. -/
theorem merge_empty_left (h : t.isValid = true) : Tree.empty.merge t .concatenate = .ok t := by
  obtain ⟨hstart, -, -⟩ := isValid_iff.1 h
  obtain ⟨⟨name, start, stop, children⟩, raw⟩ := t
  cases hstart
  rw [merge_of_canMerge rfl]
  simp [Tree.empty, Node.blank, rootName]

end Tree

/-- A child that is pushed is one more of the nodes that are asked for. -/
theorem Realizes.push {s c content : Tree} {done : List (String × Outline)} {o : Outline}
    (h : Realizes s.raw (.node content done) s.root) (hs : s.isValid = true)
    (hc : Realizes c.raw o c.root) (hcvalid : c.isValid = true)
    (hpush : (s.push c).isValid = true) :
    Realizes (s.push c).raw (.node content (done ++ [(c.rootName, o)])) (s.push c).root := by
  have hfits := Tree.fits_of_isValid hs
  have hcfits := Tree.fits_of_isValid hcvalid
  obtain ⟨-, hstop, hle, -⟩ := Node.fits_iff.1 hfits
  obtain ⟨-, hcstop, hcle, -⟩ := Node.fits_iff.1 hcfits
  have hold := h.moved hfits [] c.raw
  have hstext := Node.text_moved [] c.raw hle hstop
  have hnew := hc.moved hcfits s.raw []
  have hctext := Node.text_moved s.raw [] hcle hcstop
  simp only [List.nil_append, List.length_nil, Node.moved_zero, Tree.text_root hs] at hold hstext
  simp only [List.append_nil, Tree.text_root hcvalid] at hnew hctext
  cases hold with
  | @node _ _ _ ks htext hchildren hnames hnext =>
    have hchildren' : (s.push c).root.children =
        Node.movedAll (s.push c).root.start content.root.children ++
          (ks ++ [c.root.moved s.raw.length]) := by
      rw [← List.append_assoc, ← (Tree.isValid_iff.1 hs).2.1]
      exact congrArg (· ++ [c.root.moved s.root.stop]) hchildren
    refine .node ?_ hchildren' ?_ ?_
    · rw [Tree.text_root hpush, Tree.raw_push, List.map_append, List.flatten_append,
        ← List.append_assoc, ← htext, hstext]
      simp [hctext]
    · simp [hnames, Tree.rootName]
    · have hlen : done.length = ks.length := by
        have hlength := congrArg List.length hnames
        simpa using hlength.symm
      rw [List.zip_append hlen]
      intro x hx
      rcases List.mem_append.1 hx with hx | hx
      · exact hnext x hx
      · rw [List.mem_singleton.1 hx]
        exact hnew

/-- The segments of an absolute key behind the root. -/
theorem Name.isSegment_below {key : String} (h : IsAbsoluteKey key) :
    ∀ seg ∈ Path.segmentsBelowRoot key, isSegment seg.toList = true := by
  obtain ⟨segs, hsegs, hall⟩ := isAbsoluteKey_iff.1 h
  intro seg hseg
  rw [Path.segmentsBelowRoot, hsegs, List.tail_cons] at hseg
  obtain ⟨cs, hcs, rfl⟩ := List.mem_map.1 hseg
  rw [String.toList_ofList]
  exact hall cs hcs

/-- Different absolute keys have different segments. -/
theorem Name.IsAbsoluteKey.eq_of_below {key key' : String} (h : IsAbsoluteKey key)
    (h' : IsAbsoluteKey key') (heq : Path.segmentsBelowRoot key = Path.segmentsBelowRoot key') :
    key = key' := by
  obtain ⟨segs, hsegs, -⟩ := isAbsoluteKey_iff.1 h
  obtain ⟨segs', hsegs', -⟩ := isAbsoluteKey_iff.1 h'
  rw [Path.segmentsBelowRoot, Path.segmentsBelowRoot, hsegs, hsegs', List.tail_cons,
    List.tail_cons] at heq
  have hmap := congrArg (List.map String.toList) heq
  simp only [List.map_map, Function.comp_def, String.toList_ofList, List.map_id'] at hmap
  refine eq_of_segments ?_
  rw [hsegs, hsegs', hmap]

/-! ## Outlines of entries -/

namespace Outline

variable {o o' : Outline} {t : Tree} {next : List (String × Outline)} {seg : String}
  {segs q : List String}

def content : Outline → Tree
  | node content _ => content

/-- What lies below a chain of segments. -/
def at? : Outline → List String → Option Outline
  | o, [] => some o
  | node _ next, seg :: q => (Entries.get? next seg).bind (at? · q)

/-- The content at a chain of segments, where there may be none. -/
def contentAt (o : Outline) (q : List String) : Tree := ((o.at? q).getD empty).content

/-- Outlines with names and contents as they are in paths, each level in order. -/
inductive Ordered : Outline → Prop
  | node {content : Tree} {next : List (String × Outline)} (hvalid : content.WellFormed)
      (hname : content.rootName = "") (hsorted : Entries.Sorted next)
      (hnames : ∀ e ∈ next, Name.isSegment e.1.toList = true)
      (hnext : ∀ e ∈ next, Ordered e.2) : Ordered (node content next)

theorem ordered_empty : empty.Ordered :=
  .node Tree.wellFormed_empty rfl .nil (by simp) (by simp)

theorem at?_empty : (empty.at? q).isSome ↔ q = [] := by
  cases q with
  | nil => exact iff_of_true rfl rfl
  | cons seg q => exact iff_of_false Bool.false_ne_true (List.cons_ne_nil seg q)

theorem contentAt_empty : empty.contentAt q = Tree.empty := by
  cases q <;> rfl

theorem contentAt_cons : (node t next).contentAt (seg :: q) =
    ((Entries.get? next seg).getD empty).contentAt q := by
  rw [contentAt, at?]
  cases Entries.get? next seg with
  | none => exact contentAt_empty.symm
  | some o => rfl

theorem isSome_at?_cons : ((node t next).at? (seg :: q)).isSome ↔
    ∃ o, Entries.get? next seg = some o ∧ (o.at? q).isSome := by
  rw [at?]
  cases Entries.get? next seg <;> simp

theorem at?_append (o : Outline) (q q' : List String) :
    o.at? (q ++ q') = (o.at? q).bind (at? · q') := by
  induction q generalizing o with
  | nil => rfl
  | cons seg q ih =>
    obtain ⟨content, next⟩ := o
    rw [List.cons_append, at?, at?]
    cases Entries.get? next seg with
    | none => rfl
    | some o => exact ih o

/-- A change at a name is an insertion at that name. -/
theorem changeAt_eq (change : Outline → Except Error Outline) (hsorted : Entries.Sorted next) :
    changeAt change seg next = (change ((Entries.get? next seg).getD empty)).map
      fun o => Entries.insert seg o next := by
  induction next with
  | nil => rfl
  | cons e rest ih =>
    obtain ⟨k, o⟩ := e
    obtain ⟨hk, hrest⟩ := List.pairwise_cons.1 hsorted
    rw [changeAt, Entries.get?]
    by_cases hlt : seg < k
    · have hne : k ≠ seg := fun heq => String.lt_irrefl seg (heq ▸ hlt)
      have hnone : Entries.get? rest seg = none := by
        cases hget : Entries.get? rest seg with
        | none => rfl
        | some o =>
          have hgt : k < seg := hk _ (Entries.mem_of_get? hget)
          exact absurd (String.lt_trans hlt hgt) (String.lt_irrefl seg)
      rw [if_pos hlt, if_neg hne, hnone]
      simp only [Entries.insert, if_pos hlt]
      rfl
    · by_cases heq : k = seg
      · rw [if_neg hlt, if_pos heq, if_pos heq]
        simp only [Entries.insert, if_neg hlt, if_pos heq]
        rw [heq]
        rfl
      · rw [if_neg hlt, if_neg heq, if_neg heq, ih hrest]
        simp only [Entries.insert, if_neg hlt, if_neg heq]
        cases change ((Entries.get? rest seg).getD empty) <;> rfl

theorem add_cons (hsorted : Entries.Sorted next) {content : Tree} :
    add t (seg :: segs) (node content next) =
      (add t segs ((Entries.get? next seg).getD empty)).map
        fun o => node content (Entries.insert seg o next) := by
  rw [add, changeAt_eq _ hsorted]
  cases add t segs ((Entries.get? next seg).getD empty) <;> rfl

/-- A content that was added below a name stands there, and nothing else has changed. -/
theorem contentAt_insert {content : Tree}
    (h : ∀ q, o'.contentAt q =
      if q = segs then t else ((Entries.get? next seg).getD empty).contentAt q) (q : List String) :
    (node content (Entries.insert seg o' next)).contentAt q =
      if q = seg :: segs then t else (node content next).contentAt q := by
  cases q with
  | nil => rfl
  | cons seg' q =>
    rw [contentAt_cons, contentAt_cons]
    by_cases heq : seg' = seg
    · subst heq
      rw [Entries.get?_insert_self, Option.getD_some, h]
      simp
    · rw [Entries.get?_insert_ne heq]
      simp [heq]

/-- The chains that are added are the beginnings of the one at which a content was added. -/
theorem isSome_at?_insert {content : Tree}
    (h : ∀ q, (o'.at? q).isSome ↔
      (((Entries.get? next seg).getD empty).at? q).isSome ∨ q <+: segs) (q : List String) :
    ((node content (Entries.insert seg o' next)).at? q).isSome ↔
      ((node content next).at? q).isSome ∨ q <+: seg :: segs := by
  cases q with
  | nil => exact iff_of_true rfl (.inl rfl)
  | cons seg' q =>
    rw [isSome_at?_cons, isSome_at?_cons, List.cons_prefix_cons]
    by_cases heq : seg' = seg
    · subst heq
      rw [Entries.get?_insert_self]
      simp only [Option.some.injEq, exists_eq_left', h, true_and]
      cases hget : Entries.get? next seg' with
      | none =>
        simp only [Option.getD_none, at?_empty]
        constructor
        · rintro (rfl | h)
          · exact .inr List.nil_prefix
          · exact .inr h
        · rintro (⟨_, h, -⟩ | h)
          · cases h
          · exact .inr h
      | some o => simp
    · rw [Entries.get?_insert_ne heq]
      simp [heq]

/-- Adding a content where there is none yet: it stands there, and nothing else has changed. -/
theorem add_ok (ho : o.Ordered) (ht : t.WellFormed) (hname : t.rootName = "")
    (hsegs : ∀ seg ∈ segs, Name.isSegment seg.toList = true)
    (hfree : o.contentAt segs = Tree.empty) :
    ∃ o', add t segs o = .ok o' ∧ o'.Ordered ∧
      (∀ q, o'.contentAt q = if q = segs then t else o.contentAt q) ∧
      ∀ q, (o'.at? q).isSome ↔ (o.at? q).isSome ∨ q <+: segs := by
  induction segs generalizing o with
  | nil =>
    cases ho with
    | @node content next hvalid hcontent hsorted hnames hnext =>
      have hempty : content = Tree.empty := hfree
      refine ⟨node t next, ?_, .node ht hname hsorted hnames hnext, fun q => ?_, fun q => ?_⟩
      · rw [add, hempty, Tree.merge_empty_left ht.isValid]
        rfl
      · cases q with
        | nil => rfl
        | cons seg q => rw [if_neg (List.cons_ne_nil seg q), contentAt_cons, contentAt_cons]
      · cases q with
        | nil => exact iff_of_true rfl (.inl rfl)
        | cons seg q => simp [isSome_at?_cons]
  | cons seg segs ih =>
    cases ho with
    | @node content next hvalid hcontent hsorted hnames hnext =>
      have hbelow : ((Entries.get? next seg).getD empty).Ordered := by
        cases hget : Entries.get? next seg with
        | none => exact ordered_empty
        | some o => exact hnext _ (Entries.mem_of_get? hget)
      rw [contentAt_cons] at hfree
      obtain ⟨o₁, hadd, hordered, hcontents, hsome⟩ :=
        ih hbelow (fun s hs => hsegs s (.tail _ hs)) hfree
      refine ⟨node content (Entries.insert seg o₁ next), ?_, ?_, contentAt_insert hcontents,
        isSome_at?_insert hsome⟩
      · rw [add_cons hsorted, hadd]
        rfl
      · exact .node hvalid hcontent (hsorted.insert seg o₁)
          (Entries.forall_insert hnames (hsegs seg (.head _)))
          (Entries.forall_insert hnext hordered)

/-- Contents at chains of segments that are all different: each stands where it was added. -/
theorem addAll_ok {es : Entries Tree} (ho : o.Ordered)
    (hes : ∀ e ∈ es, Name.IsAbsoluteKey e.1 ∧ e.2.WellFormed ∧ e.2.rootName = "")
    (hdistinct : es.Pairwise fun e f => Path.segmentsBelowRoot e.1 ≠ Path.segmentsBelowRoot f.1)
    (hfree : ∀ e ∈ es, o.contentAt (Path.segmentsBelowRoot e.1) = Tree.empty) :
    ∃ o', es.foldlM (fun (o : Outline) (k, t) => o.add t (Path.segmentsBelowRoot k)) o = .ok o' ∧
      o'.Ordered ∧
      (∀ q, o'.contentAt q =
        ((es.find? (Path.segmentsBelowRoot ·.1 == q)).map Prod.snd).getD (o.contentAt q)) ∧
      ∀ q, (o'.at? q).isSome ↔ (o.at? q).isSome ∨ ∃ e ∈ es, q <+: Path.segmentsBelowRoot e.1 := by
  induction es generalizing o with
  | nil => exact ⟨o, rfl, ho, fun q => rfl, fun q => by simp⟩
  | cons e es ih =>
    obtain ⟨k, t⟩ := e
    obtain ⟨hk, hdistinct'⟩ := List.pairwise_cons.1 hdistinct
    obtain ⟨hkey, ht, hname⟩ := hes (k, t) (.head _)
    obtain ⟨o₁, hadd, ho₁, hcontents, hsome⟩ :=
      add_ok ho ht hname (Name.isSegment_below hkey) (hfree (k, t) (.head _))
    have hfree₁ : ∀ e ∈ es, o₁.contentAt (Path.segmentsBelowRoot e.1) = Tree.empty := by
      intro e he
      rw [hcontents, if_neg (Ne.symm (hk e he))]
      exact hfree e (.tail _ he)
    obtain ⟨o', hrest, ho', hcontents', hsome'⟩ :=
      ih ho₁ (fun e he => hes e (.tail _ he)) hdistinct' hfree₁
    refine ⟨o', ?_, ho', fun q => ?_, fun q => ?_⟩
    · rw [List.foldlM_cons]
      show (o.add t (Path.segmentsBelowRoot k) >>= _) = _
      rw [hadd]
      exact hrest
    · rw [hcontents', List.find?_cons]
      by_cases hq : Path.segmentsBelowRoot k = q
      · have hnone : es.find? (Path.segmentsBelowRoot ·.1 == q) = none := by
          refine List.find?_eq_none.2 fun e he => ?_
          have hne := hk e he
          rw [hq] at hne
          simpa using Ne.symm hne
        have hbeq : (Path.segmentsBelowRoot k == q) = true := by simpa using hq
        rw [hnone, hbeq, hcontents, if_pos hq.symm]
        rfl
      · have hbeq : (Path.segmentsBelowRoot k == q) = false := by simpa using hq
        rw [hbeq, hcontents, if_neg (Ne.symm hq)]
    · rw [hsome', hsome, or_assoc]
      simp

/-- A named tree without text that takes over a content. -/
theorem realizes_named {content : Tree} (name : String) (hvalid : content.isValid = true)
    (hname : content.rootName = "") :
    ∃ s, Tree.merge ⟨Node.blank name, []⟩ content .concatenate = .ok s ∧ s.rootName = name ∧
      Realizes s.raw (node content []) s.root := by
  obtain ⟨-, hstop, -⟩ := Tree.isValid_iff.1 hvalid
  have hmerge : Tree.canMergeNames name content.rootName = true := by
    rw [hname, Tree.canMergeNames]
    simp
  refine ⟨_, Tree.merge_of_canMerge hmerge, ?_, ?_⟩
  · show (if name.isEmpty then content.rootName else name) = name
    by_cases hempty : name.isEmpty = true
    · rw [if_pos hempty, hname]
      exact (String.isEmpty_iff.1 hempty).symm
    · rw [if_neg hempty]
  · refine .node ?_ (List.append_nil _).symm rfl (by simp)
    show Node.text _ ([] ++ content.raw) = _
    simp [Node.text, Node.blank, hstop]

mutual

/-- An outline is built into a tree in which its nodes are what it asks for. -/
theorem build_ok : ∀ {o : Outline} {name : String}, o.Ordered → Name.isNode name = true →
    ∃ t, build name o = .ok t ∧ t.WellFormed ∧ t.rootName = name ∧ Realizes t.raw o t.root
  | node content next, name, ho, hname => by
    cases ho with
    | node hcontent hnone hsorted hnames hnext =>
      have hnamed : Tree.named name = .ok ⟨Node.blank name, []⟩ := if_pos hname
      obtain ⟨s, hmerge, hsname, hreal⟩ := realizes_named name hcontent.isValid hnone
      have hs := (Tree.WellFormed.named hnamed).merge hcontent hmerge
      obtain ⟨t, hbuild, ht, htname, htreal⟩ := buildInto_ok hnames hnext hs hreal
      refine ⟨t, ?_, ht, htname.trans hsname, htreal⟩
      rw [build, hnamed]
      show (Tree.merge ⟨Node.blank name, []⟩ content .concatenate >>= _) = _
      rw [hmerge]
      exact hbuild

theorem buildInto_ok : ∀ {next : List (String × Outline)} {s content : Tree}
    {done : List (String × Outline)}, (∀ e ∈ next, Name.isSegment e.1.toList = true) →
    (∀ e ∈ next, e.2.Ordered) → s.WellFormed →
    Realizes s.raw (node content done) s.root →
    ∃ t, buildInto s next = .ok t ∧ t.WellFormed ∧ t.rootName = s.rootName ∧
      Realizes t.raw (node content (done ++ next)) t.root
  | [], s, content, done, _, _, hs, h => by
    refine ⟨s, by rw [buildInto], hs, rfl, ?_⟩
    rwa [List.append_nil]
  | (k, o) :: rest, s, content, done, hnames, hnext, hs, h => by
    have hk : Name.isNode k = true := by
      rw [Name.isNode, hnames (k, o) (.head _), Bool.or_true]
    obtain ⟨c, hbuild, hc, hcname, hcreal⟩ := build_ok (hnext (k, o) (.head _)) hk
    have hpush := hs.push hc
    have hreal := h.push hs.isValid hcreal hc.isValid hpush.isValid
    obtain ⟨t, hrest, ht, htname, htreal⟩ := buildInto_ok (fun e he => hnames e (.tail _ he))
      (fun e he => hnext e (.tail _ he)) hpush hreal
    refine ⟨t, ?_, ht, htname, ?_⟩
    · rw [buildInto, hbuild]
      exact hrest
    · rw [hcname, List.append_assoc] at htreal
      exact htreal

end

end Outline

/-! ## The tree of a path -/

namespace Path

/-- The content that is stored at a chain of segments behind the root. -/
def contentAt (p : Path) (q : List String) : Tree :=
  ((p.absolute.find? (segmentsBelowRoot ·.1 == q)).map Prod.snd).getD Tree.empty

/-- The chain begins an absolute key, or is one. -/
def Begins (p : Path) (q : List String) : Prop :=
  ∃ e ∈ p.absolute, q <+: segmentsBelowRoot e.1

/-- The children of a node behind those of the content that is stored at the chain. -/
def segmentNodes (p : Path) (q : List String) (n : Node) : List Node :=
  n.children.drop (p.contentAt q).root.children.length

/-- The node made for a chain of segments. -/
inductive MadeFor (p : Path) (t : Tree) : List String → Node → Prop
  | root : MadeFor p t [] t.root
  | next {q : List String} {n c : Node} (h : MadeFor p t q n) (hc : c ∈ p.segmentNodes q n) :
      MadeFor p t (q ++ [c.name]) c

/-- How the tree of a path is made up. -/
structure Arranges (p : Path) (t : Tree) : Prop where
  /-- There is one node for each beginning of a key, and for nothing else. -/
  unique : ∀ q, p.Begins q → ∃ n, p.MadeFor t q n ∧ ∀ m, p.MadeFor t q m → m = n
  begins : ∀ q n, p.MadeFor t q n → p.Begins q
  /-- It is called by the last segment, -/
  name : ∀ q n, p.MadeFor t q n → n.name = q.getLastD "$"
  /-- its children are those of the content stored there, then those made for the next segments, -/
  children : ∀ q n, p.MadeFor t q n →
    n.children = Node.movedAll n.start (p.contentAt q).root.children ++ p.segmentNodes q n
  /-- each once and in the order of bytes, -/
  sorted : ∀ q n, p.MadeFor t q n →
    ((p.segmentNodes q n).map Node.name).Pairwise Utf8.Precedes
  next : ∀ q n, p.MadeFor t q n → ∀ seg,
    seg ∈ (p.segmentNodes q n).map Node.name ↔ p.Begins (q ++ [seg])
  /-- and its text is that of the content, then those of the nodes for the next segments. -/
  text : ∀ q n, p.MadeFor t q n →
    n.text t.raw = (p.contentAt q).raw ++ ((p.segmentNodes q n).map (Node.text · t.raw)).flatten
  /-- All other nodes belong to a content. -/
  others : ∀ x ∈ t.preorder, (∃ q, p.MadeFor t q x.2) ∨
    ∃ q n depth, p.MadeFor t q n ∧
      x ∈ Node.preorderAll depth (Node.movedAll n.start (p.contentAt q).root.children)

variable {p : Path} {t : Tree} {o : Outline} {q : List String} {n : Node}

/-- The outline of a path, and the tree that was built from it. -/
structure Outlined (p : Path) (o : Outline) (t : Tree) : Prop where
  ordered : o.Ordered
  contents : ∀ q, o.contentAt q = p.contentAt q
  begins : ∀ q, (o.at? q).isSome ↔ p.Begins q
  realizes : Realizes t.raw o t.root
  name : t.rootName = "$"

/-- What an outline says of the node made for a chain of segments. -/
inductive At (p : Path) (o : Outline) (t : Tree) (q : List String) (n : Node) : Prop
  | node {next : List (String × Outline)} (hat : o.at? q = some (.node (p.contentAt q) next))
      (hordered : (Outline.node (p.contentAt q) next).Ordered)
      (htext : n.text t.raw =
        (p.contentAt q).raw ++ ((p.segmentNodes q n).map (Node.text · t.raw)).flatten)
      (hchildren : n.children =
        Node.movedAll n.start (p.contentAt q).root.children ++ p.segmentNodes q n)
      (hnames : (p.segmentNodes q n).map Node.name = next.map Prod.fst)
      (hnext : ∀ x ∈ next.zip (p.segmentNodes q n), Realizes t.raw x.1.2 x.2)

theorem Outlined.at_of_realizes (h : Outlined p o t) {o' : Outline} (hat : o.at? q = some o')
    (hreal : Realizes t.raw o' n) (hordered : o'.Ordered) : At p o t q n := by
  have hcontent := h.contents q
  rw [Outline.contentAt, hat] at hcontent
  cases hreal with
  | @node content next _ ks htext hchildren hnames hnext =>
    change content = p.contentAt q at hcontent
    have hks : p.segmentNodes q n = ks := by
      have hlen : (Node.movedAll n.start content.root.children).length =
          (p.contentAt q).root.children.length := by
        rw [Node.movedAll_eq_map, List.length_map, hcontent]
      rw [segmentNodes, hchildren, ← hlen, List.drop_left]
    rw [hcontent] at hat hordered htext hchildren
    exact .node hat hordered (by rw [hks, htext]) (by rw [hks, hchildren]) (by rw [hks, hnames])
      (by rwa [hks])

/-- Nodes in the order of their outlines: each has its own. -/
theorem exists_mem_zip {next : List (String × Outline)} {ks : List Node} {c : Node}
    (hnames : ks.map Node.name = next.map Prod.fst) (hc : c ∈ ks) :
    ∃ o, ((c.name, o), c) ∈ next.zip ks := by
  induction ks generalizing next with
  | nil => cases hc
  | cons k ks ih =>
    cases next with
    | nil => cases hnames
    | cons e next =>
      obtain ⟨hname, hrest⟩ := List.cons.inj hnames
      rcases List.mem_cons.1 hc with rfl | hc
      · exact ⟨e.2, by rw [hname]; exact .head _⟩
      · obtain ⟨o, hmem⟩ := ih hrest hc
        exact ⟨o, .tail _ hmem⟩

theorem eq_of_name {ks : List Node} {c d : Node} (h : (ks.map Node.name).Pairwise (· < ·))
    (hc : c ∈ ks) (hd : d ∈ ks) (hname : c.name = d.name) : c = d := by
  induction ks with
  | nil => cases hc
  | cons k ks ih =>
    obtain ⟨hk, hks⟩ := List.pairwise_cons.1 h
    have hne : ∀ e ∈ ks, k.name ≠ e.name := fun e he heq =>
      String.lt_irrefl k.name (heq ▸ hk _ (List.mem_map_of_mem he))
    rcases List.mem_cons.1 hc with hck | hck
    · rcases List.mem_cons.1 hd with hdk | hdk
      · rw [hck, hdk]
      · exact absurd (hck ▸ hname) (hne d hdk)
    · rcases List.mem_cons.1 hd with hdk | hdk
      · exact absurd (hdk ▸ hname.symm) (hne c hck)
      · exact ih hks hck hdk

theorem Outlined.madeFor (h : Outlined p o t) (hn : p.MadeFor t q n) :
    At p o t q n ∧ n.name = q.getLastD "$" := by
  induction hn with
  | root => exact ⟨h.at_of_realizes rfl h.realizes h.ordered, h.name⟩
  | @next q n c hn hc ih =>
    obtain ⟨@⟨next, hat, hordered, -, -, hnames, hnext⟩, -⟩ := ih
    obtain ⟨o', hzip⟩ := exists_mem_zip hnames hc
    cases hordered with
    | node _ _ hsorted _ hbelow =>
      have hmem := (List.of_mem_zip hzip).1
      have hat' : o.at? (q ++ [c.name]) = some o' := by
        rw [Outline.at?_append, hat]
        show (Entries.get? next c.name).bind _ = _
        rw [hsorted.get?_eq_some.2 hmem]
        rfl
      refine ⟨h.at_of_realizes hat' (hnext _ hzip) (hbelow _ hmem), ?_⟩
      simp

/-- The names of the nodes for the next segments. -/
theorem Outlined.mem_names (h : Outlined p o t) (hn : p.MadeFor t q n) (seg : String) :
    seg ∈ (p.segmentNodes q n).map Node.name ↔ p.Begins (q ++ [seg]) := by
  obtain ⟨@⟨next, hat, hordered, -, -, hnames, -⟩, -⟩ := h.madeFor hn
  cases hordered with
  | node _ _ hsorted _ _ =>
    have hat' : o.at? (q ++ [seg]) = Entries.get? next seg := by
      rw [Outline.at?_append, hat]
      show (Entries.get? next seg).bind some = _
      cases Entries.get? next seg <;> rfl
    rw [hnames, ← h.begins, hat', Option.isSome_iff_exists, List.mem_map]
    constructor
    · rintro ⟨⟨k, o'⟩, hmem, rfl⟩
      exact ⟨o', hsorted.get?_eq_some.2 hmem⟩
    · rintro ⟨o', hget⟩
      exact ⟨(seg, o'), hsorted.get?_eq_some.1 hget, rfl⟩

theorem Outlined.names_sorted (h : Outlined p o t) (hn : p.MadeFor t q n) :
    ((p.segmentNodes q n).map Node.name).Pairwise (· < ·) ∧
      ∀ seg ∈ (p.segmentNodes q n).map Node.name, Name.isSegment seg.toList = true := by
  obtain ⟨⟨-, hordered, -, -, hnames, -⟩, -⟩ := h.madeFor hn
  cases hordered with
  | node _ _ hsorted hsegs _ =>
    rw [hnames]
    refine ⟨List.pairwise_map.2 hsorted, fun seg hseg => ?_⟩
    obtain ⟨e, he, rfl⟩ := List.mem_map.1 hseg
    exact hsegs e he

/-- From a node on, there is a node for every longer chain that begins a key. -/
theorem Outlined.exists_madeFor (h : Outlined p o t) (r : List String) (hn : p.MadeFor t q n)
    (hr : p.Begins (q ++ r)) : ∃ m, p.MadeFor t (q ++ r) m := by
  induction r generalizing q n with
  | nil => exact ⟨n, by rwa [List.append_nil]⟩
  | cons seg r ih =>
    have hseg : p.Begins (q ++ [seg]) := by
      obtain ⟨e, he, hprefix⟩ := hr
      refine ⟨e, he, List.IsPrefix.trans ?_ hprefix⟩
      exact ⟨r, by simp⟩
    obtain ⟨c, hc, hname⟩ := List.mem_map.1 ((h.mem_names hn seg).2 hseg)
    have hnext := MadeFor.next hn hc
    rw [hname] at hnext
    have happend : q ++ seg :: r = (q ++ [seg]) ++ r := by simp
    rw [happend] at hr ⊢
    exact ih hnext hr

theorem Outlined.unique (h : Outlined p o t) (hn : p.MadeFor t q n) :
    ∀ m, p.MadeFor t q m → m = n := by
  induction hn with
  | root =>
    intro m hm
    generalize hq : ([] : List String) = q at hm
    cases hm with
    | root => rfl
    | next => simp at hq
  | @next q n c hn hc ih =>
    intro m hm
    generalize hq : q ++ [c.name] = q' at hm
    cases hm with
    | root => simp at hq
    | @next q' n' _ hm hd =>
      obtain ⟨rfl, hlast⟩ := List.append_inj' hq rfl
      have hname : c.name = m.name := (List.cons.inj hlast).1
      rw [ih n' hm] at hd
      exact eq_of_name (h.names_sorted hn).1 hd hc hname.symm

/-- A node that was made for a chain of segments, or one of a content. -/
def Accounted (p : Path) (t : Tree) (x : Nat × Node) : Prop :=
  (∃ q, p.MadeFor t q x.2) ∨ ∃ q n depth, p.MadeFor t q n ∧
    x ∈ Node.preorderAll depth (Node.movedAll n.start (p.contentAt q).root.children)

theorem mem_preorderAll {ns : List Node} {depth : Nat} {x : Nat × Node} (hn : n ∈ ns)
    (hx : x ∈ n.preorder depth) : x ∈ Node.preorderAll depth ns := by
  induction ns with
  | nil => cases hn
  | cons m ns ih =>
    rw [Node.preorderAll]
    rcases List.mem_cons.1 hn with rfl | hn
    · exact List.mem_append_left _ hx
    · exact List.mem_append_right _ (ih hn)

mutual

theorem Outlined.accounted (h : Outlined p o t) : ∀ (n : Node) (depth : Nat) (q : List String),
    p.MadeFor t q n → ∀ x ∈ n.preorder depth, Accounted p t x
  | ⟨name, start, stop, children⟩, depth, q, hn, x, hx => by
    rw [Node.preorder] at hx
    rcases List.mem_cons.1 hx with rfl | hx
    · exact .inl ⟨q, hn⟩
    · obtain ⟨⟨-, -, -, hchildren, -, -⟩, -⟩ := h.madeFor hn
      refine Outlined.accountedAll h children (depth + 1) (fun c hc => ?_) x hx
      rw [show children = _ from hchildren] at hc
      rcases List.mem_append.1 hc with hc | hc
      · exact .inr ⟨q, _, hn, hc⟩
      · exact .inl ⟨_, .next hn hc⟩

theorem Outlined.accountedAll (h : Outlined p o t) : ∀ (ns : List Node) (depth : Nat),
    (∀ c ∈ ns, (∃ q, p.MadeFor t q c) ∨ ∃ q n, p.MadeFor t q n ∧
      c ∈ Node.movedAll n.start (p.contentAt q).root.children) →
    ∀ x ∈ Node.preorderAll depth ns, Accounted p t x
  | [], _, _, x, hx => by cases hx
  | n :: ns, depth, hns, x, hx => by
    rw [Node.preorderAll] at hx
    rcases List.mem_append.1 hx with hx | hx
    · rcases hns n (.head _) with ⟨q, hn⟩ | ⟨q, m, hm, hn⟩
      · exact Outlined.accounted h n depth q hn x hx
      · exact .inr ⟨q, m, depth, hm, mem_preorderAll hn hx⟩
    · exact Outlined.accountedAll h ns depth (fun c hc => hns c (.tail _ hc)) x hx

end

theorem Outlined.arranges (h : Outlined p o t) : Arranges p t where
  unique q hq := by
    obtain ⟨n, hn⟩ := h.exists_madeFor q .root hq
    exact ⟨n, hn, h.unique hn⟩
  begins q n hn := by
    obtain ⟨⟨hat, -, -, -, -, -⟩, -⟩ := h.madeFor hn
    rw [← h.begins, hat]
    rfl
  name q n hn := (h.madeFor hn).2
  children q n hn := by
    obtain ⟨⟨-, -, -, hchildren, -, -⟩, -⟩ := h.madeFor hn
    exact hchildren
  sorted q n hn := by
    obtain ⟨hsorted, hsegs⟩ := h.names_sorted hn
    have hascii : ∀ seg ∈ (p.segmentNodes q n).map Node.name, Name.IsAscii seg :=
      fun seg hseg c hc => (Name.isSegment_ascii (hsegs seg hseg) c hc).1
    exact hsorted.imp_of_mem fun hs ht => Utf8.precedes_of_lt (hascii _ hs) (hascii _ ht)
  next q n hn seg := h.mem_names hn seg
  text q n hn := by
    obtain ⟨⟨-, -, htext, -, -, -⟩, -⟩ := h.madeFor hn
    exact htext
  others := h.accounted t.root 0 [] .root

/-- Absolute entries alone are arranged. -/
theorem Orderly.toTree_ok (hp : p.Orderly) (hw : p.WellFormed) (hrelative : p.relative = []) :
    ∃ t o, p.toTree = .ok t ∧ t.WellFormed ∧ Outlined p o t := by
  have hkeyed := hp.absolute
  have hdistinct : p.absolute.Pairwise fun e f =>
      segmentsBelowRoot e.1 ≠ segmentsBelowRoot f.1 := by
    refine hkeyed.sorted.imp_of_mem fun he hf hlt heq => ?_
    have hkey := (hkeyed.key _ he).eq_of_below (hkeyed.key _ hf) heq
    exact String.lt_irrefl _ (hkey ▸ hlt)
  obtain ⟨o, hadd, hordered, hcontents, hsome⟩ := Outline.addAll_ok Outline.ordered_empty
    (fun e he => ⟨hkeyed.key e he, hw.absolute e he, hkeyed.nameless e he⟩) hdistinct
    fun e _ => Outline.contentAt_empty
  obtain ⟨t, hbuild, ht, hname, hrealizes⟩ := Outline.build_ok hordered
    (show Name.isNode Name.root = true by decide)
  -- the path's own key is among the absolute ones, so the root begins one of them
  have hroot : p.Begins [] := by
    obtain ⟨content, hown⟩ := Option.isSome_iff_exists.1 hp.own
    unfold Path.own at hown
    split at hown
    · exact ⟨_, Entries.mem_of_get? hown, List.nil_prefix⟩
    · rw [hrelative] at hown
      cases hown
  refine ⟨t, o, ?_, ht, hordered, fun q => ?_, fun q => ?_, hrealizes, hname⟩
  · rw [toTree, hrelative]
    show (p.absolute.foldlM _ Outline.empty >>= _) = _
    rw [hadd]
    exact hbuild
  · rw [hcontents, Outline.contentAt_empty]
    rfl
  · rw [hsome, Outline.at?_empty]
    constructor
    · rintro (rfl | h)
      · exact hroot
      · exact h
    · exact .inr

/-- The first key in the order of bytes. -/
def IsLeastKey (es : Entries Tree) (key : String) : Prop :=
  (∃ t, (key, t) ∈ es) ∧ ∀ e ∈ es, e.1 = key ∨ Utf8.Precedes key e.1

theorem Orderly.toTree_error (hp : p.Orderly) (hrelative : p.relative ≠ []) :
    ∃ key, IsLeastKey p.relative key ∧ p.toTree = .error (.relativePath key) := by
  have hkeyed := hp.relative
  cases hes : p.relative with
  | nil => exact absurd hes hrelative
  | cons e es =>
    rw [hes] at hkeyed
    have hascii : ∀ f ∈ e :: es, Name.IsAscii f.1 := fun f hf =>
      Name.isAscii_of_isRelativePath (hkeyed.key f hf)
    refine ⟨e.1, ⟨⟨e.2, .head _⟩, fun f hf => ?_⟩, by rw [toTree, hes]; rfl⟩
    rcases List.mem_cons.1 hf with rfl | hmem
    · exact .inl rfl
    · have hlt := (List.pairwise_cons.1 hkeyed.sorted).1 f hmem
      exact .inr (Utf8.precedes_of_lt (hascii e (.head _)) (hascii f hf) hlt)

/-- What holds of a path that was made by the operations on paths. -/
structure Composed (p : Path) : Prop where
  /-- Any other can be attached to it, -/
  append : ∀ q : Path, q.Made → ∃ p', p.append q = .ok p'
  absolute : ∀ e ∈ p.absolute, e.1 = "$" ∨ Name.isPath e.1 = true
  relative : ∀ e ∈ p.relative, Name.isRelativePath e.1 = true
  /-- it makes no tree if it has relative entries, of which the first is named, -/
  fails : p.relative ≠ [] →
    ∃ key, IsLeastKey p.relative key ∧ p.toTree = .error (.relativePath key)
  /-- and otherwise the tree of its absolute entries. -/
  tree : p.relative = [] →
    ∃ t, p.toTree = .ok t ∧ t.isValid = true ∧ t.rootName = "$" ∧ Arranges p t

/-- **Paths compose, and their trees are arranged by their keys.** -/
theorem Made.composed (hp : p.Made) : p.Composed := by
  have horderly := hp.orderly
  refine ⟨fun q hq => ?_, horderly.absolute.key, horderly.relative.key, horderly.toTree_error,
    fun hrelative => ?_⟩
  · obtain ⟨p', happend, -⟩ := horderly.append hq.orderly
    exact ⟨p', happend⟩
  · obtain ⟨t, o, htree, ht, houtlined⟩ := horderly.toTree_ok hp.wellFormed hrelative
    exact ⟨t, htree, ht.isValid, houtlined.name, houtlined.arranges⟩

/-- A text at `$.a.b`. -/
theorem composed_two_segments :
    let p : Path := ⟨"$.a.b", [("$.a.b", ⟨⟨"", 0, 2, []⟩, [104, 105]⟩)], []⟩
    p.Made ∧ p.Composed := by
  have hmade : Path.Made ⟨"$.a.b", [("$.a.b", ⟨⟨"", 0, 2, []⟩, [104, 105]⟩)], []⟩ :=
    .appendText (@Path.Made.named "$.a.b" _ rfl) "hi"
  exact ⟨hmade, Made.composed hmade⟩

end Path

end SpanTree
