import SpanTree.Proofs.Arrangement
import SpanTree.Record

/-!
# Trees of record files

The path of a record collects texts under absolute keys and nothing else (`Path.Textual`). So every
node of its tree was made for a beginning of a key, and is called by a segment of it: no node below
the root is nameless (`Path.Textual.namedBelowRoot`).

Reading goes from line to line with a draft and with trees that drafts became, so what holds of all
drafts and of their trees (`Record.Keeps`) holds of all trees that are read. Here the path of a
draft can be made and is textual (`Record.named_of_parseRecords`).
-/

namespace SpanTree

namespace Path

variable {p q p' : Path} {t u : Tree} {es fs : Entries Tree} {key : String} {o : Outline}

/-- Contents that are texts alone. -/
def Childless (es : Entries Tree) : Prop := ∀ e ∈ es, e.2.root.children = []

/-- Texts under absolute keys, and nothing else. -/
structure Textual (p : Path) : Prop where
  relative : p.relative = []
  childless : Childless p.absolute

theorem children_of_merge (ht : t.root.children = []) (hu : u.root.children = [])
    {merged : Tree} (h : t.merge u .concatenate = .ok merged) : merged.root.children = [] := by
  simp only [Tree.merge] at h
  split at h
  · cases h
    simp [ht, hu, Node.movedAll]
  · cases h

theorem Childless.addEntry (hes : Childless es) (ht : t.root.children = [])
    (h : addEntry es key t = .ok fs) : Childless fs :=
  forall_addEntry (P := (·.root.children = [])) (fun _ _ _ ht hu h => children_of_merge ht hu h)
    hes ht h

theorem Textual.named {name : String} (habs : Name.isAbsolute name = true)
    (h : Path.named name = .ok p) : p.isAbsolute = true ∧ p.Textual := by
  unfold Path.named at h
  split at h
  · cases h
    have hown : (⟨name, [], []⟩ : Path).isAbsolute = true := habs
    rw [withOwn, if_pos hown]
    exact ⟨habs, rfl, by simp [Childless, Tree.empty, Node.blank]⟩
  · cases h

theorem Textual.appendText (hp : p.Textual) (habs : p.isAbsolute = true) (s : String) :
    (p.appendText s).Textual := by
  rw [Path.appendText, update, withOwn, own, if_pos habs, if_pos habs]
  refine ⟨hp.relative, Entries.forall_insert hp.childless ?_⟩
  show ((p.absolute.get? p.name).getD Tree.empty).root.children = []
  cases hget : p.absolute.get? p.name with
  | none => rfl
  | some t => exact hp.childless _ (Entries.mem_of_get? hget)

theorem Textual.append (hp : p.Textual) (hq : q.Textual) (h : p.append q = .ok p') :
    p'.Textual := by
  have hown : p.withOwn p.own = p := by
    unfold withOwn own
    split <;> rfl
  obtain ⟨es, hes, h⟩ := bind_eq_ok h
  rw [hq.relative] at hes
  cases hes
  rw [hown] at h
  obtain ⟨absolute, habsolute, h⟩ := bind_eq_ok h
  cases h
  refine ⟨hp.relative, ?_⟩
  exact foldlM_keeps (P := Childless)
    (fun es e es' he hes h => hes.addEntry (hq.childless e he) h) hp.childless habsolute

theorem Textual.children_contentAt (hp : p.Textual) (segs : List String) :
    (p.contentAt segs).root.children = [] := by
  rw [contentAt]
  cases hfind : p.absolute.find? (segmentsBelowRoot ·.1 == segs) with
  | none => rfl
  | some e => exact hp.childless e (List.mem_of_find?_eq_some hfind)

theorem Outlined.name_ne_empty (h : Outlined p o t) {segs : List String} {n : Node}
    (hn : p.MadeFor t segs n) : n.name ≠ "" := by
  cases hn with
  | root =>
    rw [show t.root.name = "$" from h.name]
    decide
  | next hn hc =>
    intro hempty
    have hseg := (h.names_sorted hn).2 _ (List.mem_map_of_mem hc)
    rw [hempty] at hseg
    exact absurd hseg (by decide)

theorem Outlined.namedBelowRoot (h : Outlined p o t)
    (hchildren : ∀ segs, (p.contentAt segs).root.children = []) : t.NamedBelowRoot := by
  have hnames : ∀ x ∈ t.root.preorder 0, x.2.name ≠ "" := by
    intro x hx
    rcases h.accounted t.root 0 [] .root x hx with ⟨segs, hmade⟩ | ⟨segs, n, depth, -, hmem⟩
    · exact h.name_ne_empty hmade
    · rw [hchildren segs] at hmem
      cases hmem
  exact (Node.allNames_iff.1 (Node.allNames_of_preorder 0 hnames)).2

/-- The nodes of the tree are called by the segments of the keys. -/
theorem Textual.namedBelowRoot (hmade : p.Made) (hp : p.Textual) (h : p.toTree = .ok t) :
    t.NamedBelowRoot := by
  obtain ⟨u, o, htree, -, houtlined⟩ := hmade.orderly.toTree_ok hmade.wellFormed hp.relative
  rw [h] at htree
  cases htree
  exact houtlined.namedBelowRoot hp.children_contentAt

end Path

namespace Record

variable {d d' : Draft} {t : Tree} {ts : List Tree} {n : Nat}

/-- The path of a record. -/
structure Draft.Sound (d : Draft) : Prop where
  made : d.path.Made
  textual : d.path.Textual

theorem Draft.Sound.empty (h : Draft.empty = .ok d) : d.Sound := by
  obtain ⟨p, hp, rfl⟩ := map_eq_ok h
  exact ⟨.named hp, (Path.Textual.named rfl hp).2⟩

theorem Draft.Sound.add {path value : List Char} (hd : d.Sound)
    (h : d.add n path value = .ok d') : d'.Sound := by
  unfold Draft.add at h
  simp only at h
  split at h
  · cases h
  · next habs =>
    split at h
    · cases h
    · next entry hentry =>
      obtain ⟨p, happend, rfl⟩ := map_eq_ok h
      obtain ⟨habs, htextual⟩ := Path.Textual.named (by simpa using habs) hentry
      refine ⟨hd.made.append (.appendText (.named hentry) _) happend, ?_⟩
      exact hd.textual.append (htextual.appendText habs _) happend

theorem Draft.Sound.finish {t? : Option Tree} (hd : d.Sound) (h : d.finish = .ok t?) :
    ∀ t ∈ t?, t.Made ∧ t.NamedBelowRoot := by
  unfold Draft.finish at h
  split at h
  · cases h
    simp
  · obtain ⟨t, ht, rfl⟩ := map_eq_ok h
    intro u hu
    cases hu
    exact ⟨.toTree hd.made ht, hd.textual.namedBelowRoot hd.made ht⟩

/-- What holds of each draft while records are read, and of the trees that the drafts become. -/
structure Keeps (D : Draft → Prop) (P : Tree → Prop) : Prop where
  empty : ∀ {d : Draft}, Draft.empty = .ok d → D d
  add : ∀ {d d' : Draft} {n : Nat} {path value : List Char}, D d →
    d.add n path value = .ok d' → D d'
  finish : ∀ {d : Draft} {t? : Option Tree}, D d → d.finish = .ok t? → ∀ t ∈ t?, P t

variable {D : Draft → Prop} {P : Tree → Prop}

/-- The trees of the lines, behind those that are done. -/
theorem Keeps.forall_parseLines (hkeeps : Keeps D P) {done : List Tree} {ls : List (List Char)}
    (hd : D d) (hdone : ∀ t ∈ done, P t) (h : parseLines done d n ls = .ok ts) : ∀ t ∈ ts, P t := by
  induction ls generalizing done d n with
  | nil =>
    rw [parseLines] at h
    obtain ⟨t?, hfinish, hts⟩ := bind_eq_ok h
    cases hts
    intro t ht
    rcases List.mem_append.1 ht with ht | ht
    · exact hdone t (List.mem_reverse.1 ht)
    · exact hkeeps.finish hd hfinish t (Option.mem_toList.1 ht)
  | cons l ls ih =>
    rw [parseLines] at h
    split at h
    · exact ih hd hdone h
    · obtain ⟨d', hadd, hrest⟩ := bind_eq_ok h
      exact ih (hkeeps.add hd hadd) hdone hrest
    · obtain ⟨t?, hfinish, hrest⟩ := bind_eq_ok h
      cases t? with
      | none => exact ih hd hdone hrest
      | some t =>
        obtain ⟨d', hempty, hrest⟩ := bind_eq_ok hrest
        refine ih (hkeeps.empty hempty) (fun u hu => ?_) hrest
        rcases List.mem_cons.1 hu with rfl | hu
        · exact hkeeps.finish hd hfinish u rfl
        · exact hdone u hu

theorem Keeps.forall_parseRecords (hkeeps : Keeps D P) {text : String}
    (h : parseRecords text = .ok ts) : ∀ t ∈ ts, P t := by
  obtain ⟨d, hempty, hlines⟩ := bind_eq_ok h
  exact hkeeps.forall_parseLines (hkeeps.empty hempty) (by simp) hlines

/-- Every tree of a record file can be made, and only its root could be nameless. -/
theorem named_of_parseRecords {text : String} (h : parseRecords text = .ok ts) :
    ∀ t ∈ ts, t.Made ∧ t.NamedBelowRoot := by
  have hkeeps : Keeps Draft.Sound fun t => t.Made ∧ t.NamedBelowRoot :=
    ⟨.empty, .add, fun hd h => hd.finish h⟩
  exact hkeeps.forall_parseRecords h

end Record

end SpanTree
