import Mathlib.Data.List.Forall2
import Mathlib.Tactic.ByContra
import SpanTree.Proofs.Merging
import SpanTree.Proofs.RecordFormat

/-!
# The order of entries

What is attached to an absolute path ends up under keys, and the contents of a key follow one
another in the order in which they came. Nothing else depends on the order.

**Contents.** Merging joins trees (`Tree.join`), which is associative with the nameless tree as its
unit. So it does not matter whether the contents of a key are merged one by one, or some of them
before they are attached.

**Keys.** Entries are sorted, so they are what they answer for each key (`Entries.eq_of_get?`). What
they answer after an addition is the old content with the new ones behind it, for each key apart
(`Path.Keyed.addAll`).

A record is such a path, to which each line attaches a path with one content.
-/

namespace SpanTree

/-! ## Contents one behind the other -/

namespace Tree

/-- The trees one behind the other. -/
def joinAll (ts : List Tree) : Tree := ts.foldl join empty

theorem foldl_join (t : Tree) (ts : List Tree) : ts.foldl join t = t.join (joinAll ts) := by
  induction ts generalizing t with
  | nil => exact (join_empty t).symm
  | cons u us ih =>
    calc (u :: us).foldl join t = (t.join u).join (joinAll us) := ih (t.join u)
      _ = t.join ((empty.join u).join (joinAll us)) := by
        rw [← join_assoc, ← join_assoc, join_empty]
      _ = t.join (joinAll (u :: us)) := by rw [← ih]; rfl

theorem joinAll_cons (t : Tree) (ts : List Tree) :
    joinAll (t :: ts) = (empty.join t).join (joinAll ts) := foldl_join _ ts

end Tree

/-! ## Contents by their keys -/

namespace Entries

variable {α : Type} {es fs : Entries α}

theorem Sorted.nodup (h : es.Sorted) : List.Nodup es := by
  refine List.Pairwise.imp ?_ h
  rintro e f hlt rfl
  exact String.lt_irrefl _ hlt

/-- Sorted entries are determined by what they answer. -/
theorem eq_of_get? (hes : es.Sorted) (hfs : fs.Sorted) (h : ∀ key, es.get? key = fs.get? key) :
    es = fs := by
  have hmem : ∀ e, e ∈ es ↔ e ∈ fs := by
    intro e
    rw [← hes.get?_eq_some, ← hfs.get?_eq_some, h]
  have hperm : List.Perm es fs := (List.perm_ext_iff_of_nodup hes.nodup hfs.nodup).2 hmem
  refine hperm.eq_of_pairwise (fun e f _ _ hlt hgt => ?_) hes hfs
  exact absurd (String.lt_trans hlt hgt) (String.lt_irrefl _)

end Entries

namespace Path

variable {P : String → Prop} {es fs : Entries Tree} {key : String} {t : Tree} {p p' q : Path}
  {qs qs' : List Path} {f : Tree → Tree}

/-- The contents at a key, in their order. -/
def contentsUnder (key : String) (es : Entries Tree) : List Tree :=
  (es.filter (·.1 == key)).map Prod.snd

theorem contentsUnder_cons (key : String) (e : String × Tree) (es : Entries Tree) :
    contentsUnder key (e :: es) =
      if e.1 = key then e.2 :: contentsUnder key es else contentsUnder key es := by
  by_cases he : e.1 = key
  · simp [contentsUnder, he]
  · simp [contentsUnder, he]

theorem contentsUnder_eq_nil : contentsUnder key es = [] ↔ key ∉ es.map Prod.fst := by
  simp only [contentsUnder, List.map_eq_nil_iff, List.filter_eq_nil_iff, beq_iff_eq, List.mem_map]
  constructor
  · rintro h ⟨e, he, hkey⟩
    exact h e he hkey
  · intro h e he hkey
    exact h ⟨e, he, hkey⟩

/-- Adds contents one after the other. -/
def addAll (es fs : Entries Tree) : Except Error (Entries Tree) :=
  fs.foldlM (fun es (k, t) => addEntry es k t) es

theorem addAll_append (es fs gs : Entries Tree) :
    addAll es (fs ++ gs) = addAll es fs >>= fun es' => addAll es' gs := List.foldlM_append

/-- A content with others behind it; where there are none, it may also be missing. -/
def extended (content? : Option Tree) (ts : List Tree) : Option Tree :=
  if ts = [] then content? else some ((content?.getD Tree.empty).join (Tree.joinAll ts))

theorem extended_cons (content? : Option Tree) (t : Tree) (ts : List Tree) :
    extended content? (t :: ts) = extended (some ((content?.getD Tree.empty).join t)) ts := by
  rw [extended, if_neg (List.cons_ne_nil t ts), Tree.joinAll_cons, ← Tree.join_assoc,
    ← Tree.join_assoc, Tree.join_empty, extended, Option.getD_some]
  by_cases hts : ts = []
  · rw [if_pos hts, hts]
    exact congrArg some (Tree.join_empty _)
  · rw [if_neg hts]

theorem Keyed.addEntry_eq (h : Keyed P es) (key : String) (hname : t.rootName = "")
    (ht : t.isValid = true) :
    Path.addEntry es key t = .ok (es.insert key (((es.get? key).getD Tree.empty).join t)) := by
  rw [Path.addEntry]
  cases hold : es.get? key with
  | none => rw [Option.getD_none, Tree.empty_join ht]
  | some old =>
    have hold_name : old.rootName = "" := h.nameless _ (Entries.mem_of_get? hold)
    have hmerge : Tree.canMergeNames old.rootName t.rootName = true := by
      rw [hold_name, hname]
      rfl
    simp only [Tree.merge_eq_ok.2 ⟨hmerge, rfl⟩, Except.map, Option.getD_some]

/-- What can be added to entries under keys of some kind. -/
def Fitting (P : String → Prop) (fs : Entries Tree) : Prop :=
  ∀ e ∈ fs, P e.1 ∧ e.2.rootName = "" ∧ e.2.isValid = true

/-- **Each key has its old content with the new ones behind it.** -/
theorem Keyed.addAll (h : Keyed P es) (hfs : Fitting P fs) :
    ∃ es', Path.addAll es fs = .ok es' ∧ Keyed P es' ∧
      ∀ key, Entries.get? es' key = extended (es.get? key) (contentsUnder key fs) := by
  induction fs generalizing es with
  | nil => exact ⟨es, rfl, h, fun _ => rfl⟩
  | cons f fs ih =>
    obtain ⟨k, t⟩ := f
    obtain ⟨hkey, hname, ht⟩ := hfs (k, t) (.head _)
    have hadd := h.addEntry_eq k hname ht
    obtain ⟨es₁, hadd₁, hkeyed, -⟩ := h.addEntry hkey hname
    rw [hadd] at hadd₁
    cases hadd₁
    obtain ⟨es', hrest, hkeyed', hget⟩ := ih hkeyed fun e he => hfs e (.tail _ he)
    refine ⟨es', ?_, hkeyed', fun key => ?_⟩
    · show (Path.addEntry es k t >>= _) = _
      rw [hadd]
      exact hrest
    · rw [hget, contentsUnder_cons]
      by_cases hk : k = key
      · rw [if_pos hk, hk, Entries.get?_insert_self, extended_cons]
      · rw [if_neg hk, Entries.get?_insert_ne (Ne.symm hk)]

/-! ## What is attached to an absolute path -/

/-- What an attached path brings along, in the order in which it is added: the relative entries lie
below the path's name. -/
def brings (p q : Path) : Entries Tree :=
  q.relative.map (fun e => (p.name ++ "." ++ e.1, e.2)) ++ q.absolute

theorem append_eq (habs : p.isAbsolute = true) :
    p.append q = (addAll p.absolute (p.brings q)).map fun es => { p with absolute := es } := by
  rw [brings, addAll_append, addAll, List.foldlM_map, append, own, if_pos habs]
  cases hrelative : q.relative.foldlM (fun es e => addEntry es (p.name ++ "." ++ e.1) e.2)
      p.absolute with
  | error e => rfl
  | ok es =>
    simp only [withOwn, if_pos habs]
    show (addAll es q.absolute >>= _) = (addAll es q.absolute).map _
    cases addAll es q.absolute <;> rfl

theorem foldlM_append_eq (habs : p.isAbsolute = true) (qs : List Path) :
    qs.foldlM append p =
      (addAll p.absolute (qs.flatMap p.brings)).map fun es => { p with absolute := es } := by
  induction qs generalizing p with
  | nil => rfl
  | cons q qs ih =>
    rw [List.foldlM_cons, append_eq habs, List.flatMap_cons, addAll_append]
    cases addAll p.absolute (p.brings q) with
    | error e => rfl
    | ok es => exact ih habs

@[simp] theorem name_withOwn (p : Path) (es : Entries Tree) : (p.withOwn es).name = p.name := by
  unfold withOwn
  split <;> rfl

theorem relative_withOwn (habs : p.isAbsolute = true) (es : Entries Tree) :
    (p.withOwn es).relative = p.relative := by rw [withOwn, if_pos habs]

theorem name_of_append (h : p.append q = .ok p') : p'.name = p.name := by
  obtain ⟨own, -, h⟩ := bind_eq_ok h
  obtain ⟨absolute, -, h⟩ := bind_eq_ok h
  cases h
  exact name_withOwn p own

theorem relative_of_append (habs : p.isAbsolute = true) (h : p.append q = .ok p') :
    p'.relative = p.relative := by
  rw [append_eq habs] at h
  obtain ⟨absolute, -, rfl⟩ := map_eq_ok h
  rfl

theorem relative_update (habs : (p.update f).isAbsolute = true)
    (h : p.isAbsolute = true → p.relative = []) : (p.update f).relative = [] := by
  have habs' : p.isAbsolute = true := by
    simpa [update, isAbsolute] using habs
  rw [update, relative_withOwn habs', h habs']

/-- An absolute path has no relative entries. -/
theorem Made.relative_of_isAbsolute : ∀ {p : Path}, p.Made → p.isAbsolute = true → p.relative = []
  | _, .append hp _ h, habs => by
    rw [isAbsolute, name_of_append h] at habs
    rw [relative_of_append habs h]
    exact hp.relative_of_isAbsolute habs
  | _, .appendTree hp _, habs => relative_update habs hp.relative_of_isAbsolute
  | _, .appendValue hp _, habs => relative_update habs hp.relative_of_isAbsolute
  | _, .appendText hp _, habs => relative_update habs hp.relative_of_isAbsolute
  | _, .named h, habs => by
    unfold Path.named at h
    split at h
    · cases h
      rw [isAbsolute, name_withOwn] at habs
      rw [relative_withOwn habs]
    · cases h

theorem fitting_brings (hp : p.Made) (habs : p.isAbsolute = true) (hq : q.Made) :
    Fitting Name.IsAbsoluteKey (p.brings q) := by
  have horderly := hq.orderly
  intro e he
  rcases List.mem_append.1 he with he | he
  · obtain ⟨f, hf, rfl⟩ := List.mem_map.1 he
    have hjoin := hp.orderly.isOwnKey_join (horderly.relative.key f hf)
    rw [IsOwnKey, if_pos habs] at hjoin
    exact ⟨hjoin, horderly.relative.nameless f hf, (hq.wellFormed.relative f hf).isValid⟩
  · exact ⟨horderly.absolute.key e he, horderly.absolute.nameless e he,
      (hq.wellFormed.absolute e he).isValid⟩

/-- Two sequences of paths bring contents to the same keys, and to each key the same ones in the
same order, however many of them are merged already. -/
structure SameContents (p : Path) (qs qs' : List Path) : Prop where
  keys : ∀ key, key ∈ (qs.flatMap p.brings).map Prod.fst ↔
    key ∈ (qs'.flatMap p.brings).map Prod.fst
  contents : ∀ key, Tree.joinAll (contentsUnder key (qs.flatMap p.brings)) =
    Tree.joinAll (contentsUnder key (qs'.flatMap p.brings))

theorem SameContents.of_contentsUnder (h : ∀ key, contentsUnder key (qs.flatMap p.brings) =
    contentsUnder key (qs'.flatMap p.brings)) : p.SameContents qs qs' where
  keys key := by rw [← not_iff_not, ← contentsUnder_eq_nil, ← contentsUnder_eq_nil, h]
  contents key := by rw [h]

/-- What is added to a content depends on no more than that. -/
theorem SameContents.extended_eq (h : p.SameContents qs qs') (content? : Option Tree)
    (key : String) : extended content? (contentsUnder key (qs.flatMap p.brings)) =
      extended content? (contentsUnder key (qs'.flatMap p.brings)) := by
  rw [extended, extended, h.contents key]
  by_cases hnil : contentsUnder key (qs.flatMap p.brings) = []
  · have hnil' : contentsUnder key (qs'.flatMap p.brings) = [] := by
      rwa [contentsUnder_eq_nil, ← h.keys, ← contentsUnder_eq_nil]
    rw [if_pos hnil, if_pos hnil']
  · have hnil' : contentsUnder key (qs'.flatMap p.brings) ≠ [] := by
      rwa [ne_eq, contentsUnder_eq_nil, ← h.keys, ← contentsUnder_eq_nil]
    rw [if_neg hnil, if_neg hnil']

theorem Made.foldlM_append (hp : p.Made) (hqs : ∀ q ∈ qs, q.Made)
    (h : qs.foldlM Path.append p = .ok p') : p'.Made :=
  foldlM_keeps (fun _ _ _ hq hp h => .append hp (hqs _ hq) h) hp h

/-- An absolute path to which such sequences are attached becomes the same path. -/
theorem foldlM_append_congr (hp : p.Made) (habs : p.isAbsolute = true) (hqs : ∀ q ∈ qs, q.Made)
    (hqs' : ∀ q ∈ qs', q.Made) (h : p.SameContents qs qs') :
    ∃ es, qs.foldlM append p = .ok { p with absolute := es } ∧
      qs'.foldlM append p = .ok { p with absolute := es } := by
  have hfitting : ∀ rs : List Path, (∀ q ∈ rs, q.Made) →
      Fitting Name.IsAbsoluteKey (rs.flatMap p.brings) := by
    intro rs hrs e he
    obtain ⟨q, hq, he⟩ := List.mem_flatMap.1 he
    exact fitting_brings hp habs (hrs q hq) e he
  obtain ⟨es, hadd, hkeyed, hget⟩ := hp.orderly.absolute.addAll (hfitting qs hqs)
  obtain ⟨es', hadd', hkeyed', hget'⟩ := hp.orderly.absolute.addAll (hfitting qs' hqs')
  have hes : es = es' := by
    refine Entries.eq_of_get? hkeyed.sorted hkeyed'.sorted fun key => ?_
    rw [hget, hget', h.extended_eq]
  refine ⟨es, ?_, ?_⟩
  · rw [foldlM_append_eq habs, hadd]
    rfl
  · rw [foldlM_append_eq habs, hadd', hes]
    rfl

end Path

/-! ## Lines of a record -/

namespace Record

variable {es es' : List Entry} {e : Entry} {p : Path} {text text' : String} {ts : List Tree}
  {run run' ms : List Line}

/-- The path that a line attaches. -/
def entryPath (e : Entry) : Path := Path.appendText ⟨e.1, [(e.1, Tree.empty)], []⟩ e.2

theorem made_entryPath (h : Name.IsAbsoluteKey e.1) : (entryPath e).Made :=
  .appendText (.named (Path.named_of_isAbsoluteKey h)) e.2

theorem brings_entryPath (h : Name.IsAbsoluteKey e.1) (p : Path) :
    p.brings (entryPath e) = [(e.1, Tree.empty.appendText e.2)] := by
  have habs : Path.isAbsolute ⟨e.1, [(e.1, Tree.empty)], []⟩ = true := h.isAbsolute
  simp [Path.brings, entryPath, Path.appendText, Path.update, Path.withOwn, Path.own, habs,
    Entries.get?, Entries.insert]

theorem foldlM_appendEntry (h : ∀ e ∈ es, Name.IsAbsoluteKey e.1) (p : Path) :
    es.foldlM appendEntry p = (es.map entryPath).foldlM Path.append p := by
  induction es generalizing p with
  | nil => rfl
  | cons e es ih =>
    have hentry : appendEntry p e = p.append (entryPath e) := by
      rw [appendEntry, Path.named_of_isAbsoluteKey (h e (.head _))]
      rfl
    rw [List.map_cons, List.foldlM_cons, List.foldlM_cons, hentry]
    cases p.append (entryPath e) with
    | error _ => rfl
    | ok p' => exact ih (fun e he => h e (.tail _ he)) p'

/-- The entries of each path are the same, in the same order. -/
def SameOrder (es es' : List Entry) : Prop :=
  ∀ path, es.filter (·.1 == path) = es'.filter (·.1 == path)

theorem SameOrder.mem (h : SameOrder es es') (he : e ∈ es) : e ∈ es' := by
  have hmem : e ∈ es.filter (·.1 == e.1) := List.mem_filter.2 ⟨he, beq_self_eq_true e.1⟩
  rw [h e.1] at hmem
  exact (List.mem_filter.1 hmem).1

theorem SameOrder.symm (h : SameOrder es es') : SameOrder es' es := fun path => (h path).symm

theorem SameOrder.isEmpty_eq (h : SameOrder es es') : es.isEmpty = es'.isEmpty := by
  cases es with
  | nil =>
    cases es' with
    | nil => rfl
    | cons e es' => cases h.symm.mem (.head _)
  | cons e es =>
    cases es' with
    | nil => cases h.mem (.head _)
    | cons e' es' => rfl

theorem contentsUnder_entryPaths (h : ∀ e ∈ es, Name.IsAbsoluteKey e.1) (p : Path) (key : String) :
    Path.contentsUnder key ((es.map entryPath).flatMap p.brings) =
      (es.filter (·.1 == key)).map fun e => Tree.empty.appendText e.2 := by
  induction es with
  | nil => rfl
  | cons e es ih =>
    have hrest := ih fun e he => h e (.tail _ he)
    rw [List.map_cons, List.flatMap_cons, brings_entryPath (h e (.head _)), List.singleton_append,
      Path.contentsUnder_cons, hrest]
    by_cases he : e.1 = key
    · simp [he]
    · simp [he]

/-- Entries that were reordered make the same path. -/
theorem collect_congr (h : ∀ e ∈ es, Name.IsAbsoluteKey e.1) (horder : SameOrder es es') :
    collect es' = collect es := by
  have h' : ∀ e ∈ es', Name.IsAbsoluteKey e.1 := fun e he => h e (horder.symm.mem he)
  have hmade : ∀ {gs : List Entry}, (∀ e ∈ gs, Name.IsAbsoluteKey e.1) →
      ∀ q ∈ gs.map entryPath, q.Made := by
    intro gs hgs q hq
    obtain ⟨e, he, rfl⟩ := List.mem_map.1 hq
    exact made_entryPath (hgs e he)
  have hroot : Path.named Name.root = .ok ⟨"$", [("$", Tree.empty)], []⟩ := rfl
  have hsame : Path.SameContents ⟨"$", [("$", Tree.empty)], []⟩ (es.map entryPath)
      (es'.map entryPath) := by
    refine .of_contentsUnder fun key => ?_
    rw [contentsUnder_entryPaths h, contentsUnder_entryPaths h', horder key]
  obtain ⟨absolute, hp, hp'⟩ :=
    Path.foldlM_append_congr (.named hroot) rfl (hmade h) (hmade h') hsame
  rw [collect, collect, hroot]
  show es'.foldlM appendEntry _ = es.foldlM appendEntry _
  rw [foldlM_appendEntry h, foldlM_appendEntry h', hp, hp']

/-- Entry lines are reordered within their runs, those of a path keeping their order. -/
def Reordered (text text' : String) : Prop :=
  List.Forall₂ (fun run run' => SameOrder (entriesOf run) (entriesOf run'))
    (runs (meanings text)) (runs (meanings text'))

theorem flatMap_entriesOf_runs (ms : List Line) : (runs ms).flatMap entriesOf = entriesOf ms := by
  induction ms with
  | nil => rfl
  | cons m ms ih =>
    rw [entriesOf_cons, ← ih]
    by_cases hm : m = .blank
    · rw [hm, runs_blank, List.flatMap_cons]
      rfl
    · rw [runs_cons hm]
      cases hruns : runs ms with
      | nil => exact absurd hruns (List.splitOnP_ne_nil _ _)
      | cons run rest => simp [entriesOf_cons]

theorem keyed_iff :
    (∀ m ∈ ms, m.Keyed) ↔ ∀ run ∈ runs ms, ∀ e ∈ entriesOf run, Name.IsAbsoluteKey e.1 := by
  have hflat : (∀ run ∈ runs ms, ∀ e ∈ entriesOf run, Name.IsAbsoluteKey e.1) ↔
      ∀ e ∈ entriesOf ms, Name.IsAbsoluteKey e.1 := by
    rw [← flatMap_entriesOf_runs]
    simp only [List.mem_flatMap]
    constructor
    · rintro h e ⟨run, hrun, he⟩
      exact h run hrun e he
    · intro h run hrun e he
      exact h e ⟨run, hrun, he⟩
  rw [hflat]
  simp only [Line.Keyed, entriesOf, List.mem_filterMap]
  constructor
  · rintro h e ⟨m, hm, he⟩
    exact h m hm e he
  · intro h m hm e he
    exact h e ⟨m, hm, he⟩

/-- What holds of all entries of some runs holds of all entries of the reordered ones. -/
theorem forall_entries_of_reordered {P : Entry → Prop} {rs rs' : List (List Line)}
    (h : List.Forall₂ (fun run run' => SameOrder (entriesOf run) (entriesOf run')) rs rs')
    (hrs : ∀ run ∈ rs, ∀ e ∈ entriesOf run, P e) : ∀ run ∈ rs', ∀ e ∈ entriesOf run, P e := by
  induction h with
  | nil => exact hrs
  | cons hrun hrest ih =>
    intro run' hrun' e he
    rcases List.mem_cons.1 hrun' with rfl | hrun'
    · exact hrs _ (.head _) e (hrun.symm.mem he)
    · exact ih (fun run hrun => hrs run (.tail _ hrun)) run' hrun' e he

theorem Reordered.keyed (h : Reordered text text') (hkeyed : ∀ m ∈ meanings text, m.Keyed) :
    ∀ m ∈ meanings text', m.Keyed :=
  keyed_iff.2 (forall_entries_of_reordered h (keyed_iff.1 hkeyed))

theorem Reordered.records (h : Reordered text text') :
    List.Forall₂ SameOrder (records (meanings text)) (records (meanings text')) := by
  have hentries : List.Forall₂ SameOrder ((runs (meanings text)).map entriesOf)
      ((runs (meanings text')).map entriesOf) := by
    rw [List.forall₂_map_left_iff, List.forall₂_map_right_iff]
    exact h
  refine List.rel_filter ?_ hentries
  intro es es' hes
  show (!es.isEmpty) = true ↔ (!es'.isEmpty) = true
  rw [hes.isEmpty_eq]

/-- Reordered records have the same trees. -/
theorem forall₂_isTreeOf {rs rs' : List (List Entry)} (h : List.Forall₂ SameOrder rs rs')
    (hkeyed : ∀ es ∈ rs, ∀ e ∈ es, Name.IsAbsoluteKey e.1) (hts : List.Forall₂ IsTreeOf rs ts) :
    List.Forall₂ IsTreeOf rs' ts := by
  induction h generalizing ts with
  | nil => exact hts
  | cons hes hrest ih =>
    cases hts with
    | cons ht hts =>
      refine .cons ?_ (ih (fun es hes => hkeyed es (.tail _ hes)) hts)
      rw [IsTreeOf, collect_congr (hkeyed _ (.head _)) hes]
      exact ht

theorem keyed_of_parseRecords (h : parseRecords text = .ok ts) : ∀ m ∈ meanings text, m.Keyed := by
  intro m hm
  by_contra hbad
  obtain ⟨i, fault, -, herror⟩ := parseRecords_of_fault ⟨m, hm, hbad⟩
  rw [h] at herror
  cases herror

theorem parseRecords_of_reordered (h : parseRecords text = .ok ts)
    (hreordered : Reordered text text') : parseRecords text' = .ok ts := by
  have hkeyed := keyed_of_parseRecords h
  obtain ⟨ts₁, hts₁, htrees⟩ := parseRecords_of_keyed hkeyed
  obtain ⟨ts', hts', htrees'⟩ := parseRecords_of_keyed (hreordered.keyed hkeyed)
  rw [h] at hts₁
  cases hts₁
  have hrecords : ∀ es ∈ records (meanings text), ∀ e ∈ es, Name.IsAbsoluteKey e.1 := by
    intro es hes
    obtain ⟨run, hrun, rfl⟩ := List.mem_map.1 (List.mem_filter.1 hes).1
    exact keyed_iff.1 hkeyed run hrun
  have hsame := forall₂_isTreeOf hreordered.records hrecords htrees
  have hunique : Relator.RightUnique IsTreeOf := by
    intro es t u ht hu
    rw [IsTreeOf] at ht hu
    rw [ht] at hu
    exact Except.ok.inj hu
  rw [hts', hunique.forall₂ htrees' hsame]

end Record

/-- **The order of independent entries does not matter.** Whatever paths are attached to an absolute
path: if those of another sequence bring the same contents to the same keys, and to each key in the
same order, the tree is the same. So it is for the trees of a record file in which entry lines
change places with others of their record, but for those with the same path. -/
theorem trees_of_reordered :
    (∀ (p : Path) (qs qs' : List Path), p.Made → p.isAbsolute = true → (∀ q ∈ qs, q.Made) →
      (∀ q ∈ qs', q.Made) → p.SameContents qs qs' →
      ∃ t, qs.foldlM Path.append p >>= Path.toTree = .ok t ∧
        qs'.foldlM Path.append p >>= Path.toTree = .ok t) ∧
    ∀ (text text' : String) (ts : List Tree), parseRecords text = .ok ts →
      Record.Reordered text text' → parseRecords text' = .ok ts := by
  constructor
  · intro p qs qs' hp habs hqs hqs' hsame
    obtain ⟨es, happend, happend'⟩ := Path.foldlM_append_congr hp habs hqs hqs' hsame
    obtain ⟨t, htree, -⟩ :=
      (hp.foldlM_append hqs happend).composed.tree (hp.relative_of_isAbsolute habs)
    refine ⟨t, ?_, ?_⟩
    · rw [happend]
      exact htree
    · rw [happend']
      exact htree
  · intro text text' ts h hreordered
    exact Record.parseRecords_of_reordered h hreordered

/-- An absolute path and a relative one, and two lines of a record. -/
theorem trees_of_reordered_two :
    let p : Path := ⟨"$", [("$", Tree.empty)], []⟩
    let a : Path := ⟨"$.a", [("$.a", Tree.empty.appendText "x")], []⟩
    let b : Path := ⟨"b", [], [("b", Tree.empty.appendText "y")]⟩
    let t : Tree := ⟨⟨"$", 0, 2, [⟨"a", 0, 1, []⟩, ⟨"b", 1, 2, []⟩]⟩, [120, 121]⟩
    p.SameContents [a, b] [b, a] ∧
    (∃ t, [a, b].foldlM Path.append p >>= Path.toTree = .ok t ∧
      [b, a].foldlM Path.append p >>= Path.toTree = .ok t) ∧
    Record.Reordered "$.b y\n$.a x" "$.a x\n$.b y" ∧
    parseRecords "$.b y\n$.a x" = .ok [t] ∧ parseRecords "$.a x\n$.b y" = .ok [t] := by
  intro p a b t
  have hp : p.Made := @Path.Made.named "$" _ rfl
  have ha : a.Made := .appendText (@Path.Made.named "$.a" _ rfl) "x"
  have hb : b.Made := .appendText (@Path.Made.named "b" _ rfl) "y"
  have hsame : p.SameContents [a, b] [b, a] := by
    refine .of_contentsUnder fun key => ?_
    show Path.contentsUnder key [("$.a", _), ("$.b", _)] =
      Path.contentsUnder key [("$.b", _), ("$.a", _)]
    by_cases hkey : "$.a" = key
    · subst hkey
      rfl
    · simp [Path.contentsUnder_cons, hkey]
  have hreordered : Record.Reordered "$.b y\n$.a x" "$.a x\n$.b y" := by
    refine .cons (fun path => ?_) .nil
    show List.filter (·.1 == path) [("$.b", "y"), ("$.a", "x")] =
      List.filter (·.1 == path) [("$.a", "x"), ("$.b", "y")]
    by_cases hpath : path = "$.a"
    · subst hpath
      rfl
    · simp [List.filter_cons, Ne.symm hpath]
  have hparse : parseRecords "$.b y\n$.a x" = .ok [t] := by decide +kernel
  have habs : p.isAbsolute = true := by
    show Name.isAbsolute "$" = true
    decide
  refine ⟨hsame, trees_of_reordered.1 p [a, b] [b, a] hp habs ?_ ?_ hsame, hreordered, hparse, ?_⟩
  · simp [ha, hb]
  · simp [ha, hb]
  · exact trees_of_reordered.2 _ _ _ hparse hreordered

end SpanTree
