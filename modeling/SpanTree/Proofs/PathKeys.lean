import SpanTree.Proofs.Growth
import SpanTree.Proofs.Pieces

/-!
# Keys of paths

The keys under which a path collects contents are in order and well-formed: the absolute ones are
`$` or path names, the relative ones are relative path names. What is done to paths keeps this
(`Path.Made.orderly`), since keys are joined by dots and their segments by concatenation.

All contents are nameless, so merging them never meets a conflict of names. Hence a path can always
be attached to another (`Path.Orderly.append`).

Keys are ASCII, and their order as texts is the order of their bytes (`Utf8.encode_lt`).
-/

namespace SpanTree

/-! ## Sorted entries -/

namespace Entries

variable {α : Type} {es : Entries α} {key key' : String} {v w : α}

/-- The keys are strictly increasing. -/
def Sorted (es : Entries α) : Prop := es.Pairwise fun e f => e.1 < f.1

theorem Sorted.insert (h : es.Sorted) (key : String) (v : α) : (es.insert key v).Sorted := by
  induction es with
  | nil => exact List.pairwise_singleton ..
  | cons e es ih =>
    obtain ⟨k, w⟩ := e
    obtain ⟨hk, hes⟩ := List.pairwise_cons.1 h
    rw [Entries.insert]
    by_cases hlt : key < k
    · rw [if_pos hlt]
      refine List.pairwise_cons.2 ⟨fun e he => ?_, h⟩
      rcases List.mem_cons.1 he with rfl | he
      · exact hlt
      · exact String.lt_trans hlt (hk e he)
    · rw [if_neg hlt]
      by_cases heq : k = key
      · rw [if_pos heq]
        exact List.pairwise_cons.2 ⟨heq ▸ hk, hes⟩
      · rw [if_neg heq]
        refine List.pairwise_cons.2 ⟨fun e he => ?_, ih hes⟩
        rcases mem_insert he with rfl | he
        · by_cases hgt : k < key
          · exact hgt
          · exact absurd (String.le_antisymm (String.not_lt.1 hlt) (String.not_lt.1 hgt)) heq
        · exact hk e he

theorem get?_insert_ne (h : key' ≠ key) (v : α) (es : Entries α) :
    (es.insert key v).get? key' = es.get? key' := by
  induction es with
  | nil => simp [insert, get?, Ne.symm h]
  | cons e es ih =>
    obtain ⟨k, w⟩ := e
    rw [insert]
    split
    · simp [get?, Ne.symm h]
    · split
      · next hk => simp [get?, hk, Ne.symm h]
      · simp [get?, ih]

theorem Sorted.get?_eq_some (h : es.Sorted) : es.get? key = some v ↔ (key, v) ∈ es := by
  refine ⟨mem_of_get?, fun hmem => ?_⟩
  induction es with
  | nil => cases hmem
  | cons e es ih =>
    obtain ⟨hk, hes⟩ := List.pairwise_cons.1 h
    rw [get?]
    rcases List.mem_cons.1 hmem with rfl | hmem
    · rw [if_pos rfl]
    · have hlt : e.1 < key := hk _ hmem
      have hne : e.1 ≠ key := fun heq => String.lt_irrefl key (heq ▸ hlt)
      rw [if_neg hne]
      exact ih hes hmem

/-- A key that is there stays there. -/
theorem get?_insert_isSome (h : (es.get? key').isSome) (key : String) (v : α) :
    ((es.insert key v).get? key').isSome := by
  by_cases heq : key' = key
  · rw [heq, get?_insert_self]
    rfl
  · rwa [get?_insert_ne heq]

end Entries

/-! ## Names -/

namespace Name

variable {s t : String} {c : Char} {cs : List Char}

theorem segments_join (s t : String) : segments (s ++ "." ++ t) = segments s ++ segments t := by
  have hlist : (s ++ "." ++ t).toList = s.toList ++ '.' :: t.toList := by simp
  rw [segments, hlist, Text.pieces_append]
  rfl

theorem eq_of_segments (h : segments s = segments t) : s = t := by
  have hs := Text.unite_pieces '.' s.toList
  have ht := Text.unite_pieces '.' t.toList
  rw [segments, segments] at h
  rw [h, ht] at hs
  exact String.toList_inj.1 hs.symm

/-- The key of an absolute entry. -/
def IsAbsoluteKey (s : String) : Prop := s = "$" ∨ isPath s = true

theorem isAbsoluteKey_iff : IsAbsoluteKey s ↔
    ∃ segs, segments s = ['$'] :: segs ∧ ∀ seg ∈ segs, isSegment seg = true := by
  constructor
  · rintro (rfl | h)
    · exact ⟨[], rfl, by simp⟩
    · unfold isPath at h
      split at h
      · next seg segs hsegs => exact ⟨seg :: segs, hsegs, List.all_eq_true.1 h⟩
      · cases h
  · rintro ⟨segs, hsegs, hall⟩
    cases segs with
    | nil => exact .inl (eq_of_segments hsegs)
    | cons seg segs =>
      refine .inr ?_
      rw [isPath, hsegs]
      exact List.all_eq_true.2 hall

/-- An absolute key starts at the root. -/
theorem IsAbsoluteKey.isAbsolute (h : IsAbsoluteKey s) : isAbsolute s = true := by
  obtain ⟨segs, hsegs, -⟩ := isAbsoluteKey_iff.1 h
  have hunite := Text.unite_pieces '.' s.toList
  rw [segments] at hsegs
  rw [hsegs] at hunite
  rw [Name.isAbsolute, ← hunite]
  cases segs <;> rfl

theorem isRelativePath_iff :
    isRelativePath s = true ↔ ∀ seg ∈ segments s, isSegment seg = true := List.all_eq_true

/-- A relative key below an absolute one. -/
theorem IsAbsoluteKey.join (hs : IsAbsoluteKey s) (ht : isRelativePath t = true) :
    IsAbsoluteKey (s ++ "." ++ t) := by
  obtain ⟨segs, hsegs, hall⟩ := isAbsoluteKey_iff.1 hs
  refine isAbsoluteKey_iff.2 ⟨segs ++ segments t, ?_, fun seg hseg => ?_⟩
  · rw [segments_join, hsegs]
    rfl
  · rcases List.mem_append.1 hseg with hseg | hseg
    · exact hall seg hseg
    · exact isRelativePath_iff.1 ht seg hseg

theorem isRelativePath_join (hs : isRelativePath s = true) (ht : isRelativePath t = true) :
    isRelativePath (s ++ "." ++ t) = true := by
  refine isRelativePath_iff.2 fun seg hseg => ?_
  rw [segments_join] at hseg
  rcases List.mem_append.1 hseg with hseg | hseg
  · exact isRelativePath_iff.1 hs seg hseg
  · exact isRelativePath_iff.1 ht seg hseg

theorem isAddress_iff : isAddress s = true ↔
    if isAbsolute s then IsAbsoluteKey s else isRelativePath s = true := by
  unfold isAddress
  by_cases habs : isAbsolute s = true
  · have hroot : s.toList = "$".toList ↔ s = "$" := String.toList_inj
    rw [if_pos habs, if_pos habs, Bool.or_eq_true, beq_iff_eq]
    exact or_congr hroot Iff.rfl
  · rw [if_neg habs, if_neg habs]

/-! ### The order of names -/

theorem isWordChar_ascii (h : isWordChar c = true) : c.toNat < 128 ∧ c ≠ '.' := by
  have hlower : c.isLower = true → c.toNat < 128 := by
    intro h
    have hle : c.val ≤ 122 := of_decide_eq_true (Bool.and_eq_true_iff.1 h).2
    exact Nat.lt_of_le_of_lt hle (by decide)
  have hdigit : c.isDigit = true → c.toNat < 128 := by
    intro h
    have hle : c.val ≤ 57 := of_decide_eq_true (Bool.and_eq_true_iff.1 h).2
    exact Nat.lt_of_le_of_lt hle (by decide)
  constructor
  · simp only [isWordChar, isWordStart, Bool.or_eq_true, beq_iff_eq] at h
    rcases h with (h | rfl) | h
    · exact hlower h
    · decide
    · exact hdigit h
  · rintro rfl
    exact absurd h (by decide)

theorem isWord_ascii (h : isWord cs = true) : ∀ c ∈ cs, c.toNat < 128 ∧ c ≠ '.' := by
  cases cs with
  | nil => simp
  | cons c cs =>
    simp only [isWord, Bool.and_eq_true, List.all_eq_true] at h
    have hstart : isWordChar c = true := by simp [isWordChar, h.1]
    intro d hd
    rcases List.mem_cons.1 hd with rfl | hd
    · exact isWordChar_ascii hstart
    · exact isWordChar_ascii (h.2 d hd)

theorem isSegment_ascii (h : isSegment cs = true) : ∀ c ∈ cs, c.toNat < 128 ∧ c ≠ '.' := by
  unfold isSegment at h
  split at h
  · intro c hc
    rcases List.mem_cons.1 hc with rfl | hc
    · decide
    · exact isWord_ascii h c hc
  · exact isWord_ascii h

def IsAscii (s : String) : Prop := ∀ c ∈ s.toList, c.toNat < 128

theorem isAscii_of_segments (h : ∀ seg ∈ segments s, ∀ c ∈ seg, c.toNat < 128) : IsAscii s := by
  have hunite : ∀ segs : List (List Char), (∀ seg ∈ segs, ∀ c ∈ seg, c.toNat < 128) →
      ∀ c ∈ Text.unite '.' segs, c.toNat < 128 := by
    intro segs hsegs
    induction segs with
    | nil => simp [Text.unite]
    | cons seg segs ih =>
      replace ih := ih fun x hx => hsegs x (.tail _ hx)
      cases segs with
      | nil => exact hsegs seg (.head _)
      | cons seg' segs =>
        intro c hc
        rw [Text.unite] at hc
        · rcases List.mem_append.1 hc with hc | hc
          · exact hsegs seg (.head _) c hc
          · rcases List.mem_cons.1 hc with rfl | hc
            · decide
            · exact ih c hc
        · simp
  intro c hc
  have hall := hunite _ h
  rw [segments, Text.unite_pieces] at hall
  exact hall c hc

theorem isAscii_of_isRelativePath (h : isRelativePath s = true) : IsAscii s :=
  isAscii_of_segments fun seg hseg c hc => (isSegment_ascii (isRelativePath_iff.1 h seg hseg) c hc).1

end Name

namespace Utf8

theorem encode_eq_flatMap (s : String) : encode s = s.toList.flatMap String.utf8EncodeChar := by
  rw [encode, ← String.utf8Encode_toList, List.utf8Encode, List.data_toByteArray]

/-- The order of the bytes. -/
def Precedes (s t : String) : Prop := encode s < encode t

theorem encodeChars_lt {cs ds : List Char} (hcs : ∀ c ∈ cs, c.toNat < 128)
    (hds : ∀ d ∈ ds, d.toNat < 128) (h : cs < ds) :
    cs.flatMap String.utf8EncodeChar < ds.flatMap String.utf8EncodeChar := by
  have hchar : ∀ c : Char, c.toNat < 128 → String.utf8EncodeChar c = [UInt8.ofNat c.toNat] := by
    intro c hc
    have hle : c.val.toNat ≤ 127 := Nat.le_of_lt_succ hc
    rw [String.utf8EncodeChar, if_pos hle]
    rfl
  induction cs generalizing ds with
  | nil =>
    cases ds with
    | nil => exact absurd h (List.lt_irrefl [])
    | cons d ds =>
      rw [List.flatMap_cons, hchar d (hds d (.head _))]
      exact List.Lex.nil
  | cons c cs ih =>
    cases ds with
    | nil => cases h
    | cons d ds =>
      have hc := hcs c (.head _)
      have hd := hds d (.head _)
      rw [List.flatMap_cons, List.flatMap_cons, hchar c hc, hchar d hd, List.singleton_append,
        List.singleton_append, List.cons_lt_cons_iff]
      rcases List.cons_lt_cons_iff.1 h with hlt | ⟨rfl, hrest⟩
      · refine .inl (UInt8.lt_iff_toNat_lt.2 ?_)
        rw [UInt8.toNat_ofNat_of_lt' (Nat.lt_trans hc (by decide)),
          UInt8.toNat_ofNat_of_lt' (Nat.lt_trans hd (by decide))]
        exact hlt
      · exact .inr ⟨rfl, ih (fun c hc => hcs c (.tail _ hc)) (fun d hd => hds d (.tail _ hd)) hrest⟩

/-- Texts of ASCII characters are in the order of their bytes. -/
theorem precedes_of_lt {s t : String} (hs : Name.IsAscii s) (ht : Name.IsAscii t) (h : s < t) :
    Precedes s t := by
  rw [Precedes, encode_eq_flatMap, encode_eq_flatMap]
  exact encodeChars_lt hs ht h

end Utf8

/-! ## Paths in order -/

namespace Path

/-- Entries with keys of some kind, in order, and with nameless contents. -/
structure Keyed (P : String → Prop) (es : Entries Tree) : Prop where
  sorted : es.Sorted
  key : ∀ e ∈ es, P e.1
  nameless : ∀ e ∈ es, e.2.rootName = ""

variable {P : String → Prop} {es : Entries Tree} {key : String} {t : Tree} {p q : Path}

theorem Keyed.insert (h : Keyed P es) (hkey : P key) (ht : t.rootName = "") :
    Keyed P (es.insert key t) :=
  ⟨h.sorted.insert key t, Entries.forall_insert h.key hkey, Entries.forall_insert h.nameless ht⟩

/-- Nameless contents are merged without a conflict, and no key gets lost. -/
theorem Keyed.addEntry (h : Keyed P es) (hkey : P key) (ht : t.rootName = "") :
    ∃ fs, addEntry es key t = .ok fs ∧ Keyed P fs ∧
      ∀ k, (es.get? k).isSome → (Entries.get? fs k).isSome := by
  unfold Path.addEntry
  cases hold : es.get? key with
  | none => exact ⟨_, rfl, h.insert hkey ht, fun k hk => Entries.get?_insert_isSome hk key t⟩
  | some old =>
    have hname : old.rootName = "" := h.nameless _ (Entries.mem_of_get? hold)
    have hmerge : Tree.canMergeNames old.rootName t.rootName = true := by
      rw [hname, ht]
      rfl
    simp only [Tree.merge, if_pos hmerge, Except.map]
    refine ⟨_, rfl, h.insert hkey ?_, fun k hk => Entries.get?_insert_isSome hk key _⟩
    show (if old.rootName.isEmpty then t.rootName else old.rootName) = ""
    rw [hname, ht]
    rfl

theorem Keyed.addEntries (h : Keyed P es) (fs : Entries Tree) (rekey : String → String)
    (hfs : ∀ e ∈ fs, P (rekey e.1) ∧ e.2.rootName = "") :
    ∃ es', fs.foldlM (fun es (k, t) => Path.addEntry es (rekey k) t) es = .ok es' ∧ Keyed P es' ∧
      ∀ k, (es.get? k).isSome → (Entries.get? es' k).isSome := by
  induction fs generalizing es with
  | nil => exact ⟨es, rfl, h, fun _ hk => hk⟩
  | cons f fs ih =>
    obtain ⟨k, t⟩ := f
    obtain ⟨hkey, hname⟩ := hfs (k, t) (.head _)
    obtain ⟨es₁, hadd, hkeyed, hkept⟩ := h.addEntry hkey hname
    obtain ⟨es', hrest, hkeyed', hkept'⟩ := ih hkeyed fun e he => hfs e (.tail _ he)
    refine ⟨es', ?_, hkeyed', fun k hk => hkept' k (hkept k hk)⟩
    rw [List.foldlM_cons]
    show (Path.addEntry es (rekey k) t >>= _) = _
    rw [hadd]
    exact hrest

/-- A path at an absolute key has an empty content there. -/
theorem named_of_isAbsoluteKey (h : Name.IsAbsoluteKey key) :
    Path.named key = .ok ⟨key, [(key, Tree.empty)], []⟩ := by
  have haddress : Name.isAddress key = true := by
    rw [Name.isAddress_iff, if_pos h.isAbsolute]
    exact h
  have habs : Path.isAbsolute ⟨key, [], []⟩ = true := h.isAbsolute
  rw [Path.named, if_pos haddress, withOwn, if_pos habs]

/-- The keys that stand beside the path's own. -/
def IsOwnKey (p : Path) (key : String) : Prop :=
  if p.isAbsolute then Name.IsAbsoluteKey key else Name.isRelativePath key = true

/-- Keys and contents are as they should be, and the path has a content of its own, if an empty
one. -/
structure Orderly (p : Path) : Prop where
  absolute : Keyed Name.IsAbsoluteKey p.absolute
  relative : Keyed (Name.isRelativePath · = true) p.relative
  name : p.IsOwnKey p.name
  own : (p.own.get? p.name).isSome

theorem Orderly.keyed_own (h : p.Orderly) : Keyed p.IsOwnKey p.own := by
  unfold Path.own IsOwnKey
  by_cases habs : p.isAbsolute = true
  · simpa only [if_pos habs] using h.absolute
  · simpa only [if_neg habs] using h.relative

theorem orderly_withOwn (habsolute : Keyed Name.IsAbsoluteKey p.absolute)
    (hrelative : Keyed (Name.isRelativePath · = true) p.relative) (hname : p.IsOwnKey p.name)
    (hes : Keyed p.IsOwnKey es) (hown : (es.get? p.name).isSome) : (p.withOwn es).Orderly := by
  unfold Path.withOwn
  unfold IsOwnKey at hes hname
  by_cases habs : p.isAbsolute = true
  · simp only [if_pos habs] at hes hname ⊢
    have habs' : Path.isAbsolute { p with absolute := es } = true := habs
    refine ⟨hes, hrelative, ?_, ?_⟩
    · rwa [IsOwnKey, if_pos habs']
    · rwa [Path.own, if_pos habs']
  · simp only [if_neg habs] at hes hname ⊢
    have habs' : ¬ Path.isAbsolute { p with relative := es } = true := habs
    refine ⟨habsolute, hes, ?_, ?_⟩
    · rwa [IsOwnKey, if_neg habs']
    · rwa [Path.own, if_neg habs']

theorem Orderly.named {name : String} (h : Path.named name = .ok p) : p.Orderly := by
  unfold Path.named at h
  split at h
  · next haddress =>
    cases h
    have hkey : IsOwnKey ⟨name, [], []⟩ name := Name.isAddress_iff.1 haddress
    have hnone : ∀ P, Keyed P [] := fun P => ⟨.nil, by simp, by simp⟩
    refine orderly_withOwn (hnone _) (hnone _) hkey ((hnone _).insert hkey rfl) ?_
    simp [Entries.get?]
  · cases h

theorem Orderly.update {f : Tree → Tree} (h : p.Orderly)
    (hf : ∀ t, t.rootName = "" → (f t).rootName = "") : (p.update f).Orderly := by
  refine orderly_withOwn h.absolute h.relative h.name
    (h.keyed_own.insert h.name (hf _ ?_)) ?_
  · obtain ⟨t, ht⟩ := Option.isSome_iff_exists.1 h.own
    rw [ht]
    exact h.keyed_own.nameless _ (Entries.mem_of_get? ht)
  · rw [Entries.get?_insert_self]
    rfl

/-- The key that another path's relative key gets below this path's name. -/
theorem Orderly.isOwnKey_join (h : p.Orderly) (hkey : Name.isRelativePath key = true) :
    p.IsOwnKey (p.name ++ "." ++ key) := by
  have hname := h.name
  unfold IsOwnKey at hname ⊢
  by_cases habs : p.isAbsolute = true
  · rw [if_pos habs] at hname ⊢
    exact hname.join hkey
  · rw [if_neg habs] at hname ⊢
    exact Name.isRelativePath_join hname hkey

theorem Orderly.withAbsolute (h : p.Orderly) (hes : Keyed Name.IsAbsoluteKey es)
    (hkept : ∀ k, (p.absolute.get? k).isSome → (es.get? k).isSome) :
    Orderly { p with absolute := es } := by
  obtain ⟨name, absolute, relative⟩ := p
  refine ⟨hes, h.relative, h.name, ?_⟩
  have hown := h.own
  unfold Path.own isAbsolute at hown ⊢
  by_cases habs : Name.isAbsolute name = true
  · simp only [if_pos habs] at hown ⊢
    exact hkept name hown
  · simp only [if_neg habs] at hown ⊢
    exact hown

/-- **Attaching a path never fails.** -/
theorem Orderly.append (h : p.Orderly) (hq : q.Orderly) :
    ∃ p', p.append q = .ok p' ∧ p'.Orderly := by
  obtain ⟨own, hown, hkeyed, hkept⟩ := h.keyed_own.addEntries q.relative
    (p.name ++ "." ++ ·)
    fun e he => ⟨h.isOwnKey_join (hq.relative.key e he), hq.relative.nameless e he⟩
  have hp' := orderly_withOwn h.absolute h.relative h.name hkeyed (hkept _ h.own)
  obtain ⟨absolute, habsolute, hkeyed', hkept'⟩ := hp'.absolute.addEntries q.absolute id
    fun e he => ⟨hq.absolute.key e he, hq.absolute.nameless e he⟩
  refine ⟨{ p.withOwn own with absolute := absolute }, ?_, hp'.withAbsolute hkeyed' hkept'⟩
  simp only [id] at habsolute
  simp only [Path.append, hown, habsolute, bind, Except.bind, pure, Except.pure]

theorem Orderly.of_append {p' : Path} (h : p.Orderly) (hq : q.Orderly)
    (happend : p.append q = .ok p') : p'.Orderly := by
  obtain ⟨r, hr, horderly⟩ := h.append hq
  rw [happend] at hr
  cases hr
  exact horderly

/-- **Every path that can be made has its keys in order.** -/
theorem Made.orderly : ∀ {p : Path}, p.Made → p.Orderly
  | _, .append hp hq h => hp.orderly.of_append hq.orderly h
  | _, .appendTree hp _ => hp.orderly.update fun _ ht => ht
  | _, .appendValue hp _ => hp.orderly.update fun _ ht => ht
  | _, .appendText hp _ => hp.orderly.update fun _ ht => ht
  | _, .named h => .named h

end Path

end SpanTree
