import SpanTree.Pattern.Parse
import SpanTree.Proofs.Language
import SpanTree.Proofs.PathKeys

/-!
# The grammar of names, three times

Names of nodes, absolute paths and relative paths are told by three patterns, each for itself.
**They describe one grammar** (`grammars_agree`): a path is accepted exactly if each of its pieces
between the dots is the name of a node and only the first one may be the root; it is absolute or
relative as the first piece is the root or not. So a relative path behind an accepted one, with a
dot between them, makes an accepted one again.

The words of the patterns are computed from inside out, from the characters of a word to the dotted
chain (`mem_chain`), and a chain of segments is cut at its dots into just these segments.
-/

namespace SpanTree

namespace Pattern

variable {p : Pattern} {cls : CharClass} {cs : List Char} {c d : Char}

theorem mem_char : cs ∈ (char cls).language ↔ ∃ c, cls.has c = true ∧ cs = [c] := Iff.rfl

theorem has_single : (CharClass.single c).has d = true ↔ d = c := by
  simp only [CharClass.single, CharClass.has, Bool.and_eq_true, decide_eq_true_eq]
  constructor
  · rintro ⟨hle, hge⟩
    exact Char.le_antisymm hge hle
  · rintro rfl
    exact ⟨Char.le_refl _, Char.le_refl _⟩

theorem mem_single : cs ∈ (char (.single c)).language ↔ cs = [c] := by
  rw [mem_char]
  constructor
  · rintro ⟨d, hd, rfl⟩
    rw [has_single.1 hd]
  · rintro rfl
    exact ⟨c, has_single.2 rfl, rfl⟩

theorem mem_optional : cs ∈ (many p 0 (some 1)).language ↔ cs = [] ∨ cs ∈ p.language := by
  constructor
  · rintro ⟨words, rfl, hwords, -, hlen⟩
    have hlen := hlen 1 rfl
    match words with
    | [] => exact .inl rfl
    | [word] => exact .inr (by simpa using hwords word (.head _))
  · rintro (rfl | h)
    · exact ⟨[], rfl, by simp, Nat.le_refl 0, fun n _ => Nat.zero_le _⟩
    · exact ⟨[cs], by simp, by simpa using h, Nat.zero_le _, fun n hn => by cases hn; rfl⟩

theorem mem_star_char : cs ∈ (many (char cls) 0 none).language ↔ ∀ c ∈ cs, cls.has c = true := by
  constructor
  · rintro ⟨words, rfl, hwords, -, -⟩ c hc
    obtain ⟨word, hword, hc⟩ := List.mem_flatten.1 hc
    obtain ⟨d, hd, rfl⟩ := hwords word hword
    rwa [List.mem_singleton.1 hc]
  · intro h
    refine ⟨cs.map ([·]), ?_, ?_, Nat.zero_le _, fun n hn => by cases hn⟩
    · rw [← List.flatMap_def, List.flatMap_singleton']
    · rintro word hword
      obtain ⟨c, hc, rfl⟩ := List.mem_map.1 hword
      exact ⟨c, h c hc, rfl⟩

end Pattern

namespace Text

theorem unite_eq_flatMap (sep : Char) (p : List Char) (ps : List (List Char)) :
    unite sep (p :: ps) = p ++ ps.flatMap (sep :: ·) := by
  induction ps generalizing p with
  | nil => simp [unite]
  | cons q ps ih => rw [unite_cons (List.cons_ne_nil q ps), ih, List.flatMap_cons, List.cons_append]

end Text

namespace Name

open Pattern

/-! ## The three patterns -/

def nodeText : String := "^(?:\\$|#?[a-z_][a-z_0-9]*)$"

def pathText : String := "^\\$(?:\\.#?[a-z_][a-z_0-9]*)+$"

def relativePathText : String := "^#?[a-z_][a-z_0-9]*(?:\\.#?[a-z_][a-z_0-9]*)*$"

/-- The name is one in which the pattern of this text occurs. -/
def recognises (text s : String) : Bool :=
  match Pattern.parse text.toList with
  | .ok p => p.occursIn s.toList.toArray
  | .error _ => false

/-- The first characters of a word. -/
def wordStart : CharClass := .either (.range 'a' 'z') (.single '_')

def wordChar : CharClass := .either wordStart (.range '0' '9')

def word : Pattern := .seq (.char wordStart) (.many (.char wordChar) 0 none)

def segment : Pattern := .seq (.many (.char (.single '#')) 0 (some 1)) word

/-- Segments, each behind a dot. -/
def chain (least : Nat) : Pattern := .many (.seq (.char (.single '.')) segment) least none

def node : Pattern := .alt (.char (.single '$')) segment

def path : Pattern := .seq (.char (.single '$')) (chain 1)

/-- A segment and a chain; what is in sequence is nested to the right throughout. -/
def relativePath : Pattern :=
  .seq (.many (.char (.single '#')) 0 (some 1))
    (.seq (.char wordStart) (.seq (.many (.char wordChar) 0 none) (chain 0)))

theorem parse_nodeText : Pattern.parse nodeText.toList = .ok node.whole := by rfl

theorem parse_pathText : Pattern.parse pathText.toList = .ok path.whole := by rfl

theorem parse_relativePathText :
    Pattern.parse relativePathText.toList = .ok relativePath.whole := by rfl

/-! ## Their words -/

variable {text s t : String} {p : Pattern} {cs : List Char} {c : Char}

theorem has_wordStart : wordStart.has c = isWordStart c := by
  have hunderscore : (CharClass.single '_').has c = (c == '_') :=
    Bool.eq_iff_iff.2 (has_single.trans beq_iff_eq.symm)
  rw [wordStart, CharClass.has, hunderscore]
  rfl

theorem has_wordChar : wordChar.has c = isWordChar c := by
  rw [wordChar, CharClass.has, has_wordStart]
  rfl

theorem mem_word : cs ∈ word.language ↔ isWord cs = true := by
  rw [word, language_seq, Language.mem_mul]
  constructor
  · rintro ⟨_, ⟨c, hc, rfl⟩, ds, hds, rfl⟩
    rw [has_wordStart] at hc
    simp only [mem_star_char, has_wordChar] at hds
    rw [List.singleton_append, isWord, hc, List.all_eq_true.2 hds]
    rfl
  · intro h
    cases cs with
    | nil => cases h
    | cons c cs =>
      rw [isWord, Bool.and_eq_true, List.all_eq_true] at h
      refine ⟨[c], ⟨c, has_wordStart.trans h.1, rfl⟩, cs, ?_, rfl⟩
      simpa only [mem_star_char, has_wordChar] using h.2

theorem isSegment_iff : isSegment cs = true ↔
    isWord cs = true ∨ ∃ ds, cs = '#' :: ds ∧ isWord ds = true := by
  unfold isSegment
  split
  · next ds =>
    -- No word begins with the mark.
    have hmark : isWord ('#' :: ds) = false := rfl
    simp [hmark]
  · next hmark =>
    constructor
    · exact .inl
    · rintro (h | ⟨ds, rfl, -⟩)
      · exact h
      · exact absurd rfl (hmark ds)

theorem mem_segment : cs ∈ segment.language ↔ isSegment cs = true := by
  rw [segment, language_seq, Language.mem_mul, isSegment_iff]
  constructor
  · rintro ⟨mark, hmark, ds, hds, rfl⟩
    rw [mem_word] at hds
    rcases mem_optional.1 hmark with rfl | hmark
    · exact .inl hds
    · rw [mem_single.1 hmark]
      exact .inr ⟨ds, rfl, hds⟩
  · rintro (h | ⟨ds, rfl, h⟩)
    · exact ⟨[], mem_optional.2 (.inl rfl), cs, mem_word.2 h, rfl⟩
    · exact ⟨['#'], mem_optional.2 (.inr (mem_single.2 rfl)), ds, mem_word.2 h, rfl⟩

theorem mem_node : cs ∈ node.language ↔ cs = ['$'] ∨ isSegment cs = true := by
  rw [node, language, Language.mem_add, mem_single, mem_segment]

/-- A chain is made of segments, each with a dot in front. -/
theorem mem_chain {least : Nat} : cs ∈ (chain least).language ↔
    ∃ segs : List (List Char), cs = segs.flatMap ('.' :: ·) ∧
      (∀ seg ∈ segs, isSegment seg = true) ∧ least ≤ segs.length := by
  have hlink : ∀ word, word ∈ (Pattern.seq (.char (.single '.')) segment).language ↔
      ∃ seg, isSegment seg = true ∧ word = '.' :: seg := by
    intro word
    rw [language_seq, Language.mem_mul]
    constructor
    · rintro ⟨dot, hdot, seg, hseg, rfl⟩
      rw [mem_single.1 hdot]
      exact ⟨seg, mem_segment.1 hseg, rfl⟩
    · rintro ⟨seg, hseg, rfl⟩
      exact ⟨['.'], mem_single.2 rfl, seg, mem_segment.2 hseg, rfl⟩
  constructor
  · rintro ⟨words, rfl, hwords, hlen, -⟩
    choose! seg hseg hdot using fun word hword => (hlink word).1 (hwords word hword)
    refine ⟨words.map seg, ?_, ?_, ?_⟩
    · rw [List.flatMap_map, List.flatMap_def]
      congr 1
      exact (List.map_id words).symm.trans (List.map_congr_left hdot)
    · intro x hx
      obtain ⟨word, hword, rfl⟩ := List.mem_map.1 hx
      exact hseg word hword
    · rwa [List.length_map]
  · rintro ⟨segs, rfl, hsegs, hlen⟩
    refine ⟨segs.map ('.' :: ·), List.flatMap_def, ?_, ?_, fun n hn => by cases hn⟩
    · intro word hword
      obtain ⟨seg, hseg, rfl⟩ := List.mem_map.1 hword
      exact (hlink _).2 ⟨seg, hsegs seg hseg, rfl⟩
    · rwa [List.length_map]

theorem exists_segments (s : String) : ∃ first segs, segments s = first :: segs :=
  List.exists_cons_of_ne_nil (Text.pieces_ne_nil '.' s.toList)

/-- A piece without dots and a chain of segments behind it are cut at the dots of the chain. -/
theorem segments_eq_iff {first : List Char} {segs : List (List Char)} (hfirst : '.' ∉ first)
    (hsegs : ∀ seg ∈ segs, isSegment seg = true) :
    segments s = first :: segs ↔ s.toList = first ++ segs.flatMap ('.' :: ·) := by
  have hdots : ∀ seg ∈ first :: segs, '.' ∉ seg :=
    List.forall_mem_cons.2 ⟨hfirst, fun seg hseg hdot =>
      (isSegment_ascii (hsegs seg hseg) '.' hdot).2 rfl⟩
  rw [← Text.unite_eq_flatMap, segments, eq_comm,
    ← Text.unite_eq_iff (List.cons_ne_nil first segs) hdots, eq_comm]

theorem mem_path : s.toList ∈ path.language ↔
    ∃ seg segs, segments s = ['$'] :: seg :: segs ∧
      ∀ x ∈ seg :: segs, isSegment x = true := by
  rw [path, language_seq, Language.mem_mul]
  constructor
  · rintro ⟨root, hroot, cs, hcs, hs⟩
    rw [mem_single.1 hroot] at hs
    obtain ⟨segs, rfl, hsegs, hlen⟩ := mem_chain.1 hcs
    obtain ⟨seg, segs, rfl⟩ := List.exists_cons_of_length_pos hlen
    exact ⟨seg, segs, (segments_eq_iff (by decide) hsegs).2 hs.symm, hsegs⟩
  · rintro ⟨seg, segs, hs, hsegs⟩
    exact ⟨['$'], mem_single.2 rfl, _, mem_chain.2 ⟨_, rfl, hsegs, Nat.succ_pos _⟩,
      ((segments_eq_iff (by decide) hsegs).1 hs).symm⟩

theorem language_relativePath :
    relativePath.language = segment.language * (chain 0).language := by
  simp only [relativePath, segment, word, language_seq, mul_assoc]

theorem mem_relativePath : s.toList ∈ relativePath.language ↔
    ∀ seg ∈ segments s, isSegment seg = true := by
  rw [language_relativePath, Language.mem_mul]
  constructor
  · rintro ⟨first, hfirst, cs, hcs, hs⟩
    rw [mem_segment] at hfirst
    obtain ⟨segs, rfl, hsegs, -⟩ := mem_chain.1 hcs
    have hdot : '.' ∉ first := fun hdot => (isSegment_ascii hfirst '.' hdot).2 rfl
    rw [(segments_eq_iff hdot hsegs).2 hs.symm]
    exact List.forall_mem_cons.2 ⟨hfirst, hsegs⟩
  · intro h
    obtain ⟨first, segs, hs⟩ := exists_segments s
    rw [hs] at h
    obtain ⟨hfirst, hsegs⟩ := List.forall_mem_cons.1 h
    have hdot : '.' ∉ first := fun hdot => (isSegment_ascii hfirst '.' hdot).2 rfl
    exact ⟨first, mem_segment.2 hfirst, _, mem_chain.2 ⟨segs, rfl, hsegs, Nat.zero_le _⟩,
      ((segments_eq_iff hdot hsegs).1 hs).symm⟩

/-! ## What the patterns recognise -/

theorem isPath_iff : isPath s = true ↔
    ∃ seg segs, segments s = ['$'] :: seg :: segs ∧ ∀ x ∈ seg :: segs, isSegment x = true := by
  unfold isPath
  split
  · next seg segs hs =>
    rw [List.all_eq_true]
    constructor
    · exact fun h => ⟨seg, segs, hs, h⟩
    · rintro ⟨seg', segs', hs', h⟩
      cases hs.symm.trans hs'
      exact h
  · next hno =>
    constructor
    · intro h
      cases h
    · rintro ⟨seg, segs, hs, -⟩
      exact absurd hs (hno seg segs)

theorem recognises_eq (hparse : Pattern.parse text.toList = .ok p.whole) (hp : p.IsPlain)
    {b : Bool} (h : s.toList ∈ p.language ↔ b = true) : recognises text s = b := by
  rw [recognises, hparse]
  exact Bool.eq_iff_iff.2 ((occursIn_whole hp).trans h)

theorem recognises_node (s : String) : recognises nodeText s = isNode s := by
  refine recognises_eq parse_nodeText (by decide) ?_
  rw [mem_node, isNode, Bool.or_eq_true, beq_iff_eq]

theorem recognises_path (s : String) : recognises pathText s = isPath s := by
  refine recognises_eq parse_pathText (by decide) ?_
  rw [mem_path, isPath_iff]

theorem recognises_relativePath (s : String) :
    recognises relativePathText s = isRelativePath s := by
  refine recognises_eq parse_relativePathText (by decide) ?_
  rw [mem_relativePath, isRelativePath_iff]

/-! ## One grammar -/

/-- Each piece between the dots is the name of a node, and only the first may be the root. -/
def Chained (s : String) : Prop :=
  (∀ seg ∈ segments s, recognises nodeText (String.ofList seg) = true) ∧
    ∀ seg ∈ (segments s).tail, seg ≠ ['$']

theorem recognises_piece (seg : List Char) : recognises nodeText (String.ofList seg) = true ↔
    seg = ['$'] ∨ isSegment seg = true := by
  rw [recognises_node, isNode, String.toList_ofList, Bool.or_eq_true, beq_iff_eq]

theorem chained_iff {first : List Char} {segs : List (List Char)}
    (hs : segments s = first :: segs) : Chained s ↔ (first = ['$'] ∨ isSegment first = true) ∧
      ∀ seg ∈ segs, isSegment seg = true := by
  simp only [Chained, hs, recognises_piece, List.forall_mem_cons, List.tail_cons, and_assoc]
  refine and_congr_right fun _ => ?_
  rw [← forall₂_and]
  refine forall₂_congr fun seg _ => ?_
  constructor
  · rintro ⟨hnode, hroot⟩
    exact hnode.resolve_left hroot
  · intro hseg
    refine ⟨.inr hseg, ?_⟩
    rintro rfl
    cases hseg

/-- A path is accepted as absolute or as relative. -/
theorem chained_iff_key : Chained s ↔ IsAbsoluteKey s ∨ isRelativePath s = true := by
  obtain ⟨first, segs, hs⟩ := exists_segments s
  rw [chained_iff hs, isAbsoluteKey_iff, isRelativePath_iff, hs, List.forall_mem_cons]
  constructor
  · rintro ⟨rfl | hfirst, hsegs⟩
    · exact .inl ⟨segs, rfl, hsegs⟩
    · exact .inr ⟨hfirst, hsegs⟩
  · rintro (⟨segs', heq, hsegs⟩ | ⟨hfirst, hsegs⟩)
    · cases heq
      exact ⟨.inl rfl, hsegs⟩
    · exact ⟨.inr hfirst, hsegs⟩

theorem not_isAbsolute (h : isRelativePath s = true) : isAbsolute s = false := by
  rw [isAbsolute, beq_eq_false_iff_ne]
  intro hroot
  obtain ⟨cs, hs⟩ := List.head?_eq_some_iff.1 hroot
  have hfirst : '$' :: (Text.pieces '.' cs).head?.getD [] ∈ segments s := by
    rw [segments, hs, Text.pieces_cons, if_neg (by decide)]
    exact .head _
  cases isRelativePath_iff.1 h _ hfirst

theorem isAddress_iff_chained : isAddress s = true ↔ Chained s := by
  rw [isAddress_iff, chained_iff_key]
  by_cases habs : isAbsolute s = true
  · have hrelative : ¬ isRelativePath s = true := fun h => by simp [not_isAbsolute h] at habs
    simp [habs, hrelative]
  · have habsolute : ¬ IsAbsoluteKey s := fun h => habs h.isAbsolute
    simp [habs, habsolute]

theorem named_isOk_iff : (∃ p, Path.named s = .ok p) ↔ isAddress s = true := by
  unfold Path.named
  by_cases h : isAddress s = true
  · rw [if_pos h]
    exact ⟨fun _ => h, fun _ => ⟨_, rfl⟩⟩
  · rw [if_neg h]
    constructor
    · rintro ⟨p, hp⟩
      cases hp
    · exact fun haddress => absurd haddress h

theorem isAbsolute_of_named {p : Path} (h : Path.named s = .ok p) :
    p.isAbsolute = isAbsolute s := by
  unfold Path.named at h
  split at h
  · cases h
    unfold Path.withOwn
    split <;> rfl
  · cases h

theorem recognises_path_iff : recognises pathText s = true ↔
    Chained s ∧ (segments s).head? = some ['$'] ∧ 2 ≤ (segments s).length := by
  obtain ⟨first, segs, hs⟩ := exists_segments s
  rw [recognises_path, isPath_iff, chained_iff hs, hs]
  constructor
  · rintro ⟨seg, segs', heq, hsegs⟩
    cases heq
    exact ⟨⟨.inl rfl, hsegs⟩, rfl, by simp⟩
  · rintro ⟨⟨-, hsegs⟩, hroot, hlen⟩
    obtain rfl := Option.some.inj hroot
    obtain ⟨seg, segs, rfl⟩ := List.exists_cons_of_length_pos (Nat.lt_of_succ_lt_succ hlen)
    exact ⟨seg, segs, rfl, hsegs⟩

theorem recognises_relativePath_iff : recognises relativePathText s = true ↔
    Chained s ∧ (segments s).head? ≠ some ['$'] := by
  obtain ⟨first, segs, hs⟩ := exists_segments s
  rw [recognises_relativePath, isRelativePath_iff, chained_iff hs, hs, List.forall_mem_cons]
  constructor
  · rintro ⟨hfirst, hsegs⟩
    refine ⟨⟨.inr hfirst, hsegs⟩, ?_⟩
    rintro ⟨⟩
    cases hfirst
  · rintro ⟨⟨hfirst, hsegs⟩, hroot⟩
    exact ⟨hfirst.resolve_left fun h => hroot (congrArg some h), hsegs⟩

/-- A relative path goes below any path, which stays absolute or relative. -/
theorem named_join {p q : Path} (hp : Path.named s = .ok p) (hq : Path.named t = .ok q)
    (hrelative : q.isRelative = true) :
    ∃ r, Path.named (s ++ "." ++ t) = .ok r ∧ r.isAbsolute = p.isAbsolute := by
  have ht : isRelativePath t = true := by
    have haddress := named_isOk_iff.1 ⟨q, hq⟩
    rw [Path.isRelative, isAbsolute_of_named hq, Bool.not_eq_true'] at hrelative
    rwa [isAddress, hrelative] at haddress
  obtain ⟨key, habs⟩ : (IsAbsoluteKey (s ++ "." ++ t) ∨ isRelativePath (s ++ "." ++ t) = true) ∧
      isAbsolute (s ++ "." ++ t) = isAbsolute s := by
    rcases chained_iff_key.1 (isAddress_iff_chained.1 (named_isOk_iff.1 ⟨p, hp⟩)) with hs | hs
    · exact ⟨.inl (hs.join ht), by rw [hs.isAbsolute, (hs.join ht).isAbsolute]⟩
    · have hjoin := isRelativePath_join hs ht
      exact ⟨.inr hjoin, by rw [not_isAbsolute hs, not_isAbsolute hjoin]⟩
  obtain ⟨r, hr⟩ := named_isOk_iff.2 (isAddress_iff_chained.2 (chained_iff_key.2 key))
  exact ⟨r, hr, by rw [isAbsolute_of_named hr, isAbsolute_of_named hp, habs]⟩

/-- **The three patterns and the paths that can be made describe one grammar.** -/
theorem grammars_agree (s t : String) :
    (isNode s = recognises nodeText s ∧ isPath s = recognises pathText s ∧
      isRelativePath s = recognises relativePathText s) ∧
    ((∃ p, Path.named s = .ok p) ↔ Chained s) ∧
    (recognises pathText s = true ↔
      Chained s ∧ (segments s).head? = some ['$'] ∧ 2 ≤ (segments s).length) ∧
    (recognises relativePathText s = true ↔ Chained s ∧ (segments s).head? ≠ some ['$']) ∧
    ∀ p q, Path.named s = .ok p → Path.named t = .ok q → q.isRelative = true →
      ∃ r, Path.named (s ++ "." ++ t) = .ok r ∧ r.isAbsolute = p.isAbsolute :=
  ⟨⟨(recognises_node s).symm, (recognises_path s).symm, (recognises_relativePath s).symm⟩,
    named_isOk_iff.trans isAddress_iff_chained, recognises_path_iff, recognises_relativePath_iff,
    fun _ _ => named_join⟩

/-- An array below an absolute path and below a relative one. -/
theorem grammars_agree_array :
    (∃ r, Path.named ("$.src" ++ "." ++ "#ports") = .ok r ∧ r.isAbsolute = true) ∧
    ∃ r, Path.named ("src" ++ "." ++ "#ports") = .ok r ∧ r.isAbsolute = false :=
  ⟨(grammars_agree "$.src" "#ports").2.2.2.2 _ _ rfl rfl rfl,
    (grammars_agree "src" "#ports").2.2.2.2 _ _ rfl rfl rfl⟩

end Name

end SpanTree
