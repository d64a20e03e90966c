import Mathlib.Computability.Language
import SpanTree.Proofs.Matching

/-!
# The language of a pattern

A pattern without looks asks nothing of the text around a stretch, so what it matches is a set of
texts: its **language**. **It matches a stretch exactly if the characters there are a word of its
language** (`matches_iff`), by induction on the pattern; and between the two anchors it occurs in
those texts that are words of its language (`occursIn_whole`).

Positions of a text are related to the words that stand between them by `Stands`, which takes a
word apart where its parts meet (`stands_append`).
-/

namespace SpanTree.Pattern

/-- The pattern has no looks. -/
def IsPlain : Pattern → Prop
  | empty | char _ => True
  | look _ => False
  | seq p q | alt p q => p.IsPlain ∧ q.IsPlain
  | many p _ _ => p.IsPlain

instance decidableIsPlain : ∀ p : Pattern, Decidable p.IsPlain
  | empty | char _ => .isTrue trivial
  | look _ => .isFalse id
  | seq p q | alt p q => @instDecidableAnd _ _ (decidableIsPlain p) (decidableIsPlain q)
  | many p _ _ => decidableIsPlain p

/-- The texts that a pattern without looks matches. -/
def language : Pattern → Language Char
  | empty => 1
  | char cls => {cs | ∃ c, cls.has c = true ∧ cs = [c]}
  | look _ => 0
  | seq p q => p.language * q.language
  | alt p q => p.language + q.language
  | many p least extra => {cs | ∃ words : List (List Char), cs = words.flatten ∧
      (∀ word ∈ words, word ∈ p.language) ∧ least ≤ words.length ∧
      ∀ n, extra = some n → words.length ≤ least + n}

variable {w : Array Char} {p q : Pattern} {i j k n : Nat} {a b cs : List Char}

theorem language_seq (p q : Pattern) : (seq p q).language = p.language * q.language := rfl

/-! ## Words between positions -/

/-- The word stands in the text from position `i` to position `j`. -/
def Stands (w : Array Char) (i : Nat) (cs : List Char) (j : Nat) : Prop :=
  ∃ before after, w.toList = before ++ cs ++ after ∧ before.length = i ∧ i + cs.length = j

theorem Stands.le_size (h : Stands w i cs j) : i ≤ w.size := by
  obtain ⟨before, after, hw, rfl, -⟩ := h
  rw [← Array.length_toList, hw, List.append_assoc, List.length_append]
  exact Nat.le_add_right _ _

theorem stands_nil : Stands w i [] j ↔ i = j ∧ i ≤ w.size := by
  constructor
  · intro h
    exact ⟨by obtain ⟨_, _, -, -, rfl⟩ := h; rfl, h.le_size⟩
  · rintro ⟨rfl, hi⟩
    exact ⟨w.toList.take i, w.toList.drop i, by simp, by simpa using hi, rfl⟩

theorem stands_singleton {c : Char} : Stands w i [c] j ↔ w[i]? = some c ∧ j = i + 1 := by
  rw [← Array.getElem?_toList]
  constructor
  · rintro ⟨before, after, hw, rfl, rfl⟩
    rw [hw]
    simp
  · rintro ⟨hc, rfl⟩
    obtain ⟨hlt, rfl⟩ := List.getElem?_eq_some_iff.1 hc
    refine ⟨w.toList.take i, w.toList.drop (i + 1), ?_, ?_, rfl⟩
    · rw [List.append_assoc, List.singleton_append, ← List.drop_eq_getElem_cons hlt,
        List.take_append_drop]
    · exact List.length_take_of_le (Nat.le_of_lt hlt)

theorem stands_append : Stands w i (a ++ b) k ↔ ∃ j, Stands w i a j ∧ Stands w j b k := by
  constructor
  · rintro ⟨before, after, hw, rfl, rfl⟩
    refine ⟨before.length + a.length, ⟨before, b ++ after, ?_, rfl, rfl⟩,
      ⟨before ++ a, after, ?_, List.length_append, ?_⟩⟩
    · simpa using hw
    · simpa using hw
    · rw [List.length_append, Nat.add_assoc]
  · rintro ⟨j, ⟨before, after, hw, rfl, rfl⟩, ⟨before', after', hw', hlen, rfl⟩⟩
    -- Both ways to cut the text agree up to the position where the parts meet.
    rw [hw, List.append_assoc before'] at hw'
    obtain ⟨hbefore, hrest⟩ := List.append_inj hw' (by simpa using hlen.symm)
    refine ⟨before, after', ?_, rfl, ?_⟩
    · rw [hw, hrest, List.append_assoc, List.append_assoc, List.append_assoc]
    · rw [List.length_append, Nat.add_assoc]

theorem stands_whole : Stands w 0 cs w.size ↔ cs = w.toList := by
  constructor
  · rintro ⟨before, after, hw, hlen, hsize⟩
    obtain rfl := List.length_eq_zero_iff.1 hlen
    have hafter : after.length = 0 := by
      have := congrArg List.length hw
      simp only [List.nil_append, List.length_append, Array.length_toList] at this
      omega
    obtain rfl := List.length_eq_zero_iff.1 hafter
    simpa using hw.symm
  · rintro rfl
    exact ⟨[], [], by simp, rfl, by simp⟩

/-! ## Matches and words -/

theorem steps_add {R : Nat → Nat → Prop} {m : Nat} :
    Steps R (m + n) i k ↔ ∃ j, Steps R m i j ∧ Steps R n j k := by
  induction m generalizing i with
  | zero => simp [Steps]
  | succ m ih =>
    rw [Nat.add_right_comm]
    constructor
    · rintro ⟨i', hfirst, hrest⟩
      obtain ⟨j, hm, hn⟩ := ih.1 hrest
      exact ⟨j, ⟨i', hfirst, hm⟩, hn⟩
    · rintro ⟨j, ⟨i', hfirst, hm⟩, hn⟩
      exact ⟨i', hfirst, ih.2 ⟨j, hm, hn⟩⟩

/-- Matches one behind the other are words one behind the other. -/
theorem steps_iff (hp : ∀ i j, Matches w p i j ↔ ∃ cs ∈ p.language, Stands w i cs j)
    (hi : i ≤ w.size) : Steps (Matches w p) n i j ↔ ∃ words : List (List Char),
      words.length = n ∧ (∀ word ∈ words, word ∈ p.language) ∧ Stands w i words.flatten j := by
  induction n generalizing i with
  | zero =>
    constructor
    · rintro rfl
      exact ⟨[], rfl, by simp, stands_nil.2 ⟨rfl, hi⟩⟩
    · rintro ⟨words, hlen, -, hstands⟩
      obtain rfl := List.length_eq_zero_iff.1 hlen
      exact (stands_nil.1 hstands).1
  | succ n ih =>
    constructor
    · rintro ⟨k, hfirst, hrest⟩
      obtain ⟨words, hlen, hwords, hstands⟩ := (ih hfirst.le_size).1 hrest
      obtain ⟨word, hword, hat⟩ := (hp i k).1 hfirst
      exact ⟨word :: words, by rw [List.length_cons, hlen], List.forall_mem_cons.2 ⟨hword, hwords⟩,
        stands_append.2 ⟨k, hat, hstands⟩⟩
    · rintro ⟨words, hlen, hwords, hstands⟩
      obtain ⟨word, words, rfl⟩ := List.exists_cons_of_length_eq_add_one hlen
      obtain ⟨hword, hwords⟩ := List.forall_mem_cons.1 hwords
      obtain ⟨k, hat, hstands⟩ := stands_append.1 hstands
      exact ⟨k, (hp i k).2 ⟨word, hword, hat⟩, (ih hstands.le_size).2
        ⟨words, Nat.succ.inj hlen, hwords, hstands⟩⟩

/-- **A plain pattern matches where a word of its language stands.** -/
theorem matches_iff : ∀ {p : Pattern}, p.IsPlain → ∀ i j,
    Matches w p i j ↔ ∃ cs ∈ p.language, Stands w i cs j
  | empty, _, i, j => by
    constructor
    · intro h
      cases h with
      | empty _ hi => exact ⟨[], rfl, stands_nil.2 ⟨rfl, hi⟩⟩
    · rintro ⟨cs, hcs, hstands⟩
      obtain rfl := (Language.mem_one cs).1 hcs
      obtain ⟨rfl, hi⟩ := stands_nil.1 hstands
      exact .empty i hi
  | char cls, _, i, j => by
    constructor
    · intro h
      cases h with
      | char hc hcls => exact ⟨_, ⟨_, hcls, rfl⟩, stands_singleton.2 ⟨hc, rfl⟩⟩
    · rintro ⟨cs, ⟨c, hcls, rfl⟩, hstands⟩
      obtain ⟨hc, rfl⟩ := stands_singleton.1 hstands
      exact .char hc hcls
  | seq p q, ⟨hp, hq⟩, i, k => by
    rw [matches_seq]
    constructor
    · rintro ⟨j, hpm, hqm⟩
      obtain ⟨a, ha, hata⟩ := (matches_iff hp i j).1 hpm
      obtain ⟨b, hb, hatb⟩ := (matches_iff hq j k).1 hqm
      exact ⟨a ++ b, Language.append_mem_mul ha hb, stands_append.2 ⟨j, hata, hatb⟩⟩
    · rintro ⟨cs, hcs, hstands⟩
      obtain ⟨a, ha, b, hb, rfl⟩ := Language.mem_mul.1 hcs
      obtain ⟨j, hata, hatb⟩ := stands_append.1 hstands
      exact ⟨j, (matches_iff hp i j).2 ⟨a, ha, hata⟩, (matches_iff hq j k).2 ⟨b, hb, hatb⟩⟩
  | alt p q, ⟨hp, hq⟩, i, j => by
    rw [matches_alt, matches_iff hp, matches_iff hq]
    constructor
    · rintro (⟨cs, hcs, hstands⟩ | ⟨cs, hcs, hstands⟩)
      · exact ⟨cs, .inl hcs, hstands⟩
      · exact ⟨cs, .inr hcs, hstands⟩
    · rintro ⟨cs, hcs | hcs, hstands⟩
      · exact .inl ⟨cs, hcs, hstands⟩
      · exact .inr ⟨cs, hcs, hstands⟩
  | many p least extra, hp, i, j => by
    have hsteps : ∀ n, i ≤ w.size → (Steps (Matches w p) n i j ↔ _) :=
      fun n hi => steps_iff (matches_iff (p := p) hp) hi
    constructor
    · intro h
      have hi := Nat.le_trans h.le h.le_size
      obtain ⟨k, hleast, m, hm, hextra⟩ := (matches_many hi).1 h
      obtain ⟨words, hlen, hwords, hstands⟩ :=
        (hsteps (least + m) hi).1 (steps_add.2 ⟨k, hleast, hextra⟩)
      exact ⟨_, ⟨words, rfl, hwords, hlen ▸ Nat.le_add_right _ _, fun n hn =>
        hlen ▸ Nat.add_le_add_left (hm n hn) least⟩, hstands⟩
    · rintro ⟨cs, ⟨words, rfl, hwords, hleast, hextra⟩, hstands⟩
      have hi := hstands.le_size
      obtain ⟨m, hlen⟩ := Nat.exists_eq_add_of_le hleast
      obtain ⟨k, hfirst, hrest⟩ :=
        steps_add.1 ((hsteps _ hi).2 ⟨words, hlen, hwords, hstands⟩)
      exact (matches_many hi).2 ⟨k, hfirst, m, fun n hn =>
        Nat.le_of_add_le_add_left (hlen ▸ hextra n hn), hrest⟩

/-! ## Between the anchors -/

/-- The pattern, up to the end of the text. -/
def closed : Pattern → Pattern
  | seq p q => .seq p q.closed
  | p => .seq p (.look .textEnd)

/-- The pattern, from the beginning of the text to its end. -/
def whole (p : Pattern) : Pattern := .seq (.look .textStart) p.closed

theorem matches_look {l : Look} :
    Matches w (.look l) i j ↔ i = j ∧ i ≤ w.size ∧ l.holds w i = true := by
  constructor
  · intro h
    cases h with
    | look hi hl => exact ⟨rfl, hi, hl⟩
  · rintro ⟨rfl, hi, hl⟩
    exact .look hi hl

theorem matches_closed : Matches w p.closed i j ↔ Matches w p i j ∧ j = w.size := by
  fun_induction closed p generalizing i with
  | case1 p q ih =>
    simp only [matches_seq, ih]
    constructor
    · rintro ⟨k, hp, hq, hj⟩
      exact ⟨⟨k, hp, hq⟩, hj⟩
    · rintro ⟨⟨k, hp, hq⟩, hj⟩
      exact ⟨k, hp, hq, hj⟩
  | case2 p =>
    rw [matches_seq]
    constructor
    · rintro ⟨k, hp, hend⟩
      obtain ⟨rfl, -, hend⟩ := matches_look.1 hend
      exact ⟨hp, of_decide_eq_true hend⟩
    · rintro ⟨hp, rfl⟩
      exact ⟨_, hp, .look (Nat.le_refl _) (decide_eq_true rfl)⟩

/-- **Between the anchors a plain pattern occurs in the words of its language.** -/
theorem occursIn_whole (hp : p.IsPlain) :
    p.whole.occursIn cs.toArray = true ↔ cs ∈ p.language := by
  rw [occursIn_iff]
  constructor
  · rintro ⟨i, j, h⟩
    obtain ⟨k, hstart, hclosed⟩ := matches_seq.1 h
    obtain ⟨rfl, -, hstart⟩ := matches_look.1 hstart
    obtain rfl := of_decide_eq_true hstart
    obtain ⟨hmatch, rfl⟩ := matches_closed.1 hclosed
    obtain ⟨word, hword, hstands⟩ := (matches_iff hp _ _).1 hmatch
    rwa [stands_whole.1 hstands] at hword
  · intro h
    have hmatch := (matches_iff hp _ _).2 ⟨cs, h, stands_whole.2 rfl⟩
    exact ⟨0, _, matches_seq.2 ⟨0, .look (Nat.zero_le _) rfl, matches_closed.2 ⟨hmatch, rfl⟩⟩⟩

end SpanTree.Pattern
