import SpanTree.Pattern.Match

/-!
# What matching computes

`ends` goes over the pattern once and carries sets of positions along. **It finds exactly the ends
of the matches that begin at the positions it is given** (`mem_ends`), by induction on the pattern.

For a repetition the step from a position to the ends of one more match is followed. After each
round a position that was followed has all its successors among those seen; this is the invariant
under which nothing is missed when only fresh positions are followed. A repetition without a bound
needs no more rounds than there are positions, as a match that takes nothing leads nowhere new.
-/

namespace SpanTree.Pattern

/-! ## Steps between positions -/

/-- That many steps of a relation, one after the other. -/
def Steps (R : Nat → Nat → Prop) : Nat → Nat → Nat → Prop
  | 0, i, j => i = j
  | n + 1, i, j => ∃ k, R i k ∧ Steps R n k j

/-- A step on sets of positions up to a bound follows a relation, which leads from left to right. -/
structure Follows (step : List Nat → List Nat) (R : Nat → Nat → Prop) (bound : Nat) : Prop where
  mem_iff {is : List Nat} (his : ∀ i ∈ is, i ≤ bound) (j : Nat) : j ∈ step is ↔ ∃ i ∈ is, R i j
  le {i j : Nat} : R i j → i ≤ j
  le_bound {i j : Nat} : R i j → i ≤ bound → j ≤ bound

section Following

variable {step : List Nat → List Nat} {R : Nat → Nat → Prop} {bound n : Nat} {i j : Nat}
  {is seen new : List Nat}

theorem Steps.le (h : Follows step R bound) (hsteps : Steps R n i j) : i ≤ j := by
  induction n generalizing i with
  | zero => exact Nat.le_of_eq hsteps
  | succ n ih =>
    obtain ⟨k, hfirst, hrest⟩ := hsteps
    exact Nat.le_trans (h.le hfirst) (ih hrest)

theorem Steps.le_bound (h : Follows step R bound) (hsteps : Steps R n i j) (hi : i ≤ bound) :
    j ≤ bound := by
  induction n generalizing i with
  | zero => exact hsteps ▸ hi
  | succ n ih =>
    obtain ⟨k, hfirst, hrest⟩ := hsteps
    exact ih hrest (h.le_bound hfirst hi)

/-- Steps that lead nowhere can be left out, and then there are no more of them than positions. -/
theorem Steps.shorten (h : Follows step R bound) (hsteps : Steps R n i j) :
    ∃ m, m ≤ j - i ∧ Steps R m i j := by
  induction n generalizing i with
  | zero => exact ⟨0, Nat.zero_le _, hsteps⟩
  | succ n ih =>
    obtain ⟨k, hfirst, hrest⟩ := hsteps
    obtain ⟨m, hm, hshort⟩ := ih hrest
    have hik := h.le hfirst
    have hkj := hrest.le h
    by_cases hsame : i = k
    · exact ⟨m, by omega, hsame ▸ hshort⟩
    · exact ⟨m + 1, by omega, k, hfirst, hshort⟩

theorem mem_unite (is js : List Nat) : j ∈ unite is js ↔ j ∈ is ∨ j ∈ js := by
  fun_induction unite is js with
  | case1 => simp
  | case2 => simp
  | case3 i is i' js hlt ih => simp [ih, or_assoc]
  | case4 i is i' js _ hlt ih =>
    simp only [List.mem_cons, ih]
    grind
  | case5 i is i' js hge hle ih =>
    obtain rfl : i = i' := by omega
    simp only [List.mem_cons, ih]
    grind

/-- In a row as often as asked: if a step changes nothing, neither do the ones that are left out. -/
theorem mem_repeated (h : Follows step R bound) (his : ∀ i ∈ is, i ≤ bound) :
    j ∈ repeated step n is ↔ ∃ i ∈ is, Steps R n i j := by
  induction n generalizing is with
  | zero => simp [repeated, Steps]
  | succ n ih =>
    have hnext : ∀ k ∈ step is, k ≤ bound := by
      intro k hk
      obtain ⟨i, hi, hik⟩ := (h.mem_iff his k).1 hk
      exact h.le_bound hik (his i hi)
    have hsplit : (∃ i ∈ is, Steps R (n + 1) i j) ↔ ∃ k ∈ step is, Steps R n k j := by
      constructor
      · rintro ⟨i, hi, k, hik, hrest⟩
        exact ⟨k, (h.mem_iff his k).2 ⟨i, hi, hik⟩, hrest⟩
      · rintro ⟨k, hk, hrest⟩
        obtain ⟨i, hi, hik⟩ := (h.mem_iff his k).1 hk
        exact ⟨i, hi, k, hik, hrest⟩
    rw [repeated, hsplit]
    by_cases hfixed : step is = is
    · rw [if_pos hfixed, hfixed, ← ih his]
      cases n <;> simp [repeated, hfixed]
    · rw [if_neg hfixed, ih hnext]

/-- A way out of the positions seen goes through a fresh one, a step behind a new one. -/
theorem Steps.leaves (hclosed : ∀ i ∈ seen, i ∉ new → ∀ k, R i k → k ∈ seen) (hi : i ∈ seen)
    (hsteps : Steps R n i j) :
    j ∈ seen ∨ ∃ i' ∈ new, ∃ k, R i' k ∧ k ∉ seen ∧ ∃ m, m < n ∧ Steps R m k j := by
  induction n generalizing i with
  | zero => exact .inl (hsteps ▸ hi)
  | succ n ih =>
    obtain ⟨k, hik, hrest⟩ := hsteps
    by_cases hk : k ∈ seen
    · rcases ih hk hrest with hj | ⟨i', hi', k', hk', hfresh, m, hm, hto⟩
      · exact .inl hj
      · exact .inr ⟨i', hi', k', hk', hfresh, m, by omega, hto⟩
    · have hnew : i ∈ new :=
        Decidable.byContradiction fun hold => hk (hclosed i hi hold k hik)
      exact .inr ⟨i, hnew, k, hik, hk, n, Nat.lt_succ_self n, hrest⟩

/-- Following fresh positions only misses nothing, as the others have been followed. -/
theorem mem_reached (h : Follows step R bound) (hseen : ∀ i ∈ seen, i ≤ bound)
    (hnew : ∀ i ∈ new, i ∈ seen) (hclosed : ∀ i ∈ seen, i ∉ new → ∀ k, R i k → k ∈ seen) :
    j ∈ reached step n seen new ↔ j ∈ seen ∨ ∃ i ∈ new, ∃ m, m ≤ n ∧ Steps R m i j := by
  induction n generalizing seen new with
  | zero =>
    rw [reached]
    constructor
    · exact .inl
    · rintro (hj | ⟨i, hi, m, hm, hsteps⟩)
      · exact hj
      · obtain rfl : m = 0 := by omega
        exact hsteps ▸ hnew i hi
  | succ n ih =>
    have hstep := h.mem_iff fun i hi => hseen i (hnew i hi)
    generalize hfresh : ((step new).filter fun k => !seen.contains k) = fresh
    have hmem : ∀ k, k ∈ fresh ↔ (∃ i ∈ new, R i k) ∧ k ∉ seen := by
      intro k
      simp [← hfresh, hstep]
    have hout : (∃ i ∈ new, ∃ m, m ≤ n + 1 ∧ Steps R m i j) →
        j ∈ seen ∨ ∃ k ∈ fresh, ∃ m, m ≤ n ∧ Steps R m k j := by
      rintro ⟨i, hi, m, hm, hsteps⟩
      rcases hsteps.leaves hclosed (hnew i hi) with hj | ⟨i', hi', k, hik, hk, m', hm', hto⟩
      · exact .inl hj
      · exact .inr ⟨k, (hmem k).2 ⟨⟨i', hi', hik⟩, hk⟩, m', by omega, hto⟩
    simp only [reached, hfresh]
    split
    · rename_i hnone
      have hnil : fresh = [] := List.isEmpty_iff.1 hnone
      constructor
      · exact .inl
      · rintro (hj | hway)
        · exact hj
        · simpa [hnil] using hout hway
    · rw [ih, mem_unite]
      · constructor
        · rintro ((hj | hj) | ⟨k, hk, m, hm, hto⟩)
          · exact .inl hj
          · obtain ⟨⟨i, hi, hij⟩, -⟩ := (hmem j).1 hj
            exact .inr ⟨i, hi, 1, by omega, j, hij, rfl⟩
          · obtain ⟨⟨i, hi, hik⟩, -⟩ := (hmem k).1 hk
            exact .inr ⟨i, hi, m + 1, by omega, k, hik, hto⟩
        · rintro (hj | hway)
          · exact .inl (.inl hj)
          · exact (hout hway).imp .inl id
      · intro k hk
        rcases (mem_unite _ _).1 hk with hk | hk
        · exact hseen k hk
        · obtain ⟨⟨i, hi, hik⟩, -⟩ := (hmem k).1 hk
          exact h.le_bound hik (hseen i (hnew i hi))
      · exact fun k hk => (mem_unite _ _).2 (.inr hk)
      · intro i hi hold k hik
        rw [mem_unite] at hi ⊢
        have hi := hi.resolve_right hold
        by_cases hk : k ∈ seen
        · exact .inl hk
        · have hi : i ∈ new :=
            Decidable.byContradiction fun hold => hk (hclosed i hi hold k hik)
          exact .inr ((hmem k).2 ⟨⟨i, hi, hik⟩, hk⟩)

end Following

/-! ## Matches -/

variable {w : Array Char} {p q : Pattern} {i j k : Nat} {is : List Nat}

theorem Matches.le (h : Matches w p i j) : i ≤ j := by
  induction h <;> omega

theorem Matches.le_size (h : Matches w p i j) : j ≤ w.size := by
  induction h with
  | empty i hi => exact hi
  | @char cls i c hc _ =>
    obtain ⟨hlt, -⟩ := Array.getElem?_eq_some_iff.1 hc
    exact hlt
  | look hi _ => exact hi
  | stop hi => exact hi
  | seq _ _ _ ih => exact ih
  | altLeft _ ih => exact ih
  | altRight _ ih => exact ih
  | least _ _ _ ih => exact ih
  | bounded _ _ _ ih => exact ih
  | unbounded _ _ _ ih => exact ih

theorem matches_seq : Matches w (.seq p q) i k ↔ ∃ j, Matches w p i j ∧ Matches w q j k := by
  constructor
  · intro h
    cases h with
    | seq hp hq => exact ⟨_, hp, hq⟩
  · rintro ⟨j, hp, hq⟩
    exact .seq hp hq

theorem matches_alt : Matches w (.alt p q) i j ↔ Matches w p i j ∨ Matches w q i j := by
  constructor
  · intro h
    cases h with
    | altLeft hp => exact .inl hp
    | altRight hq => exact .inr hq
  · rintro (hp | hq)
    · exact .altLeft hp
    · exact .altRight hq

/-- Matches that may be extra, one behind the other. -/
theorem matches_extra {m : Nat} {extra : Option Nat} (hi : i ≤ w.size)
    (hm : ∀ n, extra = some n → m ≤ n) (hsteps : Steps (Matches w p) m i j) :
    Matches w (.many p 0 extra) i j := by
  induction m generalizing i extra with
  | zero =>
    obtain rfl : i = j := hsteps
    exact .stop hi
  | succ m ih =>
    obtain ⟨k, hfirst, hrest⟩ := hsteps
    cases extra with
    | none =>
      refine .unbounded hfirst (ih hfirst.le_size (fun n hn => ?_) hrest)
      cases hn
    | some n =>
      have hle := hm n rfl
      obtain ⟨n, rfl⟩ := Nat.exists_eq_add_one_of_ne_zero (by omega : n ≠ 0)
      refine .bounded hfirst (ih hfirst.le_size (fun n' hn => ?_) hrest)
      cases hn
      exact Nat.le_of_succ_le_succ hle

/-- A repetition takes at least the least number of matches, and then no more than may be extra. -/
theorem matches_many {least : Nat} {extra : Option Nat} (hi : i ≤ w.size) :
    Matches w (.many p least extra) i j ↔ ∃ k, Steps (Matches w p) least i k ∧
      ∃ m, (∀ n, extra = some n → m ≤ n) ∧ Steps (Matches w p) m k j := by
  constructor
  · intro h
    generalize hp : Pattern.many p least extra = r at h
    induction h generalizing least extra with
    | empty => cases hp
    | char => cases hp
    | look => cases hp
    | seq => cases hp
    | altLeft => cases hp
    | altRight => cases hp
    | stop hi =>
      cases hp
      exact ⟨_, rfl, 0, fun _ _ => Nat.zero_le _, rfl⟩
    | least hfirst _ _ ih =>
      cases hp
      obtain ⟨k, hleast, hextra⟩ := ih hfirst.le_size rfl
      exact ⟨k, ⟨_, hfirst, hleast⟩, hextra⟩
    | bounded hfirst _ _ ih =>
      cases hp
      obtain ⟨_, rfl, m, hm, hextra⟩ := ih hfirst.le_size rfl
      refine ⟨_, rfl, m + 1, fun n hn => ?_, _, hfirst, hextra⟩
      cases hn
      exact Nat.succ_le_succ (hm _ rfl)
    | unbounded hfirst _ _ ih =>
      cases hp
      obtain ⟨_, rfl, m, hm, hextra⟩ := ih hfirst.le_size rfl
      refine ⟨_, rfl, m + 1, fun n hn => ?_, _, hfirst, hextra⟩
      cases hn
  · rintro ⟨k, hleast, m, hm, hsteps⟩
    induction least generalizing i with
    | zero =>
      obtain rfl : i = k := hleast
      exact matches_extra hi hm hsteps
    | succ n ih =>
      obtain ⟨i', hfirst, hleast⟩ := hleast
      exact .least hfirst (ih hfirst.le_size hleast)

/-- Behind the matches that a repetition has to take there are as many as may be extra. -/
theorem mem_ends_many {least : Nat} {extra : Option Nat}
    (hstep : Follows (p.ends w) (Matches w p) w.size)
    (hbound : ∀ k ∈ repeated (p.ends w) least is, k ≤ w.size) :
    j ∈ (many p least extra).ends w is ↔ ∃ k ∈ repeated (p.ends w) least is, ∃ m,
      (∀ n, extra = some n → m ≤ n) ∧ Steps (Matches w p) m k j := by
  simp only [ends]
  generalize repeated (p.ends w) least is = start at *
  have hreached : ∀ n, j ∈ reached (p.ends w) n start start ↔
      ∃ k ∈ start, ∃ m, m ≤ n ∧ Steps (Matches w p) m k j := by
    intro n
    rw [mem_reached hstep hbound (fun _ h => h) fun i hi hold => absurd hi hold]
    exact or_iff_right_of_imp fun hj => ⟨j, hj, 0, Nat.zero_le _, rfl⟩
  cases extra with
  | some n => simp [hreached]
  | none =>
    simp only [hreached]
    constructor
    · rintro ⟨k, hk, m, -, hsteps⟩
      refine ⟨k, hk, m, fun n hn => ?_, hsteps⟩
      cases hn
    · rintro ⟨k, hk, m, -, hsteps⟩
      obtain ⟨m', hm', hshort⟩ := hsteps.shorten hstep
      have hj := hsteps.le_bound hstep (hbound k hk)
      exact ⟨k, hk, m', by omega, hshort⟩

/-- **The ends of the matches that begin at one of the positions, and no others.** -/
theorem mem_ends : ∀ (p : Pattern) {is : List Nat}, (∀ i ∈ is, i ≤ w.size) → ∀ j,
    j ∈ p.ends w is ↔ ∃ i ∈ is, Matches w p i j
  | empty, is, his, j => by
    rw [ends]
    constructor
    · exact fun hj => ⟨j, hj, .empty j (his j hj)⟩
    · rintro ⟨i, hi, h⟩
      cases h
      exact hi
  | char cls, is, his, j => by
    simp only [ends, List.mem_map, List.mem_filter]
    constructor
    · rintro ⟨i, ⟨hi, hc⟩, rfl⟩
      cases hw : w[i]? with
      | none => simp [hw] at hc
      | some c =>
        rw [hw] at hc
        exact ⟨i, hi, .char hw hc⟩
    · rintro ⟨i, hi, h⟩
      cases h with
      | char hw hc => exact ⟨i, ⟨hi, by rw [hw]; exact hc⟩, rfl⟩
  | look l, is, his, j => by
    simp only [ends, List.mem_filter]
    constructor
    · rintro ⟨hj, hl⟩
      exact ⟨j, hj, .look (his j hj) hl⟩
    · rintro ⟨i, hi, h⟩
      cases h with
      | look _ hl => exact ⟨hi, hl⟩
  | seq p q, is, his, j => by
    have hmid : ∀ k ∈ p.ends w is, k ≤ w.size := by
      intro k hk
      obtain ⟨i, -, h⟩ := (mem_ends p his k).1 hk
      exact h.le_size
    rw [ends, mem_ends q hmid]
    constructor
    · rintro ⟨k, hk, hkj⟩
      obtain ⟨i, hi, hik⟩ := (mem_ends p his k).1 hk
      exact ⟨i, hi, .seq hik hkj⟩
    · rintro ⟨i, hi, h⟩
      cases h with
      | seq hik hkj => exact ⟨_, (mem_ends p his _).2 ⟨i, hi, hik⟩, hkj⟩
  | alt p q, is, his, j => by
    rw [ends, mem_unite, mem_ends p his, mem_ends q his]
    constructor
    · rintro (⟨i, hi, h⟩ | ⟨i, hi, h⟩)
      · exact ⟨i, hi, .altLeft h⟩
      · exact ⟨i, hi, .altRight h⟩
    · rintro ⟨i, hi, h⟩
      cases h with
      | altLeft h => exact .inl ⟨i, hi, h⟩
      | altRight h => exact .inr ⟨i, hi, h⟩
  | many p least extra, is, his, j => by
    have hstep : Follows (p.ends w) (Matches w p) w.size :=
      ⟨fun his j => mem_ends p his j, Matches.le, fun h _ => h.le_size⟩
    have hmem := fun k => mem_repeated (j := k) (n := least) hstep his
    have hbound : ∀ k ∈ repeated (p.ends w) least is, k ≤ w.size := by
      intro k hk
      obtain ⟨i, hi, hsteps⟩ := (hmem k).1 hk
      exact hsteps.le_bound hstep (his i hi)
    rw [mem_ends_many hstep hbound]
    constructor
    · rintro ⟨k, hk, hextra⟩
      obtain ⟨i, hi, hleast⟩ := (hmem k).1 hk
      exact ⟨i, hi, (matches_many (his i hi)).2 ⟨k, hleast, hextra⟩⟩
    · rintro ⟨i, hi, h⟩
      obtain ⟨k, hleast, hextra⟩ := (matches_many (his i hi)).1 h
      exact ⟨k, (hmem k).2 ⟨i, hi, hleast⟩, hextra⟩

theorem occursIn_iff (p : Pattern) (w : Array Char) :
    p.occursIn w = true ↔ ∃ i j, Matches w p i j := by
  have hrange : ∀ i ∈ List.range (w.size + 1), i ≤ w.size :=
    fun i hi => Nat.le_of_lt_succ (List.mem_range.1 hi)
  have hmem := mem_ends p hrange
  rw [occursIn, Bool.not_eq_true', List.isEmpty_eq_false_iff_exists_mem]
  constructor
  · rintro ⟨j, hj⟩
    obtain ⟨i, -, h⟩ := (hmem j).1 hj
    exact ⟨i, j, h⟩
  · rintro ⟨i, j, h⟩
    have hi := Nat.le_trans h.le h.le_size
    exact ⟨j, (hmem j).2 ⟨i, List.mem_range.2 (Nat.lt_succ_of_le hi), h⟩⟩

end SpanTree.Pattern
