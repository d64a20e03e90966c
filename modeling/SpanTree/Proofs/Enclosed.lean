import SpanTree.Proofs.Remainder

/-!
# Reading in front of a parenthesis

What a reader of patterns makes of a text, and what it makes of the same text with a closing
parenthesis and anything else behind it, is compared by `Behind`: it reads the same and leaves what
is behind, or it goes on into what is behind. **It goes on only where the text alone is a fault.** A
comment that reaches the end of the text goes on into what is behind, and is such a fault: a reader
that skips it is left with nothing to read.

A reader that has gone on into what is behind leaves less than that, and so do all readers after it.
Therefore the two readings of a whole group agree as soon as the group ends where the text ends.

Some readers stop in front of the parenthesis although the text alone is a fault (`early`): they
need one more character to be sure. The reader after them then takes the parenthesis itself.
-/

namespace SpanTree.Pattern

variable {α β : Type} {cs u : List Char} {f : Flags}

/-- What is read of a text, and of the text with `t` behind it. -/
inductive Behind (t : List Char) (early : α → List Char → Prop) :
    Except String (Parsed α) → Except String (Parsed α) → Prop
  | same (a : α) (r : List Char) : Behind t early (.ok (a, r)) (.ok (a, r ++ t))
  | into {x y : Except String (Parsed α)} (hx : ∀ a, x ≠ .ok a)
      (hy : ∀ a r, y = .ok (a, r) → r.length < t.length) : Behind t early x y
  | early {x : Except String (Parsed α)} {a : α} {r : List Char} (hx : ∀ a, x ≠ .ok a)
      (h : early a r) : Behind t early x (.ok (a, r ++ t))

/-- No early end. -/
def never : α → List Char → Prop := fun _ _ => False

namespace Behind

variable {t : List Char} {early : α → List Char → Prop}
  {early' : β → List Char → Prop} {x y : Except String (Parsed α)}

theorem errors {e e' : String} : Behind t early (.error e) (.error e') :=
  .into (fun _ => error_ne_ok) fun _ _ h => absurd h error_ne_ok

/-- The end of the text is a fault, and the parenthesis is taken. -/
theorem taken {e : String} (hy : Leaves u y) : Behind (')' :: u) early (.error e) y :=
  .into (fun _ => error_ne_ok) fun a r h => Nat.lt_succ_of_le (hy a r h).length_le

theorem of_map (h : y = x.map fun p => (p.1, p.2 ++ t)) : Behind t early x y := by
  subst h
  cases x with
  | error => exact .errors
  | ok a => exact .same a.1 a.2

theorem imp (h : Behind t early x y) {early₂ : α → List Char → Prop}
    (himp : ∀ a r, early a r → early₂ a r) : Behind t early₂ x y := by
  cases h with
  | same a r => exact .same a r
  | into hx hy => exact .into hx hy
  | early hx h => exact .early hx (himp _ _ h)

theorem of_never (h : Behind t never x y) : Behind t early x y :=
  h.imp fun _ _ h => h.elim

theorem ite {c : Prop} [Decidable c] {x' y' : Except String (Parsed α)}
    (h : c → Behind t early x y) (h' : ¬ c → Behind t early x' y') :
    Behind t early (if c then x else x') (if c then y else y') := by
  split
  · exact h ‹_›
  · exact h' ‹_›

/-- A reader that goes on from there. -/
theorem bind {g : Parsed α → Except String (Parsed β)} (h : Behind t early x y)
    (hleaves : ∀ a r, Leaves r (g (a, r)))
    (hearly : ∀ a r, early a r → ∀ b r', g (a, r ++ t) = .ok (b, r') → r'.length < t.length)
    (hg : ∀ a r, x = .ok (a, r) → Behind t early' (g (a, r)) (g (a, r ++ t))) :
    Behind t early' (x >>= g) (y >>= g) := by
  have hfails : (∀ a, x ≠ .ok a) → ∀ b, x >>= g ≠ .ok b := by
    intro hx b hb
    obtain ⟨a, ha, -⟩ := bind_eq_ok hb
    exact hx a ha
  cases h with
  | same a r => exact hg a r rfl
  | into hx hy =>
    refine .into (hfails hx) fun b r hb => ?_
    obtain ⟨a, ha, hb⟩ := bind_eq_ok hb
    exact Nat.lt_of_le_of_lt (hleaves _ _ b r hb).length_le (hy _ _ ha)
  | early hx hr => exact .into (hfails hx) (hearly _ _ hr)

/-- A computation in between that reads nothing. -/
theorem bind_pure {z : Except String β} {g g' : β → Except String (Parsed α)}
    (h : ∀ b, Behind t early (g b) (g' b)) : Behind t early (z >>= g) (z >>= g') := by
  cases z with
  | error => exact .errors
  | ok b => exact h b

theorem map {v : α → β} (h : Behind t early x y) (hv : ∀ a r, early a r → early' (v a) r) :
    Behind t early' (x.map fun p => (v p.1, p.2)) (y.map fun p => (v p.1, p.2)) := by
  have hfails : (∀ a, x ≠ .ok a) → ∀ b, (x.map fun p => (v p.1, p.2)) ≠ .ok b := by
    intro hx b hb
    obtain ⟨a, ha, -⟩ := map_eq_ok hb
    exact hx a ha
  cases h with
  | same a r => exact .same (v a) r
  | into hx hy =>
    refine .into (hfails hx) fun b r hb => ?_
    obtain ⟨a, ha, hab⟩ := map_eq_ok hb
    cases hab
    exact hy _ _ ha
  | early hx hr => exact .early (hfails hx) (hv _ _ hr)

/-- The same value in front of the same text, or the same error. -/
theorem map_pure {z : Except String α} (r : List Char) :
    Behind t early (z.map (·, r)) (z.map (·, r ++ t)) := by
  cases z with
  | error => exact .errors
  | ok a => exact .same a r

end Behind

/-! ## The first character -/

theorem head?_append_paren {c : Char} (hc : c ≠ ')') :
    (cs ++ ')' :: u).head? = some c ↔ cs.head? = some c := by
  cases cs with
  | nil => simp [hc.symm]
  | cons => rfl

theorem cons_of_append_paren {c : Char} {ds : List Char} (hc : c ≠ ')')
    (h : cs ++ ')' :: u = c :: ds) : ∃ es, cs = c :: es :=
  List.head?_eq_some_iff.1 ((head?_append_paren hc).1 (congrArg List.head? h))

/-! ## Blanks and numbers -/

/-- What is behind is not skipped, unless a comment reaches the end of the text and goes
on into it. -/
theorem skipVerbose_append (inComment : Bool) (cs : List Char) :
    (∀ u, skipVerbose inComment (cs ++ ')' :: u) = skipVerbose inComment cs ++ ')' :: u) ∨
      skipVerbose inComment cs = [] ∧
        ∀ u, (skipVerbose inComment (cs ++ ')' :: u)).length < (')' :: u).length := by
  induction cs generalizing inComment with
  | nil =>
    cases inComment with
    | false => exact .inl fun _ => rfl
    | true => exact .inr ⟨rfl, fun u => Nat.lt_succ_of_le (skipVerbose_suffix true u).length_le⟩
  | cons c cs ih =>
    cases inComment with
    | true =>
      simp only [List.cons_append, skipVerbose]
      split
      · exact ih false
      · exact ih true
    | false =>
      simp only [List.cons_append, skipVerbose]
      split
      · exact ih false
      · split
        · exact ih true
        · exact .inl fun _ => rfl

theorem skip_append (f : Flags) (cs : List Char) :
    (∀ u, f.skip (cs ++ ')' :: u) = f.skip cs ++ ')' :: u) ∨
      f.skip cs = [] ∧ ∀ u, (f.skip (cs ++ ')' :: u)).length < (')' :: u).length := by
  unfold Flags.skip
  split
  · exact skipVerbose_append false cs
  · exact .inl fun _ => rfl

/-- A reader behind what may be skipped. -/
theorem Behind.skip {early : α → List Char → Prop} {g : List Char → Except String (Parsed α)}
    (hnil : ∀ a, g [] ≠ .ok a) (hleaves : ∀ ds, Leaves ds (g ds))
    (h : Behind (')' :: u) early (g (f.skip cs)) (g (f.skip cs ++ ')' :: u))) :
    Behind (')' :: u) early (g (f.skip cs)) (g (f.skip (cs ++ ')' :: u))) := by
  rcases skip_append f cs with heq | ⟨hskip, hshort⟩
  · rw [heq]
    exact h
  · rw [hskip]
    exact .into hnil fun a r ha => Nat.lt_of_le_of_lt (hleaves _ a r ha).length_le (hshort u)

theorem dropWhile_append_stop {p : Char → Bool} (hp : p ')' = false) (cs u : List Char) :
    (cs ++ ')' :: u).dropWhile p = cs.dropWhile p ++ ')' :: u := by
  rw [List.dropWhile_append]
  split
  · rename_i h
    rw [List.isEmpty_iff.1 h, List.dropWhile_cons_of_neg (by simp [hp])]
    rfl
  · rfl

theorem takeWhile_append_stop {p : Char → Bool} (hp : p ')' = false) (cs u : List Char) :
    (cs ++ ')' :: u).takeWhile p = cs.takeWhile p := by
  rw [List.takeWhile_append]
  split
  · rename_i h
    rw [List.takeWhile_cons_of_neg (by simp [hp]), List.append_nil]
    exact ((List.takeWhile_prefix p).eq_of_length h).symm
  · rfl

/-- A character that is searched is found in the text, or only behind it. -/
theorem dropWhile_append_search {p : Char → Bool} (hp : p ')' = true) (cs u : List Char) :
    (∃ c r, cs.dropWhile p = c :: r ∧ (cs ++ ')' :: u).dropWhile p = c :: (r ++ ')' :: u) ∧
        (cs ++ ')' :: u).takeWhile p = cs.takeWhile p) ∨
      cs.dropWhile p = [] ∧ (cs ++ ')' :: u).dropWhile p <:+ u ∧
        ')' ∈ (cs ++ ')' :: u).takeWhile p := by
  rw [List.dropWhile_append, List.takeWhile_append]
  cases hdrop : cs.dropWhile p with
  | nil =>
    have htake : cs.takeWhile p = cs := by
      have h := List.takeWhile_append_dropWhile (p := p) (l := cs)
      rwa [hdrop, List.append_nil] at h
    refine .inr ⟨rfl, ?_, ?_⟩
    · simpa [List.dropWhile_cons_of_pos hp] using List.dropWhile_suffix (l := u) p
    · simp [htake, List.takeWhile_cons_of_pos hp]
  | cons c r =>
    refine .inl ⟨c, r, rfl, rfl, ?_⟩
    rw [if_neg]
    intro hlen
    have h := List.takeWhile_append_dropWhile (p := p) (l := cs)
    have := congrArg List.length h
    rw [List.length_append, hdrop, List.length_cons] at this
    omega

theorem number_append (cs u : List Char) :
    number (cs ++ ')' :: u) = (number cs).map fun p => (p.1, p.2 ++ ')' :: u) := by
  unfold number
  dsimp only
  rw [dropWhile_append_stop (by decide), dropWhile_append_stop (by decide),
    dropWhile_append_stop (by decide), takeWhile_append_stop (by decide)]
  split
  · rfl
  · split <;> rfl

/-! ## Escapes -/

theorem hexEscape_cons {c : Char} (hc : c ≠ '\x7b') (width : Nat) (cs : List Char) :
    hexEscape width (c :: cs) =
      if ((c :: cs).take width).length < width then .error "incomplete hexadecimal escape"
      else
        match (hexDigits? ((c :: cs).take width)).bind codePoint? with
        | some a => .ok (if width = 2 then .byte a else .literal a, (c :: cs).drop width)
        | none => .error "invalid hexadecimal escape" := by
  unfold hexEscape
  split
  · rename_i hcs
    cases hcs
    exact absurd rfl hc
  · rfl

theorem hexEscape_nil {width : Nat} (hwidth : 0 < width) :
    hexEscape width [] = .error "incomplete hexadecimal escape" :=
  if_pos (by rwa [List.take_nil])

theorem behind_hexEscape {width : Nat} (hwidth : 0 < width) (cs : List Char) :
    Behind (')' :: u) never (hexEscape width cs) (hexEscape width (cs ++ ')' :: u)) := by
  obtain ⟨width, rfl⟩ := Nat.exists_eq_add_one_of_ne_zero (by omega : width ≠ 0)
  cases cs with
  | nil =>
    refine .taken ?_
    rw [List.nil_append, hexEscape_cons (by decide)]
    refine .ite (fun _ => .error) fun _ => ?_
    split
    · exact .ok (show (')' :: u).drop (width + 1) <:+ u from List.drop_suffix width u)
    · exact .error
  | cons c cs =>
    by_cases hc : c = '\x7b'
    · subst hc
      simp only [List.cons_append, hexEscape]
      rcases dropWhile_append_search (p := (· != '\x7d')) rfl cs u with
        ⟨c, r, hdrop, hdrop', htake⟩ | ⟨hdrop, hbehind, -⟩
      · rw [hdrop, hdrop', htake]
        refine .ite (fun _ => .errors) fun _ => ?_
        split
        · exact .same _ _
        · exact .errors
      · rw [hdrop]
        refine .taken ?_
        split
        · exact .error
        · rename_i hrest
          have hrest := tail_suffix (hrest ▸ hbehind)
          refine .ite (fun _ => .error) fun _ => ?_
          split
          · exact .ok hrest
          · exact .error
    · rw [List.cons_append, hexEscape_cons hc, hexEscape_cons hc]
      by_cases hlen : (c :: cs).length < width + 1
      · rw [if_pos (by rw [List.length_take]; omega)]
        refine .into (fun _ => error_ne_ok) fun a r h => ?_
        split at h
        · cases h
        · split at h
          · cases h
            simp only [List.length_drop, List.length_cons, List.length_append] at hlen ⊢
            omega
          · cases h
      · have hle : width + 1 ≤ (c :: cs).length := by omega
        rw [← List.cons_append, List.take_append_of_le_length hle,
          List.drop_append_of_le_length hle]
        refine .ite (fun _ => .errors) fun _ => ?_
        split
        · exact .same _ _
        · exact .errors

theorem behind_propertyEscape (f : Flags) (negated : Bool) (cs : List Char) :
    Behind (')' :: u) never (propertyEscape f negated cs)
      (propertyEscape f negated (cs ++ ')' :: u)) := by
  cases cs with
  | nil => exact .taken (leaves_propertyEscape_cons (by decide) f negated u)
  | cons c cs =>
    have hfinish : ∀ (a? : Option CharClass) (rest : List Char), Behind (')' :: u) never
        (propertyClass f negated a? rest) (propertyClass f negated a? (rest ++ ')' :: u)) := by
      intro a? rest
      unfold propertyClass
      split
      · exact .errors
      · exact .ite (fun _ => .same _ _) fun _ => .errors
    by_cases hc : c = '\x7b'
    · subst hc
      rw [List.cons_append, propertyEscape_brace, propertyEscape_brace]
      rcases dropWhile_append_search (p := (· != '\x7d')) rfl cs u with
        ⟨c, r, hdrop, hdrop', htake⟩ | ⟨hdrop, hbehind, -⟩
      · rw [hdrop, hdrop', htake]
        exact hfinish _ _
      · rw [hdrop]
        refine .taken ?_
        split
        · exact .error
        · rename_i hrest
          exact (leaves_propertyClass _ _ _ _).mono (tail_suffix (hrest ▸ hbehind))
    · rw [List.cons_append, propertyEscape_cons hc, propertyEscape_cons hc]
      exact .ite (fun _ => .errors) fun _ => hfinish _ _

/-- A single brace is left, of which the text alone does not say what it begins. -/
def atBrace : α → List Char → Prop := fun _ r => r = ['\x7b']

theorem behind_lookEnd (name cs : List Char) :
    Behind (')' :: u) atBrace (lookEnd name cs) (lookEnd name (cs ++ ')' :: u)) := by
  cases cs with
  | nil => exact .errors
  | cons c cs =>
    by_cases hc : c = '\x7d'
    · subst hc
      show Behind _ _ (lookNamed name cs) (lookNamed name (cs ++ ')' :: u))
      unfold lookNamed
      split <;> first | exact .same _ _ | exact .errors
    · have hopen : ∀ cs, lookEnd name (c :: cs) = .error "unclosed word boundary" := by
        intro cs
        rw [lookEnd]
        rintro _ ⟨⟩
        exact hc rfl
      rw [List.cons_append, hopen, hopen]
      exact .errors

theorem behind_braceLook (cs : List Char) :
    Behind (')' :: u) atBrace (braceLook cs) (braceLook (cs ++ ')' :: u)) := by
  cases cs with
  | nil => exact .same Look.wordBoundary []
  | cons c cs =>
    by_cases hc : c = '\x7b'
    · subst hc
      cases cs with
      | nil => exact .early (fun _ => error_ne_ok) rfl
      | cons c cs =>
        simp only [List.cons_append, braceLook_brace]
        refine .ite (fun _ => ?_) fun _ => .same Look.wordBoundary ('\x7b' :: c :: cs)
        rw [← List.cons_append, dropWhile_append_stop (by decide),
          takeWhile_append_stop (by decide)]
        exact behind_lookEnd _ _
    · rw [List.cons_append, braceLook_cons hc, braceLook_cons hc]
      exact .same Look.wordBoundary (c :: cs)

/-- An escape ends early only as a word boundary. -/
def lookAtBrace : Atom → List Char → Prop := fun a r => (∃ l, a = .look l) ∧ r = ['\x7b']

theorem behind_escape (f : Flags) (cs : List Char) :
    Behind (')' :: u) lookAtBrace (escape f cs) (escape f (cs ++ ')' :: u)) := by
  cases cs with
  | nil => exact .taken (leaves_escape f ')' u)
  | cons c cs =>
    have hhex : ∀ width, 0 < width → Behind (')' :: u) lookAtBrace
        (hexEscape width (f.skip cs)) (hexEscape width (f.skip (cs ++ ')' :: u))) := by
      intro width hwidth
      refine .skip (fun a h => ?_) (leaves_hexEscape width) (behind_hexEscape hwidth _).of_never
      rw [hexEscape_nil hwidth] at h
      cases h
    have hproperty : ∀ negated, Behind (')' :: u) lookAtBrace
        (propertyEscape f negated (f.skip cs))
        (propertyEscape f negated (f.skip (cs ++ ')' :: u))) :=
      fun negated => .skip (g := propertyEscape f negated) (fun _ => error_ne_ok)
        (leaves_propertyEscape f negated) (behind_propertyEscape f negated _).of_never
    rw [List.cons_append, escape, escape]
    repeat' refine .ite (fun _ => ?_) fun _ => ?_
    all_goals first
      | exact .same _ _
      | exact .errors
      | exact hhex _ (by decide)
      | exact hproperty _
      | exact .map (behind_braceLook cs) fun l r h => ⟨⟨l, rfl⟩, h⟩

end SpanTree.Pattern
