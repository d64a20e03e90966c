import SpanTree.Proofs.EnclosedClass
import SpanTree.Proofs.GroupRemainder

/-!
# Bodies in front of a parenthesis

The body of a group is compared with the same body with a parenthesis and more behind it
(`behind_body`), and a whole text with the body of a group in which it stands (`encloses_body`). **A
text in a group is read as it is read alone, if the group ends with it.** Otherwise the group ends
sooner, at a parenthesis of the text, or not with the text, and then the text alone is a fault; or
the text has left a comment open, which takes the parenthesis. Whether it has is told by the text
with the parenthesis behind it, which is no pattern unless the parenthesis is part of a comment.

Both are one induction, on a relation between what is read of a text, of the text with a parenthesis
behind it, and of the longer one.
-/

namespace SpanTree.Pattern

variable {α β : Type} {cs u : List Char} {f : Flags}

/-! ## Repetitions and elements -/

theorem behind_closeCount (b : Bounds) (cs : List Char) :
    Behind (')' :: u) never (closeCount b cs) (closeCount b (cs ++ ')' :: u)) := by
  cases cs with
  | nil => exact .errors
  | cons c cs =>
    by_cases hc : c = '\x7d'
    · subst hc
      exact .same _ _
    · have hopen : ∀ cs, closeCount b (c :: cs) = .error "unclosed repetition" := by
        intro cs
        rw [closeCount]
        rintro _ ⟨⟩
        exact hc rfl
      rw [List.cons_append, hopen, hopen]
      exact .errors

theorem behind_number (cs : List Char) :
    Behind (')' :: u) never (number cs) (number (cs ++ ')' :: u)) :=
  .of_map (number_append cs u)

theorem behind_countMost (f : Flags) (least : Nat) (cs : List Char) :
    Behind (')' :: u) never (countMost f least cs) (countMost f least (cs ++ ')' :: u)) := by
  have hnumber : ∀ cs, (∀ ds, cs ≠ '\x7d' :: ds) → countMost f least cs = number cs >>= fun x =>
      closeCount (least, some (x.1 - least)) (f.skip x.2) >>= fun y =>
        if least ≤ x.1 then pure (y.1, y.2) else .error "invalid repetition" := by
    intro cs hcs
    unfold countMost
    split
    · exact absurd rfl (hcs _)
    · rfl
  by_cases hbrace : ∃ ds, cs = '\x7d' :: ds
  · obtain ⟨ds, rfl⟩ := hbrace
    exact .same _ _
  · have hbrace' : ∀ ds, cs ++ ')' :: u ≠ '\x7d' :: ds :=
      fun ds hds => hbrace (cons_of_append_paren (by decide) hds)
    rw [hnumber cs fun ds hds => hbrace ⟨ds, hds⟩, hnumber _ hbrace']
    refine (behind_number cs).bind (fun most r => ?_) (fun _ _ h => h.elim) fun most r _ => ?_
    · refine .bind ((leaves_closeCount _ _).mono (skip_suffix f r)) fun b rest _ hrest => ?_
      exact .ite (fun _ => .ok hrest) fun _ => .error
    · have hclose : Behind (')' :: u) never
          (closeCount (least, some (most - least)) (f.skip r))
          (closeCount (least, some (most - least)) (f.skip (r ++ ')' :: u))) :=
        .skip (fun _ => error_ne_ok) (leaves_closeCount _) (behind_closeCount _ _)
      refine hclose.bind (fun b r => ?_) (fun _ _ h => h.elim) fun b r _ => ?_
      · exact .ite (fun _ => .ok List.suffix_rfl) fun _ => .error
      · exact .ite (fun _ => .same _ _) fun _ => .errors

theorem behind_countLeast (f : Flags) (least : Nat) (cs : List Char) :
    Behind (')' :: u) never (countLeast f least cs) (countLeast f least (cs ++ ')' :: u)) := by
  have hclose : ∀ c cs, c ≠ ',' → countLeast f least (c :: cs) =
      closeCount (least, some 0) (c :: cs) := by
    intro c cs hc
    rw [countLeast]
    rintro _ ⟨⟩
    exact hc rfl
  cases cs with
  | nil => exact .errors
  | cons c cs =>
    by_cases hc : c = ','
    · subst hc
      exact .skip (g := countMost f least) (fun _ => error_ne_ok) (leaves_countMost f least)
        (behind_countMost f least _)
    · rw [List.cons_append, hclose c _ hc, hclose c _ hc]
      exact behind_closeCount _ (c :: cs)

theorem behind_counted (f : Flags) (cs : List Char) :
    Behind (')' :: u) never (counted f cs) (counted f (cs ++ ')' :: u)) := by
  rw [counted_eq, counted_eq]
  refine .skip (g := countFrom f) (fun _ => error_ne_ok) (leaves_countFrom f) ?_
  generalize f.skip cs = cs
  cases cs with
  | nil => exact .errors
  | cons c cs =>
    refine (behind_number (c :: cs)).bind (fun least r => ?_) (fun _ _ h => h.elim)
      fun least r _ => ?_
    · exact (leaves_countLeast f least _).mono (skip_suffix f r)
    · exact .skip (g := countLeast f least) (fun _ => error_ne_ok) (leaves_countLeast f least)
        (behind_countLeast f least _)

theorem lazyMark_append (cs u : List Char) :
    lazyMark (cs ++ ')' :: u) = lazyMark cs ++ ')' :: u := by
  cases cs with
  | nil => rfl
  | cons c cs =>
    by_cases hc : c = '?'
    · subst hc
      rfl
    · have hplain : ∀ cs, lazyMark (c :: cs) = c :: cs := by
        intro cs
        rw [lazyMark]
        rintro _ ⟨⟩
        exact hc rfl
      rw [List.cons_append, hplain, hplain]
      rfl

theorem behind_atom (f : Flags) (c : Char) (cs : List Char) :
    Behind (')' :: u) atBrace (atom f c cs) (atom f c (cs ++ ')' :: u)) := by
  refine .ite (fun _ => ?_) fun _ => .ite (fun _ => .map_pure cs) fun _ =>
    .ite (fun _ => .same _ _) fun _ => .ite (fun _ => .same _ _) fun _ => .same _ _
  have hlook : ∀ x y : Except String (Parsed Atom), Behind (')' :: u) lookAtBrace x y →
      Behind (')' :: u) atBrace (x >>= fun x => (x.1.pattern f).map (·, x.2))
        (y >>= fun x => (x.1.pattern f).map (·, x.2)) := by
    intro x y h
    cases h with
    | same a r => exact .map_pure r
    | into hx hy =>
      refine .into (fun b hb => ?_) fun b r hb => ?_
      · obtain ⟨a, ha, -⟩ := bind_eq_ok hb
        exact hx a ha
      · obtain ⟨a, ha, hb⟩ := bind_eq_ok hb
        obtain ⟨_, -, hb⟩ := map_eq_ok hb
        cases hb
        exact hy _ _ ha
    | early hx hr =>
      obtain ⟨⟨l, rfl⟩, rfl⟩ := hr
      refine .early (r := ['\x7b']) (a := Pattern.look l) (fun b hb => ?_) rfl
      obtain ⟨a, ha, -⟩ := bind_eq_ok hb
      exact hx a ha
  exact hlook _ _ (behind_escape f cs)

/-! ## The beginnings of groups -/

theorem behind_groupName (s : Scope) (cs : List Char) :
    Behind (')' :: u) never (groupName s cs) (groupName s (cs ++ ')' :: u)) := by
  unfold groupName
  dsimp only
  rcases dropWhile_append_search (p := (· != '>')) rfl cs u with
    ⟨c, r, hdrop, hdrop', htake⟩ | ⟨hdrop, hbehind, -⟩
  · rw [hdrop, hdrop', htake]
    cases cs.takeWhile (· != '>') with
    | nil => exact .errors
    | cons d ds =>
      exact .ite (fun _ => .errors) fun _ => .ite (fun _ => .errors) fun _ => .same _ _
  · rw [hdrop]
    refine .taken ?_
    split
    · exact .error
    · exact .error
    · rename_i hrest
      have hrest := tail_suffix (hrest ▸ hbehind)
      exact .ite (fun _ => .error) fun _ => .ite (fun _ => .error) fun _ => .ok hrest

theorem behind_flagLetters (f : Flags) (seen : List Char) (on : Bool) (cs : List Char) :
    Behind (')' :: u) atEnd (flagLetters f seen on cs)
      (flagLetters f seen on (cs ++ ')' :: u)) := by
  induction cs generalizing f seen on with
  | nil =>
    rw [List.nil_append, flagLetters, flagLetters, if_pos (.inr rfl)]
    split
    · exact .errors
    · exact .early (r := []) (fun _ => error_ne_ok) rfl
  | cons c cs ih =>
    rw [List.cons_append, flagLetters, flagLetters]
    refine .ite (fun _ => .ite (fun _ => .errors) fun _ => .same _ (c :: cs)) fun _ =>
      .ite (fun _ => .errors) fun _ => .ite (fun _ => ih _ _ _) fun _ => ?_
    split
    · exact ih _ _ _
    · exact .errors

theorem behind_flagged (s : Scope) (cs : List Char) :
    Behind (')' :: u) never (flagged s cs) (flagged s (cs ++ ')' :: u)) := by
  rw [flagged_eq, flagged_eq]
  refine (behind_flagLetters _ _ _ cs).bind (fun a r => leaves_flagsEnd s _ _ r) ?_ fun a r h => ?_
  · rintro a _ rfl b r h
    change (if a.2.isEmpty then Except.error "empty flags" else .ok (Opening.setFlags a.1, u)) =
      _ at h
    split at h <;> cases h
    exact Nat.lt_succ_self _
  · obtain ⟨c, r, rfl⟩ := List.exists_cons_of_ne_nil (flagLetters_ends h)
    by_cases hc : c = ')'
    · subst hc
      exact .ite (fun _ => .errors) fun _ => .same _ _
    · have hcolon : ∀ cs, flagsEnd s a.1 a.2 (c :: cs) =
          .ok (.group { s with flags := a.1 }, cs) := by
        intro cs
        rw [flagsEnd]
        · rfl
        · rintro _ ⟨⟩
          exact hc rfl
      dsimp only [List.cons_append]
      rw [hcolon, hcolon]
      exact .same _ _

theorem behind_openingFrom (s : Scope) (cs : List Char) :
    Behind (')' :: u) never (openingFrom s cs) (openingFrom s (cs ++ ')' :: u)) := by
  have hname : ∀ cs, Behind (')' :: u) never
      ((groupName s cs).map fun p => (Opening.group p.1, p.2))
      ((groupName s (cs ++ ')' :: u)).map fun p => (Opening.group p.1, p.2)) :=
    fun cs => .map (v := Opening.group) (behind_groupName s cs) fun _ _ h => h
  cases cs with
  | nil => exact .same (Opening.group s) []
  | cons c cs =>
    by_cases hc : c = '?'
    · subst hc
      cases cs with
      | nil => exact behind_flagged s []
      | cons c cs =>
        by_cases hangle : c = '<'
        · subst hangle
          by_cases hlook : ∃ ds, cs = '=' :: ds ∨ cs = '!' :: ds
          · obtain ⟨ds, rfl | rfl⟩ := hlook <;> exact .errors
          · have h : ∀ ds, cs ≠ '=' :: ds ∧ cs ≠ '!' :: ds :=
              fun ds => ⟨fun h => hlook ⟨ds, .inl h⟩, fun h => hlook ⟨ds, .inr h⟩⟩
            have h' : ∀ ds, cs ++ ')' :: u ≠ '=' :: ds ∧ cs ++ ')' :: u ≠ '!' :: ds := by
              refine fun ds => ⟨fun hds => ?_, fun hds => ?_⟩
              · obtain ⟨es, hes⟩ := cons_of_append_paren (by decide) hds
                exact (h es).1 hes
              · obtain ⟨es, hes⟩ := cons_of_append_paren (by decide) hds
                exact (h es).2 hes
            simp only [List.cons_append]
            rw [openingFrom_name h, openingFrom_name h']
            exact hname cs
        · by_cases hlook : c = '=' ∨ c = '!'
          · obtain rfl | rfl := hlook <;> exact .errors
          · by_cases hp : c = 'P' ∧ ∃ ds, cs = '<' :: ds
            · obtain ⟨rfl, ds, rfl⟩ := hp
              exact hname ds
            · have hflags : c ≠ '=' ∧ c ≠ '!' ∧ c ≠ '<' :=
                ⟨fun h => hlook (.inl h), fun h => hlook (.inr h), hangle⟩
              have h : c = 'P' → ∀ ds, cs ≠ '<' :: ds := fun hc ds h => hp ⟨hc, ds, h⟩
              have h' : c = 'P' → ∀ ds, cs ++ ')' :: u ≠ '<' :: ds := by
                intro hc ds hds
                obtain ⟨es, hes⟩ := cons_of_append_paren (by decide) hds
                exact h hc es hes
              simp only [List.cons_append]
              rw [openingFrom_flags hflags h, openingFrom_flags hflags h']
              exact behind_flagged s (c :: cs)
    · rw [List.cons_append, openingFrom_plain hc, openingFrom_plain hc]
      exact .same _ (c :: cs)

/-! ## Bodies -/

section Bodies

variable {n depth depth' : Nat} {s : Scope} {before : Branches} {es : List Element}
  {early early' : α → List Char → Prop}

/-- What is read of a body. -/
abbrev Outcome := Except String (Parsed (Branches × Scope))

/-- A group is open at the end of the text. -/
theorem body_nil (a : Parsed (Branches × Scope)) : body n (depth + 1) s before es [] ≠ .ok a := by
  rintro h
  have hends := (body_ends (z := a.1) (r := a.2) h).length_le
  rw [List.length_cons, List.length_nil] at hends
  omega

/-- A brace repeats nothing if there is no number behind it. -/
theorem body_brace {z : Branches × Scope} {r : List Char} :
    body n depth s before es ('\x7b' :: ')' :: u) ≠ .ok (z, r) := by
  intro h
  cases n with
  | zero => cases h
  | succ n =>
    have hbrace : ∀ f : Flags, f.skip ('\x7b' :: ')' :: u) = '\x7b' :: ')' :: u := by
      intro f
      unfold Flags.skip
      split <;> rfl
    have hparen : ∀ f : Flags, f.skip (')' :: u) = ')' :: u := by
      intro f
      unfold Flags.skip
      split <;> rfl
    have hcounted : counted s.flags (')' :: u) = .error "repetition count expected" := by
      rw [counted_eq, hparen]
      rfl
    rw [body_succ, hbrace, bodyFrom_element (by decide), elementFrom, repetition?_brace,
      hcounted] at h
    dsimp only at h
    split at h <;> cases h

theorem openedFrom_ends {a : Opening} {r r' : List Char} {z : Branches × Scope}
    (h : openedFrom n (depth + 1) s before es (a, r) = .ok (z, r')) : r'.length < r.length := by
  cases a with
  | setFlags f => exact (body_ends h).length_le
  | group inner =>
    obtain ⟨q, hq, h⟩ := bind_eq_ok h
    have hinner := (body_ends hq).length_le
    have houter := (body_ends h).length_le
    simp only [List.length_cons] at hinner houter
    omega

section Related

/-! Three readings are compared: of a text alone, of the text with a parenthesis behind it, and of
the text in a group, with anything behind the parenthesis. `R` is what is to be said of them. It
holds wherever the text alone is a fault and the group is not ended with it (`hinto`), where a
comment is open at the end of the text (`hopen`), and of what is still to be read (`hbody`). -/

variable {R : Outcome → Outcome → Outcome → Prop}

/-- Readers behind what may be skipped. If that is a comment that reaches the end of the text, then
the text is ended, with a parenthesis behind it or without. -/
theorem related_skip (g g' : List Char → Outcome) (f : Flags) (cs : List Char)
    (hopen : ∀ {y}, (∀ z r, y = .ok (z, r) → r.length < u.length) → R (g []) (g []) y)
    (hends : ∀ ds z r, g' ds = .ok (z, r) → r.length < ds.length)
    (h : R (g (f.skip cs)) (g (f.skip cs ++ [')'])) (g' (f.skip cs ++ ')' :: u))) :
    R (g (f.skip cs)) (g (f.skip (cs ++ [')']))) (g' (f.skip (cs ++ ')' :: u))) := by
  rcases skip_append f cs with heq | ⟨hskip, hshort⟩
  · rw [heq, heq]
    exact h
  · have hparen : f.skip (cs ++ [')']) = [] := List.length_eq_zero_iff.1 (by simpa using hshort [])
    rw [hskip, hparen]
    refine hopen fun z r h => ?_
    have hlt := hends _ z r h
    have hle := hshort u
    rw [List.length_cons] at hle
    omega

variable (hinto : ∀ {x x' y}, (∀ a, x ≠ .ok a) →
    (∀ z r, y = .ok (z, r) → r.length < u.length) → R x x' y)

include hinto

theorem related_bind {x x' y : Except String (Parsed α)} (h' : Behind [')'] early' x x')
    (h : Behind (')' :: u) early x y) {g g' : Parsed α → Outcome}
    (hends : ∀ a r z r', g' (a, r) = .ok (z, r') → r'.length < r.length)
    (hearly : ∀ a r, early a r → ∀ z r', g' (a, r ++ ')' :: u) ≠ .ok (z, r'))
    (hg : ∀ a r, R (g (a, r)) (g (a, r ++ [')'])) (g' (a, r ++ ')' :: u))) :
    R (x >>= g) (x' >>= g) (y >>= g') := by
  have hfails : (∀ a, x ≠ .ok a) → ∀ b, x >>= g ≠ .ok b := by
    intro hx b hb
    obtain ⟨a, ha, -⟩ := bind_eq_ok hb
    exact hx a ha
  cases h with
  | same a r =>
    cases h' with
    | same => exact hg a r
    | into hx => exact absurd rfl (hx _)
    | early hx => exact absurd rfl (hx _)
  | into hx hy =>
    refine hinto (hfails hx) fun z r h => ?_
    obtain ⟨a, ha, h⟩ := bind_eq_ok h
    have hlt := hends _ _ z r h
    have hle := hy _ _ ha
    rw [List.length_cons] at hle
    omega
  | early hx hr => exact hinto (hfails hx) fun z r h => absurd h (hearly _ _ hr z r)

variable (hopen : ∀ s before es {y}, (∀ z r, y = .ok (z, r) → r.length < u.length) →
    R (body n depth s before es []) (body n depth s before es []) y)
  (hbody : ∀ s before es cs, R (body n depth s before es cs)
    (body n depth s before es (cs ++ [')'])) (body n (depth' + 1) s before es (cs ++ ')' :: u)))

include hopen hbody

/-- An element of a body, or a repetition of the one before. -/
theorem related_elementFrom (c : Char) (cs : List Char) :
    R (elementFrom n depth s before es c cs) (elementFrom n depth s before es c (cs ++ [')']))
      (elementFrom n (depth' + 1) s before es c (cs ++ ')' :: u)) := by
  have hends : ∀ {s before es cs z r}, body n (depth' + 1) s before es cs = .ok (z, r) →
      r.length < cs.length := fun h => (body_ends h).length_le
  have herrors : ∀ e : String, R (.error e) (.error e) (.error e) :=
    fun e => hinto (fun _ => error_ne_ok) fun _ _ h => absurd h error_ne_ok
  have hatom : R (atom s.flags c cs >>= fun x => body n depth s before (.pattern x.1 :: es) x.2)
      (atom s.flags c (cs ++ [')']) >>= fun x => body n depth s before (.pattern x.1 :: es) x.2)
      (atom s.flags c (cs ++ ')' :: u) >>= fun x =>
        body n (depth' + 1) s before (.pattern x.1 :: es) x.2) := by
    refine related_bind (R := R) hinto (behind_atom s.flags c cs) (behind_atom s.flags c cs)
      (fun _ _ _ _ h => hends h) ?_ fun p r => hbody _ _ _ r
    rintro p _ rfl z r'
    exact body_brace
  by_cases hc : c = '\x7b'
  · subst hc
    rcases es with _ | ⟨_ | p, es⟩
    · exact herrors _
    · exact herrors _
    · simp only [elementFrom_brace]
      refine related_bind (R := R) hinto (behind_counted s.flags cs) (behind_counted s.flags cs) ?_
        (fun _ _ h => h.elim) fun b r => ?_
      · intro b r z r' h
        have hle := ((lazyMark_suffix _).trans (skip_suffix s.flags r)).length_le
        have hlt := hends h
        dsimp only at hlt
        omega
      · refine related_skip (R := R) (fun ds => body n depth s before _ (lazyMark ds))
          (fun ds => body n (depth' + 1) s before _ (lazyMark ds)) s.flags r
          (hopen s before _) ?_ ?_
        · intro ds z r h
          exact Nat.lt_of_lt_of_le (hends h) (lazyMark_suffix ds).length_le
        · simp only [lazyMark_append]
          exact hbody _ _ _ _
  · simp only [elementFrom, repetition?_sign hc]
    cases signBounds? c with
    | none => exact hatom
    | some b =>
      dsimp only [Option.map_some]
      split
      · simp only [lazyMark_append]
        exact hbody _ _ _ _
      · exact herrors _

/-- One step into a body keeps what it keeps from there on, if it holds where the body ends and what
is read of groups inside is compared by `Behind`. -/
theorem related_bodyFrom
    (hend : ∀ s before es, R (bodyFrom n depth s before es [])
      (bodyFrom n depth s before es [')']) (bodyFrom n (depth' + 1) s before es (')' :: u)))
    (hclose : ∀ s before es cs, R (bodyFrom n depth s before es (')' :: cs))
      (bodyFrom n depth s before es (')' :: (cs ++ [')'])))
      (bodyFrom n (depth' + 1) s before es (')' :: (cs ++ ')' :: u))))
    (hgroup : ∀ s cs v d, Behind (')' :: v) never (body n (depth + 1) s [] [] cs)
      (body n (d + 1) s [] [] (cs ++ ')' :: v)))
    (cs : List Char) :
    R (bodyFrom n depth s before es cs) (bodyFrom n depth s before es (cs ++ [')']))
      (bodyFrom n (depth' + 1) s before es (cs ++ ')' :: u)) := by
  have hends : ∀ {s before es cs z r}, body n (depth' + 1) s before es cs = .ok (z, r) →
      r.length < cs.length := fun h => (body_ends h).length_le
  cases cs with
  | nil => exact hend s before es
  | cons c cs =>
    by_cases hc : c = '(' ∨ c = ')' ∨ c = '|' ∨ c = '['
    · obtain rfl | rfl | rfl | rfl := hc
      · refine related_skip (R := R) (fun ds => openingFrom s ds >>= openedFrom n depth s before es)
          (fun ds => openingFrom s ds >>= openedFrom n (depth' + 1) s before es)
          s.flags cs (hinto ?_) ?_ ?_
        · intro a h
          change openedFrom n depth s before es (.group s, []) = .ok a at h
          rw [openedFrom] at h
          obtain ⟨inner, hinner, -⟩ := bind_eq_ok h
          exact body_nil inner hinner
        · intro ds z r h
          obtain ⟨a, ha, h⟩ := bind_eq_ok h
          have hle := (leaves_openingFrom s ds _ _ ha).length_le
          have hlt := openedFrom_ends h
          omega
        · refine related_bind (R := R) hinto (behind_openingFrom s _) (behind_openingFrom s _)
            (fun _ _ _ _ h => openedFrom_ends h) (fun _ _ h => h.elim) ?_
          rintro (f | inner) r
          · exact hbody _ _ _ r
          · exact related_bind (R := R) hinto (hgroup inner r [] depth)
              (hgroup inner r u (depth' + 1)) (fun _ _ _ _ h => hends h) (fun _ _ h => h.elim)
              fun q r' => hbody _ _ _ r'
      · exact hclose s before es cs
      · exact hbody _ _ _ cs
      · exact related_bind (R := R) hinto (behind_bracketed s.flags cs)
          (behind_bracketed s.flags cs) (fun _ _ _ _ h => hends h) (fun _ _ h => h.elim)
          fun p r => hbody _ _ _ r
    · have hc : c ≠ '(' ∧ c ≠ ')' ∧ c ≠ '|' ∧ c ≠ '[' :=
        ⟨fun h => hc (.inl h), fun h => hc (.inr (.inl h)), fun h => hc (.inr (.inr (.inl h))),
          fun h => hc (.inr (.inr (.inr h)))⟩
      simp only [List.cons_append]
      rw [bodyFrom_element hc, bodyFrom_element hc, bodyFrom_element hc]
      exact related_elementFrom (R := R) hinto hopen hbody c cs

end Related

theorem behind_body (n depth d : Nat) (s : Scope) (before : Branches) (es : List Element)
    (cs u : List Char) :
    Behind (')' :: u) never (body n (depth + 1) s before es cs)
      (body n (d + 1) s before es (cs ++ ')' :: u)) := by
  induction n generalizing depth d s before es cs u with
  | zero => exact .errors
  | succ n ih =>
    have hinto : ∀ {x y : Outcome}, (∀ a, x ≠ .ok a) →
        (∀ z r, y = .ok (z, r) → r.length < u.length) → Behind (')' :: u) never x y :=
      fun hx hy => .into hx fun z r h => Nat.lt_succ_of_lt (hy z r h)
    refine related_skip (R := fun x _ y => Behind (')' :: u) never x y)
      (bodyFrom n (depth + 1) s before es) (bodyFrom n (d + 1) s before es) s.flags cs
      (hinto fun _ => error_ne_ok) (fun ds z r h => (bodyFrom_ends body_ends h).length_le) ?_
    refine related_bodyFrom (R := fun x _ y => Behind (')' :: u) never x y) hinto
      (fun s before es {y} => hinto body_nil) ?_ ?_ ?_ ?_ (s.flags.skip cs)
    · exact fun s before es cs => ih depth d s before es cs u
    · exact fun s before es => .taken (.ok List.suffix_rfl)
    · exact fun s before es cs => .same _ _
    · exact fun s cs v d => ih (depth + 1) d s [] [] cs v

/-- What is read of a text alone, of the text with a parenthesis behind it, and of the text as the
body of a group: the group ends behind the text; or a comment that the text has left open takes the
parenthesis; or the group ends sooner, or not with the text. -/
inductive Encloses (u : List Char) : Outcome → Outcome → Outcome → Prop
  | whole {x' : Outcome} (z : Branches × Scope) (hx' : ∀ a, x' ≠ .ok a) :
      Encloses u (.ok (z, [])) x' (.ok (z, u))
  | comment {y : Outcome} (z : Branches × Scope)
      (hy : ∀ z r, y = .ok (z, r) → r.length < u.length) :
      Encloses u (.ok (z, [])) (.ok (z, [])) y
  | sooner {x x' : Outcome} {z : Branches × Scope} {r : List Char} (hx : ∀ a, x ≠ .ok a) :
      Encloses u x x' (.ok (z, r ++ ')' :: u))
  | into {x x' y : Outcome} (hx : ∀ a, x ≠ .ok a)
      (hy : ∀ z r, y = .ok (z, r) → r.length < u.length) : Encloses u x x' y

/-- **A text stands in a group as it stands alone, or the group ends elsewhere.** -/
theorem encloses_body (n : Nat) (s : Scope) (before : Branches) (es : List Element)
    (cs u : List Char) :
    Encloses u (body n 0 s before es cs) (body n 0 s before es (cs ++ [')']))
      (body n 1 s before es (cs ++ ')' :: u)) := by
  have herrors : ∀ {e e' e'' : String}, Encloses u (.error e) (.error e') (.error e'') :=
    .into (fun _ => error_ne_ok) fun _ _ h => absurd h error_ne_ok
  induction n generalizing s before es cs with
  | zero => exact herrors
  | succ n ih =>
    refine related_skip (R := Encloses u) (bodyFrom n 0 s before es) (bodyFrom n 1 s before es)
      s.flags cs (.comment _)
      (fun ds z r h => (bodyFrom_ends body_ends h).length_le) ?_
    refine related_bodyFrom (R := Encloses u) .into ?_ ?_ ?_ ?_ ?_ (s.flags.skip cs)
    · intro s before es y hy
      cases n with
      | zero => exact .into (fun _ => error_ne_ok) hy
      | succ n =>
        have hskip : ∀ f : Flags, f.skip [] = [] := fun f => List.suffix_nil.1 (skip_suffix f [])
        rw [body_succ, hskip]
        exact .comment _ hy
    · exact fun s before es cs => ih s before es cs
    · exact fun s before es => .whole _ fun _ => error_ne_ok
    · exact fun s before es cs => .sooner fun _ => error_ne_ok
    · exact fun s cs v d => behind_body n 0 d s [] [] cs v

end Bodies

end SpanTree.Pattern
