import SpanTree.Proofs.EnclosedGroup
import SpanTree.Proofs.Matching
import SpanTree.Proofs.Meaning

/-!
# The meaning of what is read

The reader of patterns gives texts a meaning, which the standard engine follows
(`standard_follows`). **This meaning is the usual one** (`usual_meaning`).

What stands in front of the first branch of a body stays there, whatever the rest of the body is
(`body_atFront`); so an anchor or a group in front of a text is the first element of its first
alternative. How the inside of a group is read, and where the group ends, is told by the comparison
of a text in a group with the same text alone.
-/

namespace SpanTree.Pattern

/-! ## The meaning of branches -/

def sense (p : Pattern) : Sense := fun w i j => Matches w.toArray p i j

/-- Flags are elements that mean nothing. -/
def Element.sense? : Element → Option Sense
  | flags => none
  | pattern p => some p.sense

def senses (es : List Element) : List Sense := (es.filterMap Element.sense?).reverse

def reading (bs : Branches) : Reading := (bs.map senses).reverse

variable {w : List Char} {i j k : Nat} {p q : Pattern} {e : Element} {es : List Element}
  {bs before : Branches}

theorem chain_append {ss ss' : List Sense} :
    Reading.Chain w (ss ++ ss') i j ↔ ∃ k, Reading.Chain w ss i k ∧ Reading.Chain w ss' k j := by
  induction ss generalizing i with
  | nil => simp [Reading.Chain]
  | cons s ss ih =>
    simp only [List.cons_append, Reading.Chain, ih]
    constructor
    · rintro ⟨k, hs, m, hss, hss'⟩
      exact ⟨m, ⟨k, hs, hss⟩, hss'⟩
    · rintro ⟨m, ⟨k, hs, hss⟩, hss'⟩
      exact ⟨k, hs, m, hss, hss'⟩

/-- Elements are put together from the last one to the first. -/
theorem matches_sequence_from : Matches w.toArray (es.foldl (fun q e =>
      match e with
      | .flags => q
      | .pattern p => if q = .empty then p else .seq p q) q) i j ↔
    ∃ k, Reading.Chain w (senses es) i k ∧ Matches w.toArray q k j := by
  induction es generalizing q j with
  | nil => simp [senses, Reading.Chain]
  | cons e es ih =>
    rw [List.foldl_cons, ih]
    cases e with
    | flags => rfl
    | pattern p =>
      have hsenses : senses (.pattern p :: es) = senses es ++ [p.sense] := by
        simp [senses, Element.sense?]
      have hstep : ∀ k, Matches w.toArray (if q = .empty then p else .seq p q) k j ↔
          ∃ m, Matches w.toArray p k m ∧ Matches w.toArray q m j := by
        intro k
        split
        · rename_i hq
          subst hq
          constructor
          · intro h
            exact ⟨j, h, .empty j h.le_size⟩
          · rintro ⟨m, h, hempty⟩
            cases hempty
            exact h
        · exact matches_seq
      simp only [hsenses, chain_append, hstep, Reading.Chain, sense]
      constructor
      · rintro ⟨k, hes, m, hp, hq⟩
        exact ⟨m, ⟨k, hes, m, hp, rfl⟩, hq⟩
      · rintro ⟨_, ⟨k, hes, m, hp, rfl⟩, hq⟩
        exact ⟨k, hes, m, hp, hq⟩

theorem matches_sequence : Matches w.toArray (sequence es) i j ↔
    i ≤ j ∧ j ≤ w.length ∧ Reading.Chain w (senses es) i j := by
  have h := @matches_sequence_from w i j .empty es
  constructor
  · intro hmatch
    obtain ⟨k, hchain, hempty⟩ := h.1 hmatch
    cases hempty
    exact ⟨hmatch.le, hmatch.le_size, hchain⟩
  · rintro ⟨-, hj, hchain⟩
    exact h.2 ⟨j, hchain, .empty j hj⟩

theorem matches_choice :
    Matches w.toArray (choice bs) i j ↔ ∃ es ∈ bs, Matches w.toArray (sequence es) i j := by
  induction bs with
  | nil =>
    simp only [choice, List.not_mem_nil, false_and, exists_false, iff_false]
    intro h
    cases h with
    | char _ hc => cases hc
  | cons es before ih =>
    rw [choice]
    split
    · rename_i hnil
      simp [List.isEmpty_iff.1 hnil]
    · simp [matches_alt, ih, or_comm]

/-- A group means as an element what it means as a pattern. -/
theorem sense_choice (bs : Branches) : (choice bs).sense = (reading bs).Matches := by
  funext w i j
  simp only [sense, matches_choice, matches_sequence, Reading.Matches, reading, eq_iff_iff,
    List.mem_reverse, List.mem_map]
  constructor
  · rintro ⟨es, hes, hij, hj, hchain⟩
    exact ⟨hij, hj, _, ⟨es, hes, rfl⟩, hchain⟩
  · rintro ⟨hij, hj, _, ⟨es, hes, rfl⟩, hchain⟩
    exact ⟨es, hes, hij, hj, hchain⟩

theorem sense_textStart : (look .textStart).sense = .atStart := by
  funext w i j
  rw [eq_iff_iff]
  constructor
  · intro h
    cases h with
    | look _ hi => exact ⟨of_decide_eq_true hi, of_decide_eq_true hi⟩
  · rintro ⟨rfl, rfl⟩
    exact .look (Nat.zero_le _) rfl

theorem sense_textEnd : (look .textEnd).sense = .atEnd := by
  funext w i j
  rw [eq_iff_iff]
  constructor
  · intro h
    cases h with
    | look _ hi => exact ⟨of_decide_eq_true hi, of_decide_eq_true hi⟩
  · rintro ⟨rfl, rfl⟩
    exact .look (Nat.le_refl _) (decide_eq_true rfl)

/-! ## An element in front -/

/-- One more element at the front of the first branch. -/
def atFront (e : Element) : Branches → Branches
  | [] => []
  | [es] => [es ++ [e]]
  | es :: es' :: before => es :: atFront e (es' :: before)

theorem atFront_cons (h : before ≠ []) :
    atFront e (es :: before) = es :: atFront e before := by
  cases before with
  | nil => exact absurd rfl h
  | cons => rfl

theorem before_append {s : Sense} {r r' : Reading} (h : r ≠ []) :
    Reading.before s (r ++ r') = Reading.before s r ++ r' := by
  cases r with
  | nil => exact absurd rfl h
  | cons => rfl

theorem reading_atFront : reading (atFront (.pattern p) bs) = .before p.sense (reading bs) := by
  fun_induction atFront (.pattern p) bs with
  | case1 => rfl
  | case2 es => simp [reading, senses, Element.sense?, Reading.before]
  | case3 es es' before ih =>
    have hcons : ∀ bs, reading (es :: bs) = reading bs ++ [senses es] := by
      intro bs
      simp [reading]
    rw [hcons, hcons, ih, before_append]
    simp [reading]

section Context

variable {n depth : Nat} {s : Scope} {cs : List Char}

/-- The outcome of a body with one more element in front. -/
def withFront (e : Element) (x : Parsed (Branches × Scope)) : Parsed (Branches × Scope) :=
  ((atFront e x.1.1, x.1.2), x.2)

theorem body_atFront (h : before ≠ []) : body n depth s (atFront e before) es cs =
    withFront e <$> body n depth s before es cs := by
  induction n generalizing depth s before es cs with
  | zero => rfl
  | succ n ih =>
    rw [body_succ, body_succ]
    unfold bodyFrom
    split
    · split
      · rw [← atFront_cons h]
        rfl
      · rfl
    · rw [map_bind]
      refine bind_congr fun ⟨opened, rest⟩ => ?_
      cases opened with
      | setFlags f => exact ih h
      | group inner =>
        rw [openedFrom, openedFrom, map_bind]
        exact bind_congr fun inner => ih h
    · split
      · rfl
      · rw [← atFront_cons h]
        rfl
    · rw [← atFront_cons h]
      exact ih (List.cons_ne_nil _ _)
    · rw [map_bind]
      exact bind_congr fun cls => ih h
    · unfold elementFrom
      split
      · split
        · rw [map_bind]
          exact bind_congr fun bounds => ih h
        · rfl
      · rw [map_bind]
        exact bind_congr fun p => ih h

theorem operator_of_repetition? {f : Flags} {c : Char} {x : Except String (Parsed Bounds)}
    (h : repetition? f c cs = some x) : c ∈ ['*', '+', '?', '\x7b'] := by
  unfold repetition? at h
  split at h
  all_goals first
    | decide
    | cases h

/-- In the first branch itself an operator at its beginning would repeat the element. -/
theorem body_atFront_first (h : es ≠ [] ∨ ¬ BeginsWithOperator (s.flags.skip cs)) :
    body n depth s [] (es ++ [e]) cs = withFront e <$> body n depth s [] es cs := by
  induction n generalizing depth s es cs with
  | zero => rfl
  | succ n ih =>
    have hnext : ∀ {depth s e' es} {r : List Char}, body n depth s [] (e' :: (es ++ [e])) r =
        withFront e <$> body n depth s [] (e' :: es) r :=
      fun {_ _ _ _ _} => ih (.inl (List.cons_ne_nil _ _))
    rw [body_succ, body_succ]
    generalize s.flags.skip cs = cs at h
    unfold bodyFrom
    split
    · split <;> rfl
    · rw [map_bind]
      refine bind_congr fun ⟨opened, rest⟩ => ?_
      cases opened with
      | setFlags f => exact hnext
      | group inner =>
        rw [openedFrom, openedFrom, map_bind]
        exact bind_congr fun inner => hnext
    · split <;> rfl
    · exact body_atFront (List.cons_ne_nil es [])
    · rw [map_bind]
      exact bind_congr fun cls => hnext
    · unfold elementFrom
      split
      · rename_i hrepeat
        rcases es with _ | ⟨_ | p, es⟩
        · have hplain := h.resolve_left fun h => h rfl
          exact absurd ⟨_, operator_of_repetition? hrepeat, rfl⟩ hplain
        · rfl
        · simp only [List.cons_append, map_bind]
          exact bind_congr fun bounds => hnext
      · rw [map_bind]
        exact bind_congr fun p => hnext

end Context

/-! ## Names of groups -/

section Names

variable {n depth : Nat} {f : Flags} {used fewer : List String} {cs r : List Char} {s : Scope}

theorem groupName_fewer (hsub : fewer ⊆ used) (h : groupName ⟨f, used⟩ cs = .ok (s, r)) :
    s.flags = f ∧ ∃ fewer', groupName ⟨f, fewer⟩ cs = .ok (⟨f, fewer'⟩, r) ∧ fewer' ⊆ s.names := by
  unfold groupName at h ⊢
  dsimp only at h ⊢
  split at h
  · cases h
  · cases h
  · rename_i c name _ _ _ _
    split at h
    · cases h
    · rename_i hvalid
      split at h
      · cases h
      · rename_i hnew
        cases h
        have hnew' : ¬ fewer.contains (String.ofList (c :: name)) = true := fun hmem =>
          hnew (List.contains_iff_mem.2 (hsub (List.contains_iff_mem.1 hmem)))
        rw [if_neg hvalid, if_neg hnew']
        exact ⟨rfl, _, rfl, List.cons_subset_cons _ hsub⟩

/-- The same beginning of a group, or the same flags, with fewer names used so far. -/
inductive Opening.Fewer : Opening → Opening → Prop
  | setFlags (g : Flags) : Fewer (.setFlags g) (.setFlags g)
  | group (g : Flags) {used fewer : List String} (hsub : fewer ⊆ used) :
      Fewer (.group ⟨g, fewer⟩) (.group ⟨g, used⟩)

theorem flagged_fewer (hsub : fewer ⊆ used) {o : Opening}
    (h : flagged ⟨f, used⟩ cs = .ok (o, r)) :
    ∃ o', flagged ⟨f, fewer⟩ cs = .ok (o', r) ∧ o'.Fewer o := by
  rw [flagged_eq] at h ⊢
  obtain ⟨⟨⟨g, seen⟩, rest⟩, hletters, h⟩ := bind_eq_ok h
  rw [hletters]
  change flagsEnd ⟨f, used⟩ g seen rest = _ at h
  change ∃ o', flagsEnd ⟨f, fewer⟩ g seen rest = _ ∧ _
  unfold flagsEnd at h ⊢
  split at h
  · split at h
    · cases h
    · rename_i hseen
      cases h
      exact ⟨_, if_neg hseen, .setFlags g⟩
  · cases h
    exact ⟨_, rfl, .group g hsub⟩

theorem opening_fewer (hsub : fewer ⊆ used) {o : Opening}
    (h : opening ⟨f, used⟩ cs = .ok (o, r)) :
    ∃ o', opening ⟨f, fewer⟩ cs = .ok (o', r) ∧ o'.Fewer o := by
  have hname : ∀ {cs},
      (groupName ⟨f, used⟩ cs).map (fun p => (Opening.group p.1, p.2)) = .ok (o, r) →
      ∃ o', (groupName ⟨f, fewer⟩ cs).map (fun p => (Opening.group p.1, p.2)) = .ok (o', r) ∧
        o'.Fewer o := by
    intro cs h
    obtain ⟨⟨s, rest⟩, hs, h⟩ := map_eq_ok h
    cases h
    obtain ⟨rfl, fewer', hfewer, hsub'⟩ := groupName_fewer hsub hs
    exact ⟨.group ⟨s.flags, fewer'⟩, by rw [hfewer]; rfl, .group s.flags hsub'⟩
  revert h
  rw [opening_eq, opening_eq]
  dsimp only
  unfold openingFrom
  split <;> intro h
  · cases h
  · cases h
  · cases h
  · cases h
  · exact hname h
  · exact hname h
  · exact flagged_fewer hsub h
  · cases h
    exact ⟨_, rfl, .group f hsub⟩

/-- A body that is read is read the same where fewer names are used up. -/
theorem body_fewer (hsub : fewer ⊆ used)
    (h : body n depth ⟨f, used⟩ before es cs = .ok ((bs, s), r)) :
    ∃ s', body n depth ⟨f, fewer⟩ before es cs = .ok ((bs, s'), r) ∧ s'.names ⊆ s.names := by
  induction n generalizing depth f used fewer before es cs bs s r with
  | zero => cases h
  | succ n ih =>
    revert h
    rw [body_succ, body_succ]
    dsimp only
    unfold bodyFrom
    split
    · split
      · intro h
        cases h
        exact ⟨_, rfl, hsub⟩
      · rintro ⟨⟩
    · intro h
      obtain ⟨⟨o, rest⟩, hopen, h⟩ := bind_eq_ok h
      obtain ⟨o', hopen', hfewer⟩ := opening_fewer hsub hopen
      rw [hopen']
      cases hfewer with
      | setFlags g => exact ih hsub h
      | @group g used' fewer' hsub' =>
        obtain ⟨⟨⟨bs', inner⟩, rest'⟩, hinner, h⟩ := bind_eq_ok h
        obtain ⟨inner', hinner', hsub'⟩ := ih hsub' hinner
        obtain ⟨s', hs', hsub''⟩ := ih hsub' h
        refine ⟨s', ?_, hsub''⟩
        change openedFrom n depth ⟨f, fewer⟩ before es (.group ⟨g, fewer'⟩, rest) = _
        rw [openedFrom, hinner']
        exact hs'
    · split
      · rintro ⟨⟩
      · intro h
        cases h
        exact ⟨_, rfl, hsub⟩
    · exact ih hsub
    · intro h
      obtain ⟨cls, hcls, h⟩ := bind_eq_ok h
      rw [hcls]
      exact ih hsub h
    · unfold elementFrom
      dsimp only
      split
      · split
        · intro h
          obtain ⟨bounds, hbounds, h⟩ := bind_eq_ok h
          rw [hbounds]
          exact ih hsub h
        · rintro ⟨⟩
      · intro h
        obtain ⟨p, hp, h⟩ := bind_eq_ok h
        rw [hp]
        exact ih hsub h

end Names

/-! ## The meaning of texts -/

def meaning : Meaning where
  pattern? cs := (body (cs.length + 1) 0 ⟨{}, []⟩ [] [] cs).toOption.map fun x => reading x.1.1
  group? cs := (body (cs.length + 1) 1 ⟨{}, []⟩ [] [] cs).toOption.map fun x => (reading x.1.1, x.2)

section Texts

variable {n : Nat} {cs rest : List Char} {m : Reading}

theorem pattern?_eq_some_iff (hn : cs.length < n) : meaning.pattern? cs = some m ↔
    ∃ x, body n 0 ⟨{}, []⟩ [] [] cs = .ok x ∧ reading x.1.1 = m := by
  rw [body_steps hn (Nat.lt_succ_self _)]
  simp only [meaning]
  generalize body (cs.length + 1) 0 ⟨{}, []⟩ [] [] cs = x
  cases x <;> simp [Except.toOption]

theorem pattern?_eq_none_iff (hn : cs.length < n) : meaning.pattern? cs = none ↔
    ∀ x, body n 0 ⟨{}, []⟩ [] [] cs ≠ .ok x := by
  rw [Option.eq_none_iff_forall_ne_some]
  constructor
  · exact fun h x hx => h _ ((pattern?_eq_some_iff hn).2 ⟨x, hx, rfl⟩)
  · rintro h m hm
    obtain ⟨x, hx, -⟩ := (pattern?_eq_some_iff hn).1 hm
    exact h x hx

theorem group?_eq_some_iff (hn : cs.length < n) : meaning.group? cs = some (m, rest) ↔
    ∃ bs s, body n 1 ⟨{}, []⟩ [] [] cs = .ok ((bs, s), rest) ∧ reading bs = m := by
  rw [body_steps hn (Nat.lt_succ_self _)]
  simp only [meaning]
  generalize body (cs.length + 1) 1 ⟨{}, []⟩ [] [] cs = x
  rcases x with _ | ⟨⟨bs, s⟩, r⟩
  · simp [Except.toOption]
  · simp [Except.toOption, and_comm]

theorem body_caret (n : Nat) (cs : List Char) : body (n + 1) 0 ⟨{}, []⟩ [] [] ('^' :: cs) =
    body n 0 ⟨{}, []⟩ [] ([] ++ [.pattern (.look .textStart)]) cs := rfl

theorem body_group (n : Nat) (cs : List Char) :
    body (n + 1) 0 ⟨{}, []⟩ [] [] ('(' :: '?' :: ':' :: cs) =
      body n 1 ⟨{}, []⟩ [] [] cs >>= fun x =>
        body n 0 ⟨{}, x.1.2.names⟩ [] ([] ++ [.pattern (choice x.1.1)]) x.2 := rfl

/-- No blanks are skipped at the beginning of a text. -/
theorem body_behind {names : List String} (hcs : ¬ BeginsWithOperator cs) (e : Element) :
    body n 0 ⟨{}, names⟩ [] ([] ++ [e]) cs = withFront e <$> body n 0 ⟨{}, names⟩ [] [] cs :=
  body_atFront_first (.inr (show ¬ BeginsWithOperator (Flags.skip {} cs) from hcs))

/-- An element in front of a text that is read by itself. -/
theorem pattern?_of_front {p : Pattern} {names : List String} {x : Parsed (Branches × Scope)}
    (hn : cs.length < n) (hcs : ¬ BeginsWithOperator cs)
    (h : body n 0 ⟨{}, names⟩ [] ([] ++ [.pattern p]) cs = .ok x) :
    ∃ r, meaning.pattern? cs = some r ∧ reading x.1.1 = .before p.sense r := by
  rw [body_behind hcs] at h
  obtain ⟨⟨⟨bs, s⟩, r⟩, hbody, rfl⟩ := map_eq_ok h
  obtain ⟨s', hbody', -⟩ := body_fewer (List.nil_subset names) hbody
  exact ⟨_, (pattern?_eq_some_iff hn).2 ⟨_, hbody', rfl⟩, reading_atFront⟩

/-- A text in a group and the same text alone: the text stays what it is, or a comment is open at
its end, or it is no pattern. Only a text that stays what it is leaves what is behind its
parenthesis. -/
theorem group?_cases (cs u : List Char) :
    (∃ m, meaning.pattern? cs = some m ∧ meaning.pattern? (cs ++ [')']) = none ∧
        meaning.group? (cs ++ ')' :: u) = some (m, u)) ∨
      (meaning.pattern? (cs ++ [')']) = meaning.pattern? cs ∧
        ∀ m rest, meaning.group? (cs ++ ')' :: u) = some (m, rest) → rest.length < u.length) ∨
      (meaning.pattern? cs = none ∧
        ∀ m rest, meaning.group? (cs ++ ')' :: u) = some (m, rest) → rest.length ≠ u.length) := by
  obtain ⟨n, hn⟩ : ∃ n, (cs ++ ')' :: u).length < n := ⟨_, Nat.lt_succ_self _⟩
  have hcs : cs.length < n := by
    rw [List.length_append] at hn
    omega
  have hparen : (cs ++ [')']).length < n := by
    simp only [List.length_append, List.length_cons, List.length_nil] at hn ⊢
    omega
  have henc := encloses_body n ⟨{}, []⟩ [] [] cs u
  have hsome := @pattern?_eq_some_iff n cs
  simp only [pattern?_eq_none_iff hcs, pattern?_eq_none_iff hparen, group?_eq_some_iff hn,
    hsome hcs]
  generalize hx : body n 0 ⟨{}, []⟩ [] [] cs = x at henc
  generalize hx' : body n 0 ⟨{}, []⟩ [] [] (cs ++ [')']) = x' at henc
  generalize body n 1 ⟨{}, []⟩ [] [] (cs ++ ')' :: u) = y at henc
  cases henc with
  | whole z hx' => exact .inl ⟨reading z.1, ⟨_, rfl, rfl⟩, hx', z.1, z.2, rfl, rfl⟩
  | comment z hy =>
    refine .inr (.inl ⟨?_, ?_⟩)
    · rw [(pattern?_eq_some_iff hparen).2 ⟨_, hx', rfl⟩, (pattern?_eq_some_iff hcs).2 ⟨_, hx, rfl⟩]
    · rintro m rest ⟨bs, s, h, -⟩
      exact hy _ _ h
  | sooner hnone =>
    refine .inr (.inr ⟨hnone, ?_⟩)
    rintro m rest ⟨bs, s, h, -⟩
    cases h
    simp only [List.length_append, List.length_cons]
    omega
  | into hnone hy =>
    refine .inr (.inr ⟨hnone, ?_⟩)
    rintro m rest ⟨bs, s, h, -⟩
    exact Nat.ne_of_lt (hy _ _ h)

theorem group?_inside (h : meaning.group? cs = some (m, rest)) :
    ∃ p, cs = p ++ ')' :: rest ∧ meaning.pattern? p = some m := by
  obtain ⟨bs, s, hgroup, -⟩ := (group?_eq_some_iff (Nat.lt_succ_self _)).1 h
  obtain ⟨p, rfl⟩ := body_ends hgroup
  refine ⟨p, rfl, ?_⟩
  rcases group?_cases p rest with ⟨m', hm', -, hgroup⟩ | ⟨-, hless⟩ | ⟨-, hother⟩
  · rw [h] at hgroup
    cases hgroup
    exact hm'
  · exact absurd (hless _ _ h) (Nat.lt_irrefl _)
  · exact absurd rfl (hother _ _ h)

theorem pattern?_caret (hcs : ¬ BeginsWithOperator cs) :
    meaning.pattern? ('^' :: cs) = (meaning.pattern? cs).map (.before .atStart) := by
  have hn : ('^' :: cs).length < cs.length + 1 + 1 := Nat.lt_succ_self _
  ext r
  rw [Option.map_eq_some_iff, pattern?_eq_some_iff hn, body_caret]
  constructor
  · rintro ⟨x, hx, rfl⟩
    obtain ⟨r, hr, hreading⟩ := pattern?_of_front (Nat.lt_succ_self _) hcs hx
    exact ⟨r, hr, by rw [hreading, sense_textStart]⟩
  · rintro ⟨r, hr, rfl⟩
    obtain ⟨x, hx, rfl⟩ := (pattern?_eq_some_iff (Nat.lt_succ_self _)).1 hr
    refine ⟨withFront (.pattern (.look .textStart)) x, ?_, ?_⟩
    · rw [body_behind hcs, hx]
      rfl
    · rw [withFront, reading_atFront, sense_textStart]

theorem group?_of_front {r : Reading} (h : meaning.pattern? ('(' :: '?' :: ':' :: cs) = some r) :
    ∃ m rest, meaning.group? cs = some (m, rest) ∧
      (¬ BeginsWithOperator rest →
        ∃ r', meaning.pattern? rest = some r' ∧ r = .before m.Matches r') := by
  have hn : ('(' :: '?' :: ':' :: cs).length < cs.length + 3 + 1 := Nat.lt_succ_self _
  rw [pattern?_eq_some_iff hn, body_group] at h
  obtain ⟨x, hx, rfl⟩ := h
  obtain ⟨⟨⟨bs, s⟩, rest⟩, hgroup, hrest⟩ := bind_eq_ok hx
  refine ⟨reading bs, rest, (group?_eq_some_iff (by omega)).2 ⟨bs, s, hgroup, rfl⟩, fun hop => ?_⟩
  have hle := (body_ends hgroup).length_le
  rw [List.length_cons] at hle
  rw [← sense_choice]
  exact pattern?_of_front (by omega) hop hrest

theorem pattern?_dollar (h : meaning.group? cs = some (m, ['$'])) :
    meaning.pattern? ('(' :: '?' :: ':' :: cs) = some [[m.Matches, .atEnd]] := by
  have hn : ('(' :: '?' :: ':' :: cs).length < cs.length + 3 + 1 := Nat.lt_succ_self _
  obtain ⟨bs, s, hgroup, rfl⟩ := (group?_eq_some_iff (by omega : cs.length < cs.length + 3)).1 h
  rw [pattern?_eq_some_iff hn, body_group, hgroup, ← sense_choice, ← sense_textEnd]
  exact ⟨_, rfl, rfl⟩

theorem group?_closed {p : List Char} (h : meaning.pattern? p = some m)
    (hparen : meaning.pattern? (p ++ [')']) = none) :
    meaning.group? (p ++ ')' :: rest) = some (m, rest) := by
  rcases group?_cases p rest with ⟨m', hm', -, hgroup⟩ | ⟨hsame, -⟩ | ⟨hnone, -⟩
  · rw [h] at hm'
    cases hm'
    exact hgroup
  · rw [hparen, h] at hsame
    cases hsame
  · rw [h] at hnone
    cases hnone

theorem group?_comment {p : List Char} {m' : Reading} (h : meaning.pattern? p = some m)
    (hparen : meaning.pattern? (p ++ [')']) = some m') :
    meaning.group? (p ++ ')' :: ['$']) = none := by
  rcases group?_cases p ['$'] with ⟨_, -, hnone, -⟩ | ⟨-, hless⟩ | ⟨hnone, -⟩
  · rw [hparen] at hnone
    cases hnone
  · -- The group would end with the dollar, which is no parenthesis.
    refine Option.eq_none_iff_forall_ne_some.2 fun ⟨m, rest⟩ hgroup => ?_
    obtain rfl := List.eq_nil_of_length_eq_zero (Nat.lt_one_iff.1 (hless _ _ hgroup))
    obtain ⟨q, hq, -⟩ := group?_inside hgroup
    have hlast := congrArg List.getLast? hq
    simp at hlast
  · rw [h] at hnone
    cases hnone

end Texts

/-- **What is read has its usual meaning.** -/
theorem usual_meaning : meaning.Usual where
  caret := pattern?_caret
  group := group?_of_front
  dollar := pattern?_dollar
  inside := group?_inside
  closed := group?_closed
  comment := group?_comment

/-- **The standard engine follows what is read.** -/
theorem standard_follows : PatternEngine.standard.Follows meaning := by
  intro cs p h
  obtain ⟨x, hx, rfl⟩ := map_eq_ok (h : (body (cs.length + 1) 0 ⟨{}, []⟩ [] [] cs).map _ = .ok p)
  refine ⟨_, (pattern?_eq_some_iff (Nat.lt_succ_self _)).2 ⟨x, hx, rfl⟩, fun w => ?_⟩
  rw [← sense_choice]
  exact occursIn_iff _ _

end SpanTree.Pattern
