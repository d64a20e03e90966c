import SpanTree.Proofs.Remainder

/-!
# What the readers of groups leave

Repetitions, the beginnings of groups and bodies leave an end of their text as well; a body inside a
group ends behind its parenthesis. So bodies get shorter with every step, too (`body_steps`).
-/

namespace SpanTree.Pattern

variable {cs : List Char} {f : Flags}

/-! ## Elements and repetitions -/

theorem leaves_atom (f : Flags) (c : Char) (cs : List Char) : Leaves cs (atom f c cs) := by
  refine .ite (fun _ => ?_) fun _ => .ite (fun _ => .map fun _ _ => List.suffix_rfl) fun _ =>
    .ite (fun _ => .ok List.suffix_rfl) fun _ => .ite (fun _ => .ok List.suffix_rfl) fun _ =>
      .ok List.suffix_rfl
  · cases cs with
    | nil => exact .error
    | cons c cs =>
      exact .bind ((leaves_escape f c cs).mono (List.suffix_cons _ _)) fun a rest _ hrest =>
        .bind_pure fun _ => .ok hrest

/-- The brace behind the numbers of a repetition. -/
def closeCount (b : Bounds) : List Char → Except String (Parsed Bounds)
  | '\x7d' :: rest => .ok (b, rest)
  | _ => .error "unclosed repetition"

theorem leaves_closeCount (b : Bounds) (cs : List Char) : Leaves cs (closeCount b cs) := by
  unfold closeCount
  split
  · exact .ok (List.suffix_cons _ _)
  · exact .error

/-- The greatest number of a repetition behind the comma, if there is one. -/
def countMost (f : Flags) (least : Nat) (cs : List Char) : Except String (Parsed Bounds) :=
  match cs with
  | '\x7d' :: rest => .ok ((least, none), rest)
  | cs => do
    let (most, rest) ← number cs
    let (b, rest) ← closeCount (least, some (most - least)) (f.skip rest)
    if least ≤ most then return (b, rest) else .error "invalid repetition"

theorem leaves_countMost (f : Flags) (least : Nat) (cs : List Char) :
    Leaves cs (countMost f least cs) := by
  unfold countMost
  split
  · exact .ok (List.suffix_cons _ _)
  · refine .bind (leaves_number cs) fun most rest _ hrest => ?_
    refine .bind ((leaves_closeCount _ _).mono ((skip_suffix f rest).trans hrest))
      fun b rest _ hrest => ?_
    exact .ite (fun _ => .ok hrest) fun _ => .error

/-- What comes behind the least number of a repetition. -/
def countLeast (f : Flags) (least : Nat) (cs : List Char) : Except String (Parsed Bounds) :=
  match cs with
  | ',' :: rest => countMost f least (f.skip rest)
  | rest => closeCount (least, some 0) rest

theorem leaves_countLeast (f : Flags) (least : Nat) (cs : List Char) :
    Leaves cs (countLeast f least cs) := by
  unfold countLeast
  split
  · exact (leaves_countMost f least _).mono ((skip_suffix f _).trans (List.suffix_cons _ _))
  · exact leaves_closeCount _ _

/-- Without a number there is no repetition, so the end of the text needs no case of its own. -/
def countFrom (f : Flags) (cs : List Char) : Except String (Parsed Bounds) :=
  match cs with
  | [] => .error "unclosed repetition"
  | cs => number cs >>= fun x => countLeast f x.1 (f.skip x.2)

theorem leaves_countFrom (f : Flags) (cs : List Char) : Leaves cs (countFrom f cs) := by
  unfold countFrom
  split
  · exact .error
  · exact .bind (leaves_number cs) fun least rest _ hrest =>
      (leaves_countLeast f least _).mono ((skip_suffix f rest).trans hrest)

theorem counted_eq (f : Flags) (cs : List Char) : counted f cs = countFrom f (f.skip cs) := rfl

theorem leaves_counted (f : Flags) (cs : List Char) : Leaves cs (counted f cs) := by
  rw [counted_eq]
  exact (leaves_countFrom f _).mono (skip_suffix f cs)

/-- The mark behind a repetition that makes it take little is passed over. -/
def lazyMark : List Char → List Char
  | '?' :: rest => rest
  | rest => rest

theorem lazyMark_suffix (cs : List Char) : lazyMark cs <:+ cs := by
  unfold lazyMark
  split
  · exact List.suffix_cons _ _
  · exact List.suffix_rfl

theorem repetition?_brace (f : Flags) (cs : List Char) :
    repetition? f '\x7b' cs =
      some ((counted f cs).map fun p => (p.1, lazyMark (f.skip p.2))) := rfl

/-- The bounds of the operators that are a single character. -/
def signBounds? : Char → Option Bounds
  | '*' => some (0, none)
  | '+' => some (1, none)
  | '?' => some (0, some 1)
  | _ => none

theorem repetition?_sign {c : Char} (hc : c ≠ '\x7b') (f : Flags) (cs : List Char) :
    repetition? f c cs = (signBounds? c).map fun b => .ok (b, lazyMark cs) := by
  unfold signBounds?
  split
  · rfl
  · rfl
  · rfl
  · unfold repetition?
    extract_lets lazyMark
    split <;> first | rfl | contradiction

theorem leaves_repetition? {c : Char} {x : Except String (Parsed Bounds)}
    (h : repetition? f c cs = some x) : Leaves cs x := by
  by_cases hc : c = '\x7b'
  · subst hc
    rw [repetition?_brace] at h
    cases h
    exact .map fun a ha =>
      (lazyMark_suffix _).trans ((skip_suffix f _).trans (leaves_counted f cs _ _ ha))
  · rw [repetition?_sign hc] at h
    obtain ⟨b, -, rfl⟩ := Option.map_eq_some_iff.1 h
    exact .ok (lazyMark_suffix cs)

/-! ## Groups -/

theorem leaves_groupName (s : Scope) (cs : List Char) : Leaves cs (groupName s cs) := by
  unfold groupName
  dsimp only
  split
  · exact .error
  · exact .error
  · rename_i hrest
    have hbehind := tail_suffix (hrest ▸ List.dropWhile_suffix _)
    exact .ite (fun _ => .error) fun _ => .ite (fun _ => .error) fun _ => .ok hbehind

theorem leaves_flagLetters (f : Flags) (seen : List Char) (on : Bool) (cs : List Char) :
    Leaves cs (flagLetters f seen on cs) := by
  induction cs generalizing f seen on with
  | nil => exact .error
  | cons c cs ih =>
    rw [flagLetters]
    refine .ite (fun _ => .ite (fun _ => .error) fun _ => .ok List.suffix_rfl) fun _ =>
      .ite (fun _ => .error) fun _ => .ite (fun _ => ?_) fun _ => ?_
    · exact (ih _ _ _).mono (List.suffix_cons _ _)
    · split
      · exact (ih _ _ _).mono (List.suffix_cons _ _)
      · exact .error

/-- Flag letters stop in front of a character that ends them. -/
theorem flagLetters_ends {s : List Char} {on : Bool} {a : Flags × List Char} {r : List Char}
    (h : flagLetters f s on cs = .ok (a, r)) : r ≠ [] := by
  induction cs generalizing f s on with
  | nil => cases h
  | cons c cs ih =>
    rw [flagLetters] at h
    split at h
    · split at h <;> cases h
      exact List.cons_ne_nil _ _
    · split at h
      · cases h
      · split at h
        · exact ih h
        · split at h
          · exact ih h
          · cases h

/-- Flags of a group in front of a colon, or of the rest of a group in front of a parenthesis. -/
def flagsEnd (s : Scope) (f : Flags) (seen rest : List Char) : Except String (Parsed Opening) :=
  match rest with
  | ')' :: rest => if seen.isEmpty then .error "empty flags" else .ok (.setFlags f, rest)
  | _ => .ok (.group { s with flags := f }, rest.drop 1)

theorem leaves_flagsEnd (s : Scope) (f : Flags) (seen cs : List Char) :
    Leaves cs (flagsEnd s f seen cs) := by
  unfold flagsEnd
  split
  · exact .ite (fun _ => .error) fun _ => .ok (List.suffix_cons _ _)
  · exact .ok (List.drop_suffix _ _)

/-- What follows the question mark of a group without a name. -/
def flagged (s : Scope) (cs : List Char) : Except String (Parsed Opening) :=
  match flagLetters s.flags [] true cs with
  | .error e => .error e
  | .ok ((f, seen), rest) => flagsEnd s f seen rest

theorem flagged_eq (s : Scope) (cs : List Char) :
    flagged s cs = flagLetters s.flags [] true cs >>= fun x => flagsEnd s x.1.1 x.1.2 x.2 := by
  unfold flagged
  cases flagLetters s.flags [] true cs <;> rfl

theorem leaves_flagged (s : Scope) (cs : List Char) : Leaves cs (flagged s cs) := by
  rw [flagged_eq]
  exact .bind (leaves_flagLetters _ _ _ cs) fun _ _ _ hrest => (leaves_flagsEnd s _ _ _).mono hrest

/-- What follows an opening parenthesis and what may be skipped. -/
def openingFrom (s : Scope) (cs : List Char) : Except String (Parsed Opening) :=
  match cs with
  | '?' :: '=' :: _ | '?' :: '!' :: _ | '?' :: '<' :: '=' :: _ | '?' :: '<' :: '!' :: _ =>
    .error "look-around is not supported"
  | '?' :: 'P' :: '<' :: cs | '?' :: '<' :: cs =>
    (groupName s cs).map fun (s, rest) => (.group s, rest)
  | '?' :: cs => flagged s cs
  | cs => .ok (.group s, cs)

theorem opening_eq (s : Scope) (cs : List Char) :
    opening s cs = openingFrom s (s.flags.skip cs) := rfl

theorem openingFrom_plain {c : Char} (hc : c ≠ '?') (s : Scope) (cs : List Char) :
    openingFrom s (c :: cs) = .ok (.group s, c :: cs) := by
  unfold openingFrom
  split
  all_goals first
    | rfl
    | rename_i h
      cases h
      exact absurd rfl hc

theorem openingFrom_name {s : Scope} (h : ∀ ds, cs ≠ '=' :: ds ∧ cs ≠ '!' :: ds) :
    openingFrom s ('?' :: '<' :: cs) = (groupName s cs).map fun p => (.group p.1, p.2) := by
  unfold openingFrom
  split
  all_goals first
    | rename_i heq
      cases heq
      done
    | rename_i heq
      cases heq
      first
        | rfl
        | exact absurd rfl (h _).1
        | exact absurd rfl (h _).2
    | rename_i hname heq
      cases heq
      exact (hname _ rfl).elim
    | rename_i hflags
      exact (hflags _ rfl).elim

theorem openingFrom_flags {c : Char} {s : Scope} (hc : c ≠ '=' ∧ c ≠ '!' ∧ c ≠ '<')
    (hname : c = 'P' → ∀ ds, cs ≠ '<' :: ds) :
    openingFrom s ('?' :: c :: cs) = flagged s (c :: cs) := by
  unfold openingFrom
  split
  all_goals first
    | rename_i heq
      cases heq
      first
        | rfl
        | exact absurd rfl hc.1
        | exact absurd rfl hc.2.1
        | exact absurd rfl hc.2.2
        | exact absurd rfl (hname rfl _)
    | rename_i hflags
      exact (hflags _ rfl).elim

theorem leaves_openingFrom (s : Scope) (cs : List Char) : Leaves cs (openingFrom s cs) := by
  have hname : ∀ rest, rest <:+ cs → Leaves cs ((groupName s rest).map fun (s, rest) =>
      (Opening.group s, rest)) :=
    fun rest hrest => .map fun a ha => (leaves_groupName s rest a.1 a.2 ha).trans hrest
  unfold openingFrom
  split
  · exact .error
  · exact .error
  · exact .error
  · exact .error
  · exact hname _ (tail_suffix (tail_suffix (List.suffix_cons _ _)))
  · exact hname _ (tail_suffix (List.suffix_cons _ _))
  · exact (leaves_flagged s _).mono (List.suffix_cons _ _)
  · exact .ok List.suffix_rfl

theorem leaves_opening (s : Scope) (cs : List Char) : Leaves cs (opening s cs) := by
  rw [opening_eq]
  exact (leaves_openingFrom s _).mono (skip_suffix s.flags cs)

/-! ## Bodies -/

/-- What follows flags or the beginning of a group. -/
def openedFrom (n depth : Nat) (s : Scope) (before : Branches) (es : List Element) :
    Parsed Opening → Except String (Parsed (Branches × Scope))
  | (.setFlags f, rest) => body n depth { s with flags := f } before (.flags :: es) rest
  | (.group inner, rest) => do
    let ((bs, inner), rest) ← body n (depth + 1) inner [] [] rest
    body n depth { s with names := inner.names } before (.pattern (choice bs) :: es) rest

/-- An element of a body, or a repetition of the one before. -/
def elementFrom (n depth : Nat) (s : Scope) (before : Branches) (es : List Element)
    (c : Char) (cs : List Char) : Except String (Parsed (Branches × Scope)) := do
  match repetition? s.flags c cs with
  | some bounds =>
    match es with
    | .pattern p :: es =>
      let ((least, extra), rest) ← bounds
      body n depth s before (.pattern (.many p least extra) :: es) rest
    | _ => .error "repetition operator without an element"
  | none =>
    let (p, rest) ← atom s.flags c cs
    body n depth s before (.pattern p :: es) rest

theorem elementFrom_brace {n depth : Nat} {s : Scope} {before : Branches} {p : Pattern}
    {es : List Element} :
    elementFrom n depth s before (.pattern p :: es) '\x7b' cs =
      counted s.flags cs >>= fun x => body n depth s before
        (.pattern (.many p x.1.1 x.1.2) :: es) (lazyMark (s.flags.skip x.2)) := by
  rw [elementFrom, repetition?_brace]
  cases counted s.flags cs <;> rfl

/-- One step into a body, behind what may be skipped. -/
def bodyFrom (n depth : Nat) (s : Scope) (before : Branches) (es : List Element)
    (cs : List Char) : Except String (Parsed (Branches × Scope)) :=
  match cs with
  | [] =>
    if depth = 0 then .ok ((es :: before, s), []) else .error "unclosed group"
  | '(' :: cs => opening s cs >>= openedFrom n depth s before es
  | ')' :: cs =>
    if depth = 0 then .error "unopened group" else .ok ((es :: before, s), cs)
  | '|' :: cs => body n depth s (es :: before) [] cs
  | '[' :: cs => do
    let (p, rest) ← bracketed s.flags cs
    body n depth s before (.pattern p :: es) rest
  | c :: cs => elementFrom n depth s before es c cs

section Bodies

variable {n depth : Nat} {s : Scope} {before : Branches} {es : List Element}
  {z : Branches × Scope} {r : List Char}

theorem body_succ (n depth : Nat) (s : Scope) (before : Branches) (es : List Element)
    (cs : List Char) :
    body (n + 1) depth s before es cs = bodyFrom n depth s before es (s.flags.skip cs) := rfl

theorem bodyFrom_element {c : Char} (hc : c ≠ '(' ∧ c ≠ ')' ∧ c ≠ '|' ∧ c ≠ '[') :
    bodyFrom n depth s before es (c :: cs) = elementFrom n depth s before es c cs := by
  unfold bodyFrom
  split
  all_goals first
    | rename_i h
      cases h
      done
    | rename_i h
      cases h
      first
        | rfl
        | exact absurd rfl hc.1
        | exact absurd rfl hc.2.1
        | exact absurd rfl hc.2.2.1
        | exact absurd rfl hc.2.2.2

theorem bodyFrom_ends (hbody : ∀ {depth s before es cs z r},
    body n (depth + 1) s before es cs = .ok (z, r) → ')' :: r <:+ cs)
    (h : bodyFrom n (depth + 1) s before es cs = .ok (z, r)) : ')' :: r <:+ cs := by
  unfold bodyFrom at h
  split at h
  · cases h
  · obtain ⟨⟨opened, rest⟩, hopen, h⟩ := bind_eq_ok h
    have hopened := (leaves_opening s _ _ _ hopen).trans (List.suffix_cons '(' _)
    cases opened with
    | setFlags f => exact (hbody h).trans hopened
    | group inner =>
      obtain ⟨inner, hinner, h⟩ := bind_eq_ok h
      exact (hbody h).trans ((tail_suffix (hbody hinner)).trans hopened)
  · cases h
    exact List.suffix_rfl
  · exact (hbody h).trans (List.suffix_cons _ _)
  · obtain ⟨cls, hcls, h⟩ := bind_eq_ok h
    exact (hbody h).trans ((leaves_bracketed _ _ _ _ hcls).trans (List.suffix_cons _ _))
  · unfold elementFrom at h
    split at h
    · rename_i hbounds
      split at h
      · obtain ⟨bounds, hb, h⟩ := bind_eq_ok h
        exact (hbody h).trans ((leaves_repetition? hbounds _ _ hb).trans (List.suffix_cons _ _))
      · cases h
    · obtain ⟨p, hp, h⟩ := bind_eq_ok h
      exact (hbody h).trans ((leaves_atom _ _ _ _ _ hp).trans (List.suffix_cons _ _))

/-- The body of a group ends behind a closing parenthesis. -/
theorem body_ends (h : body n (depth + 1) s before es cs = .ok (z, r)) : ')' :: r <:+ cs := by
  induction n generalizing depth s before es cs z r with
  | zero => cases h
  | succ n ih => exact (bodyFrom_ends ih h).trans (skip_suffix s.flags cs)

/-- More steps than characters are enough for a body. -/
theorem body_steps {m : Nat} (hn : cs.length < n) (hm : cs.length < m) :
    body n depth s before es cs = body m depth s before es cs := by
  induction n generalizing m depth s before es cs with
  | zero => omega
  | succ n ih =>
    obtain ⟨m, rfl⟩ := Nat.exists_eq_add_one_of_ne_zero (by omega : m ≠ 0)
    have hskip := (skip_suffix s.flags cs).length_le
    have hnext : ∀ {depth s' before es} {r : List Char}, r.length < (s.flags.skip cs).length →
        body n depth s' before es r = body m depth s' before es r :=
      fun hr => ih (by omega) (by omega)
    rw [body_succ, body_succ]
    unfold bodyFrom
    generalize s.flags.skip cs = rest at hnext
    split
    · rfl
    · refine bind_congr_ok fun ⟨opened, rest⟩ hopen => ?_
      have hopened := (leaves_opening s _ _ _ hopen).length_le
      cases opened with
      | setFlags f => exact hnext (Nat.lt_succ_of_le hopened)
      | group inner =>
        rw [openedFrom, openedFrom, hnext (Nat.lt_succ_of_le hopened)]
        refine bind_congr_ok fun inner hinner => hnext ?_
        have hends := (body_ends hinner).length_le
        simp only [List.length_cons] at hends hopened ⊢
        omega
    · rfl
    · exact hnext (Nat.lt_succ_self _)
    · exact bind_congr_ok fun cls hcls =>
        hnext (Nat.lt_succ_of_le (leaves_bracketed _ _ _ _ hcls).length_le)
    · unfold elementFrom
      split
      · rename_i hbounds
        split
        · exact bind_congr_ok fun bounds hb =>
            hnext (Nat.lt_succ_of_le (leaves_repetition? hbounds _ _ hb).length_le)
        · rfl
      · exact bind_congr_ok fun p hp =>
          hnext (Nat.lt_succ_of_le (leaves_atom _ _ _ _ _ hp).length_le)

end Bodies

end SpanTree.Pattern
