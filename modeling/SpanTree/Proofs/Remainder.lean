import SpanTree.Pattern.Parse
import SpanTree.Proofs.Growth

/-!
# What the readers of a pattern leave

Each reader of a part of a pattern answers what it has read and the text after it. **The text after
it is an end of the text that it was given** (`Leaves`), and a shorter one where the reader must
take something: a class ends behind its bracket.

So the reading of a class gets shorter with every step, and how many steps are allowed makes no
difference as soon as they are more than the characters (`classBody_steps`).

Where a reader is a chain of choices on its first characters, the choices behind what may be skipped
are given a name, so that they can be spoken of by themselves.
-/

namespace SpanTree.Pattern

variable {α β : Type} {cs ds : List Char} {f : Flags}

theorem error_ne_ok {ε : Type} {e : ε} {a : α} : (Except.error e : Except ε α) ≠ .ok a := by
  rintro ⟨⟩

/-- The outcome is an error, or what it leaves is an end of the text. -/
def Leaves (cs : List Char) (x : Except String (Parsed α)) : Prop :=
  ∀ a r, x = .ok (a, r) → r <:+ cs

namespace Leaves

variable {x : Except String (Parsed α)}

theorem error {e : String} : Leaves cs (.error e : Except String (Parsed α)) :=
  fun _ _ h => absurd h error_ne_ok

theorem ok {a : α} (h : ds <:+ cs) : Leaves cs (.ok (a, ds)) := by
  rintro _ _ ⟨⟩
  exact h

theorem mono (h : Leaves ds x) (hds : ds <:+ cs) : Leaves cs x :=
  fun a r hx => (h a r hx).trans hds

theorem bind {g : Parsed α → Except String (Parsed β)} (h : Leaves cs x)
    (hg : ∀ a r, x = .ok (a, r) → r <:+ cs → Leaves cs (g (a, r))) : Leaves cs (x >>= g) := by
  intro b r hb
  cases x with
  | error => cases hb
  | ok a => exact hg a.1 a.2 rfl (h a.1 a.2 rfl) b r hb

/-- A computation in between that reads nothing. -/
theorem bind_pure {y : Except String α} {g : α → Except String (Parsed β)}
    (hg : ∀ a, Leaves cs (g a)) : Leaves cs (y >>= g) := by
  intro b r hb
  cases y with
  | error => cases hb
  | ok a => exact hg a b r hb

theorem map {y : Except String α} {g : α → Parsed β}
    (h : ∀ a, y = .ok a → (g a).2 <:+ cs) : Leaves cs (y.map g) := by
  intro b r hb
  obtain ⟨a, ha, hg⟩ := map_eq_ok hb
  have hr := h a ha
  rwa [hg] at hr

theorem ite {c : Prop} [Decidable c] {y : Except String (Parsed α)} (hx : c → Leaves cs x)
    (hy : ¬ c → Leaves cs y) : Leaves cs (if c then x else y) := by
  split
  · exact hx ‹_›
  · exact hy ‹_›

end Leaves

theorem bind_congr_ok {ε : Type} {x : Except ε α} {g g' : α → Except ε β}
    (h : ∀ a, x = .ok a → g a = g' a) : x >>= g = x >>= g' := by
  cases x with
  | error => rfl
  | ok a => exact h a rfl

theorem tail_suffix {c : Char} (h : c :: cs <:+ ds) : cs <:+ ds := (List.suffix_cons c cs).trans h

/-! ## Blanks and numbers -/

theorem skipVerbose_suffix (inComment : Bool) (cs : List Char) :
    skipVerbose inComment cs <:+ cs := by
  fun_induction skipVerbose inComment cs with
  | case1 => exact List.suffix_rfl
  | case6 => exact List.suffix_rfl
  | _ => exact List.IsSuffix.trans ‹_› (List.suffix_cons _ _)

theorem skip_suffix (f : Flags) (cs : List Char) : f.skip cs <:+ cs := by
  rw [Flags.skip]
  split
  · exact skipVerbose_suffix false cs
  · exact List.suffix_rfl

theorem leaves_number (cs : List Char) : Leaves cs (number cs) := by
  have hrest := ((List.dropWhile_suffix Text.isBlankChar).trans
    (List.dropWhile_suffix Char.isDigit)).trans (List.dropWhile_suffix (l := cs) Text.isBlankChar)
  exact .ite (fun _ => .error) fun _ => .ite (fun _ => .ok hrest) fun _ => .error

/-! ## Escapes -/

theorem leaves_hexEscape (width : Nat) (cs : List Char) : Leaves cs (hexEscape width cs) := by
  unfold hexEscape
  split
  · rename_i cs
    dsimp only
    split
    · exact .error
    · rename_i rest hrest
      have hbehind : rest <:+ '\x7b' :: cs :=
        (tail_suffix (hrest ▸ List.dropWhile_suffix _)).trans (List.suffix_cons _ _)
      refine .ite (fun _ => .error) fun _ => ?_
      split
      · exact .ok hbehind
      · exact .error
  · dsimp only
    refine .ite (fun _ => .error) fun _ => ?_
    split
    · exact .ok (List.drop_suffix _ _)
    · exact .error

/-- The class of a property, if there is one. -/
def propertyClass (f : Flags) (negated : Bool) (a? : Option CharClass) (rest : List Char) :
    Except String (Parsed Atom) :=
  match a? with
  | none => .error "unknown property"
  | some a =>
    if f.unicode then
      let a := if f.caseless then .folded a else a
      .ok (.cls (if negated then .not a else a), rest)
    else .error "property without Unicode"

theorem leaves_propertyClass (f : Flags) (negated : Bool) (a? : Option CharClass)
    (rest : List Char) : Leaves rest (propertyClass f negated a? rest) := by
  unfold propertyClass
  split
  · exact .error
  · exact .ite (fun _ => .ok List.suffix_rfl) fun _ => .error

theorem propertyEscape_brace (f : Flags) (negated : Bool) (cs : List Char) :
    propertyEscape f negated ('\x7b' :: cs) =
      match cs.dropWhile (· != '\x7d') with
      | [] => .error "unclosed property"
      | _ :: rest =>
        propertyClass f negated (namedProperty? (cs.takeWhile (· != '\x7d'))) rest := rfl

theorem propertyEscape_cons {c : Char} (hc : c ≠ '\x7b') (f : Flags) (negated : Bool)
    (cs : List Char) :
    propertyEscape f negated (c :: cs) =
      if c = '\\' then .error "property expected"
      else propertyClass f negated (CharClass.property? [c]) cs := by
  unfold propertyEscape
  extract_lets finish
  split
  · rename_i h
    cases h
  · rename_i h
    cases h
    exact absurd rfl hc
  · rename_i h
    cases h
    rfl
  · rename_i hslash h
    cases h
    rw [if_neg hslash]
    rfl

theorem leaves_propertyEscape_cons {c : Char} (hc : c ≠ '\x7b') (f : Flags) (negated : Bool)
    (cs : List Char) : Leaves cs (propertyEscape f negated (c :: cs)) := by
  rw [propertyEscape_cons hc]
  exact .ite (fun _ => .error) fun _ => leaves_propertyClass f negated _ cs

theorem leaves_propertyEscape (f : Flags) (negated : Bool) (cs : List Char) :
    Leaves cs (propertyEscape f negated cs) := by
  cases cs with
  | nil => exact .error
  | cons c cs =>
    by_cases hc : c = '\x7b'
    · subst hc
      rw [propertyEscape_brace]
      split
      · exact .error
      · rename_i hrest
        exact (leaves_propertyClass _ _ _ _).mono
          ((tail_suffix (hrest ▸ List.dropWhile_suffix _)).trans (List.suffix_cons _ _))
    · exact (leaves_propertyEscape_cons hc f negated cs).mono (List.suffix_cons _ _)

def isLookChar (c : Char) : Bool := c.isAlpha || c = '-'

def lookNamed (name : List Char) (rest : List Char) : Except String (Parsed Look) :=
  match String.ofList name with
  | "start" => .ok (.wordStart, rest)
  | "end" => .ok (.wordEnd, rest)
  | "start-half" => .ok (.wordStartHalf, rest)
  | "end-half" => .ok (.wordEndHalf, rest)
  | _ => .error "unknown word boundary"

/-- What comes behind the name of a look. -/
def lookEnd (name : List Char) : List Char → Except String (Parsed Look)
  | '\x7d' :: rest => lookNamed name rest
  | _ => .error "unclosed word boundary"

theorem braceLook_brace (c : Char) (cs : List Char) :
    braceLook ('\x7b' :: c :: cs) =
      if isLookChar c then
        lookEnd ((c :: cs).takeWhile isLookChar) ((c :: cs).dropWhile isLookChar)
      else .ok (.wordBoundary, '\x7b' :: c :: cs) := rfl

theorem braceLook_cons {c : Char} (hc : c ≠ '\x7b') (cs : List Char) :
    braceLook (c :: cs) = .ok (.wordBoundary, c :: cs) := by
  unfold braceLook
  extract_lets isNameChar
  split
  · rename_i h
    cases h
    exact absurd rfl hc
  · rfl

theorem leaves_lookEnd (name cs : List Char) : Leaves cs (lookEnd name cs) := by
  unfold lookEnd
  split
  · unfold lookNamed
    split <;> first | exact .ok (List.suffix_cons _ _) | exact .error
  · exact .error

theorem leaves_braceLook (cs : List Char) : Leaves cs (braceLook cs) := by
  cases cs with
  | nil => exact .ok List.suffix_rfl
  | cons c cs =>
    by_cases hc : c = '\x7b'
    · subst hc
      cases cs with
      | nil => exact .error
      | cons c cs =>
        rw [braceLook_brace]
        refine .ite (fun _ => ?_) fun _ => .ok List.suffix_rfl
        exact (leaves_lookEnd _ _).mono
          ((List.dropWhile_suffix _).trans (List.suffix_cons _ _))
    · rw [braceLook_cons hc]
      exact .ok List.suffix_rfl

theorem leaves_escape (f : Flags) (c : Char) (cs : List Char) :
    Leaves cs (escape f (c :: cs)) := by
  have hskip := skip_suffix f cs
  rw [escape]
  repeat' refine .ite (fun _ => ?_) fun _ => ?_
  all_goals first
    | exact .ok List.suffix_rfl
    | exact .error
    | exact (leaves_hexEscape _ _).mono hskip
    | exact (leaves_propertyEscape _ _ _).mono hskip
    | exact .map fun a h => leaves_braceLook cs a.1 a.2 h

/-! ## Bracketed classes -/

theorem leaves_classAtom (f : Flags) (c : Char) (cs : List Char) :
    Leaves cs (classAtom f (c :: cs)) := by
  by_cases hc : c = '\\'
  · subst hc
    cases cs with
    | nil => exact .error
    | cons c cs => exact (leaves_escape f c cs).mono (List.suffix_cons _ _)
  · rw [classAtom]
    · exact .ok List.suffix_rfl
    · exact hc

theorem leaves_classAtom' (f : Flags) (cs : List Char) : Leaves cs (classAtom f cs) := by
  cases cs with
  | nil => exact .error
  | cons c cs => exact (leaves_classAtom f c cs).mono (List.suffix_cons _ _)

/-- A range from an atom to the next one. -/
def rangeFrom (f : Flags) (first : Atom) (cs : List Char) : Except String (Parsed CharClass) := do
  let (last, rest) ← classAtom f cs
  let lo ← first.endpoint f
  let hi ← last.endpoint f
  if lo ≤ hi then return (fold f (.range lo hi), rest) else .error "empty range"

theorem leaves_rangeFrom (f : Flags) (first : Atom) (cs : List Char) :
    Leaves cs (rangeFrom f first cs) := by
  refine .bind (leaves_classAtom' f cs) fun last rest _ hrest => ?_
  exact .bind_pure fun _ => .bind_pure fun _ => .ite (fun _ => .ok hrest) fun _ => .error

/-- A member of a class whose first atom has been read. -/
def memberFrom (f : Flags) (first : Atom) (cs : List Char) : Except String (Parsed CharClass) :=
  match cs with
  | [] => .error "unclosed class"
  | '-' :: after =>
    let next := (f.skip after).head?
    if next = some ']' ∨ next = some '-' then (first.member f).map (·, cs)
    else rangeFrom f first (f.skip after)
  | _ => (first.member f).map (·, cs)

theorem leaves_memberFrom (f : Flags) (first : Atom) (cs : List Char) :
    Leaves cs (memberFrom f first cs) := by
  unfold memberFrom
  split
  · exact .error
  · rename_i after
    refine .ite (fun _ => .map fun _ _ => List.suffix_rfl) fun _ => ?_
    exact (leaves_rangeFrom f first _).mono ((skip_suffix f after).trans (List.suffix_cons _ _))
  · exact .map fun _ _ => List.suffix_rfl

theorem classItem_eq (f : Flags) (cs : List Char) :
    classItem f cs = classAtom f cs >>= fun x => memberFrom f x.1 (f.skip x.2) := rfl

theorem leaves_classItem (f : Flags) (c : Char) (cs : List Char) :
    Leaves cs (classItem f (c :: cs)) := by
  rw [classItem_eq]
  exact .bind (leaves_classAtom f c cs) fun first rest _ hrest =>
    (leaves_memberFrom f first _).mono ((skip_suffix f rest).trans hrest)

/-- A named class behind its colon and its sign. -/
def posixBody? (f : Flags) (negated : Bool) (cs : List Char) : Option (CharClass × List Char) :=
  match cs.dropWhile (· != ':') with
  | ':' :: ']' :: rest =>
    (CharClass.posix? (String.ofList (cs.takeWhile (· != ':')))).map fun a =>
      (if negated then .not (fold f a) else fold f a, rest)
  | _ => none

theorem posixBody?_suffix {negated : Bool} {a : CharClass} {r : List Char}
    (h : posixBody? f negated cs = some (a, r)) : r <:+ cs := by
  unfold posixBody? at h
  split at h
  · rename_i rest hrest
    obtain ⟨_, -, h⟩ := Option.map_eq_some_iff.1 h
    obtain ⟨-, rfl⟩ := Prod.mk.inj h
    exact tail_suffix (tail_suffix (hrest ▸ List.dropWhile_suffix _))
  · cases h

/-- The sign that negates a named class, and what comes behind it. -/
def posixSign : List Char → Bool × List Char
  | '^' :: cs => (true, cs)
  | cs => (false, cs)

theorem posixSign_suffix (cs : List Char) : (posixSign cs).2 <:+ cs := by
  unfold posixSign
  split
  · exact List.suffix_cons _ _
  · exact List.suffix_rfl

theorem posixClass?_colon (f : Flags) (cs : List Char) :
    posixClass? f (':' :: cs) = posixBody? f (posixSign cs).1 (posixSign cs).2 := rfl

theorem posixClass?_cons {c : Char} (hc : c ≠ ':') (f : Flags) (cs : List Char) :
    posixClass? f (c :: cs) = none := by
  unfold posixClass?
  split
  · rename_i hcs
    cases hcs
    exact absurd rfl hc
  · rfl

theorem posixClass?_suffix {a : CharClass} {r : List Char} (h : posixClass? f cs = some (a, r)) :
    r <:+ cs := by
  cases cs with
  | nil => cases h
  | cons c cs =>
    by_cases hc : c = ':'
    · subst hc
      rw [posixClass?_colon] at h
      exact (posixBody?_suffix h).trans ((posixSign_suffix cs).trans (List.suffix_cons _ _))
    · rw [posixClass?_cons hc] at h
      cases h

theorem dashes_suffix (f : Flags) (any : Bool) (n : Nat) (cs : List Char) :
    (classOpen.dashes f any n cs).2 <:+ cs := by
  fun_induction classOpen.dashes f any n cs with
  | case1 any n cs ih => exact ih.trans ((skip_suffix f cs).trans (List.suffix_cons _ _))
  | case2 => exact List.suffix_rfl

/-- The sign that negates a class, and what comes behind it. -/
def classSign (f : Flags) : List Char → Bool × List Char
  | '^' :: cs => (true, f.skip cs)
  | cs => (false, cs)

theorem classSign_suffix (f : Flags) (cs : List Char) : (classSign f cs).2 <:+ cs := by
  unfold classSign
  split
  · exact (skip_suffix f _).trans (List.suffix_cons _ _)
  · exact List.suffix_rfl

/-- A class behind its sign, and behind the hyphens at its front if there are any. -/
def classFront (f : Flags) (negated any : Bool) (cs : List Char) :
    Except String (Parsed (Bool × CharClass)) :=
  let front := if any then CharClass.single '-' else .none
  match any, cs with
  | _, [] => .error "unclosed class"
  | false, ']' :: cs =>
    let rest := f.skip cs
    if rest.isEmpty then .error "unclosed class" else .ok ((negated, .single ']'), rest)
  | _, cs => .ok ((negated, front), cs)

theorem leaves_classFront (f : Flags) (negated any : Bool) (cs : List Char) :
    Leaves cs (classFront f negated any cs) := by
  unfold classFront
  dsimp only
  split
  · exact .error
  · refine .ite (fun _ => .error) fun _ => .ok ?_
    exact (skip_suffix f _).trans (List.suffix_cons _ _)
  · exact .ok List.suffix_rfl

/-- A class behind its sign. -/
def classHead (f : Flags) (negated : Bool) (cs : List Char) :
    Except String (Parsed (Bool × CharClass)) :=
  let hyphens := classOpen.dashes f false cs.length cs
  classFront f negated hyphens.1 hyphens.2

theorem leaves_classHead (f : Flags) (negated : Bool) (cs : List Char) :
    Leaves cs (classHead f negated cs) :=
  (leaves_classFront f negated _ _).mono (dashes_suffix f false cs.length cs)

theorem classOpen_eq (f : Flags) (cs : List Char) :
    classOpen f cs = classHead f (classSign f (f.skip cs)).1 (classSign f (f.skip cs)).2 := rfl

theorem leaves_classOpen (f : Flags) (cs : List Char) : Leaves cs (classOpen f cs) := by
  rw [classOpen_eq]
  exact (leaves_classHead f _ _).mono ((classSign_suffix f _).trans (skip_suffix f cs))

/-- One step into a class, behind what may be skipped. -/
def classFrom (f : Flags) (n : Nat) (pending : Option (SetOp × CharClass)) (a : CharClass)
    (cs : List Char) : Except String (Parsed CharClass) :=
  match cs with
  | [] => .error "unclosed class"
  | '[' :: cs =>
    match posixClass? f cs with
    | some (b, rest) => classBody f n pending (join a b) rest
    | none => do
      let ((negated, front), rest) ← classOpen f cs
      let (b, rest) ← classBody f n none front rest
      classBody f n pending (join a (if negated then .not b else b)) rest
  | ']' :: cs => .ok (closeOp pending a, cs)
  | '&' :: '&' :: cs => classBody f n (some (.both, closeOp pending a)) .none cs
  | '-' :: '-' :: cs => classBody f n (some (.butNot, closeOp pending a)) .none cs
  | '~' :: '~' :: cs => classBody f n (some (.oneOnly, closeOp pending a)) .none cs
  | cs => do
    let (b, rest) ← classItem f cs
    classBody f n pending (join a b) rest

section Classes

variable {n : Nat} {pending : Option (SetOp × CharClass)} {a b : CharClass} {r : List Char}

theorem classBody_succ (f : Flags) (n : Nat) (pending : Option (SetOp × CharClass))
    (a : CharClass) (cs : List Char) :
    classBody f (n + 1) pending a cs = classFrom f n pending a (f.skip cs) := rfl

theorem classFrom_ends (hbody : ∀ {pending a b cs r}, classBody f n pending a cs = .ok (b, r) →
    ']' :: r <:+ cs) (h : classFrom f n pending a cs = .ok (b, r)) : ']' :: r <:+ cs := by
  unfold classFrom at h
  split at h
  · cases h
  · split at h
    · rename_i hposix
      exact (hbody h).trans ((posixClass?_suffix hposix).trans (List.suffix_cons _ _))
    · obtain ⟨opened, hopen, h⟩ := bind_eq_ok h
      obtain ⟨inner, hinner, h⟩ := bind_eq_ok h
      have hopened := leaves_classOpen f _ _ _ hopen
      exact (hbody h).trans ((tail_suffix (hbody hinner)).trans
        (hopened.trans (List.suffix_cons _ _)))
  · cases h
    exact List.suffix_rfl
  · exact (hbody h).trans (tail_suffix (List.suffix_cons _ _))
  · exact (hbody h).trans (tail_suffix (List.suffix_cons _ _))
  · exact (hbody h).trans (tail_suffix (List.suffix_cons _ _))
  · rename_i hnonempty _ _ _ _ _
    obtain ⟨c, cs', rfl⟩ := List.exists_cons_of_ne_nil hnonempty
    obtain ⟨item, hitem, h⟩ := bind_eq_ok h
    exact (hbody h).trans ((leaves_classItem f c cs' _ _ hitem).trans (List.suffix_cons _ _))

/-- A class ends behind a closing bracket. -/
theorem classBody_ends (h : classBody f n pending a cs = .ok (b, r)) : ']' :: r <:+ cs := by
  induction n generalizing pending a b cs r with
  | zero => cases h
  | succ n ih => exact (classFrom_ends ih h).trans (skip_suffix f cs)

/-- More steps than characters are enough for a class. -/
theorem classBody_steps {m : Nat} (hn : cs.length < n) (hm : cs.length < m) :
    classBody f n pending a cs = classBody f m pending a cs := by
  induction n generalizing m pending a cs with
  | zero => omega
  | succ n ih =>
    obtain ⟨m, rfl⟩ := Nat.exists_eq_add_one_of_ne_zero (by omega : m ≠ 0)
    have hskip := (skip_suffix f cs).length_le
    have hnext : ∀ {pending a} {r : List Char}, r.length < (f.skip cs).length →
        classBody f n pending a r = classBody f m pending a r :=
      fun hr => ih (by omega) (by omega)
    rw [classBody_succ, classBody_succ]
    unfold classFrom
    generalize f.skip cs = rest at hnext
    split
    · rfl
    · split
      · rename_i hposix
        exact hnext (Nat.lt_succ_of_le (posixClass?_suffix hposix).length_le)
      · refine bind_congr_ok fun opened hopen => ?_
        have hopened := (leaves_classOpen f _ _ _ hopen).length_le
        dsimp only
        rw [hnext (Nat.lt_succ_of_le hopened)]
        refine bind_congr_ok fun inner hinner => hnext ?_
        have hends := (classBody_ends hinner).length_le
        simp only [List.length_cons] at hends ⊢
        omega
    · rfl
    · exact hnext (by simp only [List.length_cons]; omega)
    · exact hnext (by simp only [List.length_cons]; omega)
    · exact hnext (by simp only [List.length_cons]; omega)
    · rename_i hnonempty _ _ _ _ _
      obtain ⟨c, cs', rfl⟩ := List.exists_cons_of_ne_nil hnonempty
      refine bind_congr_ok fun item hitem => hnext ?_
      exact Nat.lt_succ_of_le (leaves_classItem f c cs' _ _ hitem).length_le

/-- The set operation that a character means if it stands there twice. -/
def setOp? : Char → Option SetOp
  | '&' => some .both
  | '-' => some .butNot
  | '~' => some .oneOnly
  | _ => none

theorem classFrom_op {c : Char} {op : SetOp} (h : setOp? c = some op) :
    classFrom f n pending a (c :: c :: cs) =
      classBody f n (some (op, closeOp pending a)) .none cs := by
  unfold setOp? at h
  split at h <;> cases h <;> rfl

theorem classFrom_item {c : Char} (hopen : c ≠ '[') (hclose : c ≠ ']')
    (hop : ∀ ds, cs = c :: ds → setOp? c = none) :
    classFrom f n pending a (c :: cs) =
      classItem f (c :: cs) >>= fun x => classBody f n pending (join a x.1) x.2 := by
  unfold classFrom
  split
  · rename_i h
    cases h
  · rename_i h
    cases h
    exact absurd rfl hopen
  · rename_i h
    cases h
    exact absurd rfl hclose
  · rename_i h
    cases h
    cases hop _ rfl
  · rename_i h
    cases h
    cases hop _ rfl
  · rename_i h
    cases h
    cases hop _ rfl
  · rfl

end Classes

theorem leaves_bracketed (f : Flags) (cs : List Char) : Leaves cs (bracketed f cs) := by
  refine .bind (leaves_classOpen f cs) fun opened rest _ hrest => ?_
  refine .bind (fun b r h => (tail_suffix (classBody_ends h)).trans hrest) fun a rest _ hrest => ?_
  exact .bind_pure fun _ => .ok hrest

end SpanTree.Pattern
