import SpanTree.Proofs.Enclosed

/-!
# Bracketed classes in front of a parenthesis

A class that is read up to its bracket does not look at what stands behind it. A parenthesis is no
end of a class and no part of the name of a named class, so a class that is open at the end of the
text goes on into it.

Three readers may stop early: the beginning of a class and a member stop in front of the
parenthesis, and a member stops in front of a hyphen when a comment hides what the hyphen leads to.
-/

namespace SpanTree.Pattern

variable {α : Type} {cs u : List Char} {f : Flags}

/-! ## Bracketed classes -/

theorem behind_classAtom (f : Flags) (cs : List Char) :
    Behind (')' :: u) lookAtBrace (classAtom f cs) (classAtom f (cs ++ ')' :: u)) := by
  cases cs with
  | nil => exact .taken (leaves_classAtom f ')' u)
  | cons c cs =>
    by_cases hc : c = '\\'
    · subst hc
      exact behind_escape f cs
    · rw [List.cons_append, classAtom, classAtom]
      · exact .same _ _
      · exact hc
      · exact hc

theorem behind_rangeFrom (f : Flags) (first : Atom) (cs : List Char) :
    Behind (')' :: u) never (rangeFrom f first cs) (rangeFrom f first (cs ++ ')' :: u)) := by
  refine (behind_classAtom f cs).bind (fun last r => ?_) ?_ fun last r _ => ?_
  · exact .bind_pure fun _ => .bind_pure fun _ =>
      .ite (fun _ => .ok List.suffix_rfl) fun _ => .error
  · rintro _ r ⟨⟨l, rfl⟩, rfl⟩ b r' h
    obtain ⟨_, -, h⟩ := bind_eq_ok h
    obtain ⟨_, h, -⟩ := bind_eq_ok h
    cases h
  · exact .bind_pure fun _ => .bind_pure fun _ => .ite (fun _ => .same _ _) fun _ => .errors

/-- A member of a class ends early at the end of the text, or in front of a hyphen behind which a
comment goes on into what follows. -/
def atHyphen (f : Flags) (u : List Char) : CharClass → List Char → Prop := fun _ r =>
  r = [] ∨ ∃ after, r = '-' :: after ∧ (f.skip (after ++ ')' :: u)).length < (')' :: u).length

theorem memberFrom_nil (f : Flags) (first : Atom) (a : Parsed CharClass) :
    memberFrom f first [] ≠ .ok a := error_ne_ok

theorem behind_memberFrom (f : Flags) (first : Atom) (cs : List Char) :
    Behind (')' :: u) (atHyphen f u) (memberFrom f first cs)
      (memberFrom f first (cs ++ ')' :: u)) := by
  cases cs with
  | nil =>
    show Behind _ _ (.error "unclosed class") ((first.member f).map (·, [] ++ ')' :: u))
    cases first.member f with
    | error => exact .errors
    | ok a => exact .early (fun _ => error_ne_ok) (.inl rfl)
  | cons c cs =>
    by_cases hc : c = '-'
    · subst hc
      rw [List.cons_append, memberFrom, memberFrom]
      rcases skip_append f cs with heq | ⟨hskip, hshort⟩
      · have hstop := or_congr (@head?_append_paren (f.skip cs) u ']' (by decide))
          (@head?_append_paren (f.skip cs) u '-' (by decide))
        rw [heq]
        by_cases h : (f.skip cs).head? = some ']' ∨ (f.skip cs).head? = some '-'
        · rw [if_pos h, if_pos (hstop.2 h)]
          exact .map_pure ('-' :: cs)
        · rw [if_neg h, if_neg fun h' => h (hstop.1 h')]
          exact (behind_rangeFrom f first _).of_never
      · -- The next character is hidden by a comment, so the hyphen may stand for itself.
        have hx : ∀ a, rangeFrom f first [] ≠ .ok a := fun _ => error_ne_ok
        rw [hskip, if_neg (by simp)]
        split
        · cases first.member f with
          | error => exact .into hx fun _ _ h => absurd h error_ne_ok
          | ok a => exact .early (r := '-' :: cs) hx (.inr ⟨cs, rfl, hshort u⟩)
        · refine .into hx fun a r h => ?_
          exact Nat.lt_of_le_of_lt (leaves_rangeFrom f first _ a r h).length_le (hshort u)
    · have hplain : ∀ cs, memberFrom f first (c :: cs) = (first.member f).map (·, c :: cs) := by
        intro cs
        unfold memberFrom
        split
        · rename_i h
          cases h
        · rename_i h
          cases h
          exact absurd rfl hc
        · rfl
      rw [List.cons_append, hplain, hplain]
      exact .map_pure (c :: cs)

theorem behind_classItem (f : Flags) (cs : List Char) :
    Behind (')' :: u) (atHyphen f u) (classItem f cs) (classItem f (cs ++ ')' :: u)) := by
  rw [classItem_eq, classItem_eq]
  refine (behind_classAtom f cs).bind (fun first r => ?_) ?_ fun first r _ => ?_
  · exact (leaves_memberFrom f first _).mono (skip_suffix f r)
  · rintro _ r ⟨⟨l, rfl⟩, rfl⟩ b r' h
    have hbrace : f.skip ('\x7b' :: ')' :: u) = '\x7b' :: ')' :: u := by
      unfold Flags.skip
      split <;> rfl
    dsimp only [List.cons_append, List.nil_append] at h
    rw [hbrace] at h
    cases h
  · exact .skip (memberFrom_nil f first) (leaves_memberFrom f first) (behind_memberFrom f first _)

theorem posix?_eq_none {name : List Char} (h : ')' ∈ name) :
    CharClass.posix? (String.ofList name) = none := by
  unfold CharClass.posix?
  split
  all_goals first
    | rfl
    | rename_i heq
      have hname := congrArg String.toList heq
      rw [String.toList_ofList] at hname
      subst hname
      revert h
      decide

theorem posixBody?_append (f : Flags) (negated : Bool) (cs u : List Char) :
    posixBody? f negated (cs ++ ')' :: u) =
      (posixBody? f negated cs).map fun p => (p.1, p.2 ++ ')' :: u) := by
  unfold posixBody?
  rcases dropWhile_append_search (p := (· != ':')) rfl cs u with
    ⟨c, r, hdrop, hdrop', htake⟩ | ⟨hdrop, -, hparen⟩
  · rw [hdrop, hdrop', htake]
    cases r with
    | nil =>
      split
      · rename_i h
        cases h
      · split
        · rename_i h
          cases h
        · rfl
    | cons d r =>
      by_cases hd : c = ':' ∧ d = ']'
      · obtain ⟨rfl, rfl⟩ := hd
        simp only [List.cons_append, Option.map_map]
        rfl
      · split
        · rename_i h
          cases h
          exact absurd ⟨rfl, rfl⟩ hd
        · split
          · rename_i h
            cases h
            exact absurd ⟨rfl, rfl⟩ hd
          · rfl
  · rw [hdrop, posix?_eq_none hparen]
    split <;> rfl

/-- A named class has no parenthesis in its name. -/
theorem posixClass?_append (f : Flags) (cs u : List Char) :
    posixClass? f (cs ++ ')' :: u) =
      (posixClass? f cs).map fun p => (p.1, p.2 ++ ')' :: u) := by
  cases cs with
  | nil => rfl
  | cons c cs =>
    by_cases hc : c = ':'
    · subst hc
      have hsign : posixSign (cs ++ ')' :: u) =
          ((posixSign cs).1, (posixSign cs).2 ++ ')' :: u) := by
        cases cs with
        | nil => rfl
        | cons d cs =>
          by_cases hd : d = '^'
          · subst hd
            rfl
          · have hplain : ∀ cs, posixSign (d :: cs) = (false, d :: cs) := by
              intro cs
              rw [posixSign]
              rintro _ ⟨⟩
              exact hd rfl
            rw [List.cons_append, hplain, hplain]
            rfl
      rw [List.cons_append, posixClass?_colon, posixClass?_colon, hsign]
      exact posixBody?_append f _ _ u
    · rw [List.cons_append, posixClass?_cons hc, posixClass?_cons hc]
      rfl

/-- The end of the text is reached. -/
def atEnd : α → List Char → Prop := fun _ r => r = []

theorem dashes_append (f : Flags) (any : Bool) {n m : Nat} (hn : cs.length ≤ n)
    (hm : (cs ++ ')' :: u).length ≤ m) :
    classOpen.dashes f any m (cs ++ ')' :: u) =
        ((classOpen.dashes f any n cs).1, (classOpen.dashes f any n cs).2 ++ ')' :: u) ∨
      (classOpen.dashes f any n cs).2 = [] ∧
        (classOpen.dashes f any m (cs ++ ')' :: u)).2.length < (')' :: u).length := by
  induction n generalizing any m cs with
  | zero =>
    obtain rfl : cs = [] := List.eq_nil_of_length_eq_zero (by omega)
    refine .inl ?_
    cases m <;> rfl
  | succ n ih =>
    cases cs with
    | nil =>
      refine .inl ?_
      cases m <;> rfl
    | cons c cs =>
      obtain ⟨m, rfl⟩ := Nat.exists_eq_add_one_of_ne_zero
        (by rintro rfl; simp at hm : m ≠ 0)
      by_cases hc : c = '-'
      · subst hc
        simp only [List.cons_append, classOpen.dashes]
        simp only [List.cons_append, List.length_cons] at hn hm
        rcases skip_append f cs with heq | ⟨hskip, hshort⟩
        · have hle := (skip_suffix f cs).length_le
          have hle' := (skip_suffix f (cs ++ ')' :: u)).length_le
          rw [heq] at hle' ⊢
          exact ih true (by omega) (by omega)
        · refine .inr ⟨?_, Nat.lt_of_le_of_lt (dashes_suffix f true m _).length_le (hshort u)⟩
          rw [hskip]
          cases n <;> rfl
      · have hplain : ∀ n cs, classOpen.dashes f any (n + 1) (c :: cs) = (any, c :: cs) := by
          intro n cs
          rw [classOpen.dashes]
          rintro _ _ - ⟨⟩
          exact hc rfl
        rw [List.cons_append, hplain, hplain]
        exact .inl rfl

theorem classFront_nil (f : Flags) (negated any : Bool) (a : Parsed (Bool × CharClass)) :
    classFront f negated any [] ≠ .ok a := by
  cases any <;> exact error_ne_ok

theorem behind_classFront (f : Flags) (negated any : Bool) (cs : List Char) :
    Behind (')' :: u) atEnd (classFront f negated any cs)
      (classFront f negated any (cs ++ ')' :: u)) := by
  have hfront : ∀ c cs, (any = false → c ≠ ']') → classFront f negated any (c :: cs) =
      .ok ((negated, if any then CharClass.single '-' else .none), c :: cs) := by
    intro c cs hc
    rw [classFront]
    · intro h
      cases h
    · rintro _ hany ⟨⟩
      exact hc hany rfl
  cases cs with
  | nil =>
    rw [List.nil_append, hfront _ _ fun _ => by decide]
    exact .early (r := []) (classFront_nil f negated any) rfl
  | cons c cs =>
    by_cases hc : any = false ∧ c = ']'
    · obtain ⟨rfl, rfl⟩ := hc
      simp only [List.cons_append, classFront]
      rcases skip_append f cs with heq | ⟨hskip, hshort⟩
      · rw [heq]
        cases f.skip cs with
        | nil => exact .early (r := []) (fun _ => error_ne_ok) rfl
        | cons d rest => exact .same _ _
      · rw [hskip]
        refine .into (fun _ => error_ne_ok) fun a r h => ?_
        split at h <;> cases h
        exact hshort u
    · have hc' : any = false → c ≠ ']' := fun hany hbracket => hc ⟨hany, hbracket⟩
      rw [List.cons_append, hfront _ _ hc', hfront _ _ hc']
      exact .same _ (c :: cs)

theorem behind_classHead (f : Flags) (negated : Bool) (cs : List Char) :
    Behind (')' :: u) atEnd (classHead f negated cs) (classHead f negated (cs ++ ')' :: u)) := by
  unfold classHead
  dsimp only
  rcases dashes_append f false (Nat.le_refl cs.length) (Nat.le_refl (cs ++ ')' :: u).length) with
    heq | ⟨hnil, hshort⟩
  · rw [heq]
    exact behind_classFront f negated _ _
  · rw [hnil]
    refine .into (classFront_nil f negated _) fun a r h => ?_
    exact Nat.lt_of_le_of_lt (leaves_classFront f negated _ _ a r h).length_le hshort

theorem behind_classOpen (f : Flags) (cs : List Char) :
    Behind (')' :: u) atEnd (classOpen f cs) (classOpen f (cs ++ ')' :: u)) := by
  rw [classOpen_eq, classOpen_eq]
  refine .skip (g := fun cs => classHead f (classSign f cs).1 (classSign f cs).2)
    (classFront_nil f false false)
    (fun ds => (leaves_classHead f _ _).mono (classSign_suffix f ds)) ?_
  generalize f.skip cs = cs
  cases cs with
  | nil =>
    show Behind _ _ (classHead f false []) (classHead f false ([] ++ ')' :: u))
    exact behind_classHead f false []
  | cons c cs =>
    by_cases hc : c = '^'
    · subst hc
      exact .skip (g := classHead f true) (classFront_nil f true false) (leaves_classHead f true)
        (behind_classHead f true _)
    · have hplain : ∀ cs, classSign f (c :: cs) = (false, c :: cs) := by
        intro cs
        rw [classSign]
        rintro _ ⟨⟩
        exact hc rfl
      rw [List.cons_append, hplain, hplain]
      exact behind_classHead f false _

section Classes

variable {n : Nat} {pending : Option (SetOp × CharClass)} {a : CharClass}

/-- Where a class goes on, the parenthesis itself is read. -/
theorem classBody_paren {b : CharClass} {r : List Char}
    (h : classBody f n pending a (')' :: u) = .ok (b, r)) : r.length < (')' :: u).length := by
  have hends := (classBody_ends h).length_le
  rwa [List.length_cons] at hends

/-- Behind a member that stopped in front of a hyphen the class goes on into the comment. -/
theorem classBody_hyphen {after r : List Char} {b : CharClass}
    (hshort : (f.skip (after ++ ')' :: u)).length < (')' :: u).length)
    (h : classBody f n pending a ('-' :: (after ++ ')' :: u)) = .ok (b, r)) :
    r.length < (')' :: u).length := by
  cases n with
  | zero => cases h
  | succ n =>
    have hhyphen : ∀ cs, f.skip ('-' :: cs) = '-' :: cs := by
      intro cs
      unfold Flags.skip
      split <;> rfl
    have hsecond : ∀ ds, after ++ ')' :: u = '-' :: ds → setOp? '-' = none := by
      intro ds hds
      obtain ⟨es, rfl⟩ := cons_of_append_paren (by decide) hds
      rw [List.cons_append, hhyphen] at hshort
      simp only [List.length_cons, List.length_append] at hshort
      omega
    rw [classBody_succ, hhyphen, classFrom_item (by decide) (by decide) hsecond] at h
    obtain ⟨item, hitem, h⟩ := bind_eq_ok h
    have hitem := leaves_memberFrom f (.literal '-') _ _ _ hitem
    have hends := (classBody_ends h).length_le
    have hle := hitem.length_le
    simp only [List.length_cons] at hends
    omega

theorem behind_classFrom (hbody : ∀ pending a cs, Behind (')' :: u) never
      (classBody f n pending a cs) (classBody f n pending a (cs ++ ')' :: u))) (cs : List Char) :
    Behind (')' :: u) never (classFrom f n pending a cs)
      (classFrom f n pending a (cs ++ ')' :: u)) := by
  have hleaves : ∀ (pending : Option (SetOp × CharClass)) (a : CharClass) r,
      Leaves r (classBody f n pending a r) :=
    fun pending a r b r' h => tail_suffix (classBody_ends h)
  cases cs with
  | nil =>
    refine .taken fun b r h => ?_
    rcases List.suffix_cons_iff.1 (classFrom_ends classBody_ends h) with heq | hends
    · cases heq
    · exact tail_suffix hends
  | cons c cs =>
    by_cases hopen : c = '['
    · subst hopen
      simp only [List.cons_append, classFrom, posixClass?_append]
      cases hposix : posixClass? f cs with
      | some p => exact hbody _ _ _
      | none =>
        refine (behind_classOpen f cs).bind (fun opened r => ?_) ?_ fun opened r _ => ?_
        · exact .bind (hleaves _ _ r) fun b rest _ hrest => (hleaves _ _ rest).mono hrest
        · rintro opened _ rfl b r' h
          obtain ⟨inner, hinner, h⟩ := bind_eq_ok h
          exact Nat.lt_of_le_of_lt (hleaves _ _ _ _ _ h).length_le (classBody_paren hinner)
        · exact (hbody none _ r).bind (fun inner r => hleaves _ _ r) (fun _ _ h => h.elim)
            fun inner r' _ => hbody _ _ r'
    · by_cases hclose : c = ']'
      · subst hclose
        exact .same _ _
      · by_cases hop : ∃ op ds, setOp? c = some op ∧ cs = c :: ds
        · obtain ⟨op, ds, hop, rfl⟩ := hop
          simp only [List.cons_append, classFrom_op hop]
          exact hbody _ _ _
        · have hitem : ∀ ds, cs = c :: ds → setOp? c = none := fun ds hds =>
            Option.eq_none_iff_forall_ne_some.2 fun op h => hop ⟨op, ds, h, hds⟩
          have hitem' : ∀ ds, cs ++ ')' :: u = c :: ds → setOp? c = none := by
            intro ds hds
            by_cases hparen : c = ')'
            · subst hparen
              rfl
            · obtain ⟨es, hes⟩ := cons_of_append_paren hparen hds
              exact hitem es hes
          rw [List.cons_append, classFrom_item hopen hclose hitem,
            classFrom_item hopen hclose hitem', ← List.cons_append]
          refine (behind_classItem f (c :: cs)).bind (fun b r => hleaves _ _ r) ?_ fun b r _ =>
            hbody _ _ r
          rintro b _ (rfl | ⟨after, rfl, hshort⟩) b' r' h
          · exact classBody_paren h
          · exact classBody_hyphen hshort h

theorem behind_classBody (n : Nat) (pending : Option (SetOp × CharClass)) (a : CharClass)
    (cs : List Char) :
    Behind (')' :: u) never (classBody f n pending a cs)
      (classBody f n pending a (cs ++ ')' :: u)) := by
  induction n generalizing pending a cs with
  | zero => exact .errors
  | succ n ih =>
    rw [classBody_succ, classBody_succ]
    exact .skip (g := classFrom f n pending a) (fun _ => error_ne_ok)
      (fun ds b r h => tail_suffix (classFrom_ends classBody_ends h)) (behind_classFrom ih _)

end Classes

theorem behind_bracketed (f : Flags) (cs : List Char) :
    Behind (')' :: u) never (bracketed f cs) (bracketed f (cs ++ ')' :: u)) := by
  -- More steps are allowed for the longer text, which changes nothing.
  have hsteps : bracketed f cs = classOpen f cs >>= fun x =>
      classBody f ((cs ++ ')' :: u).length + 1) none x.1.2 x.2 >>= fun y => do
        return (← classPattern f (if x.1.1 then .not y.1 else y.1), y.2) := by
    refine bind_congr_ok fun opened hopen => ?_
    have hle := (leaves_classOpen f cs _ _ hopen).length_le
    dsimp only
    rw [classBody_steps (m := (cs ++ ')' :: u).length + 1) (by omega)
      (by rw [List.length_append]; omega)]
  rw [hsteps]
  refine (behind_classOpen f cs).bind (fun opened r => ?_) ?_ fun opened r _ => ?_
  · exact .bind (fun b r h => tail_suffix (classBody_ends h)) fun a rest _ hrest =>
      .bind_pure fun _ => .ok hrest
  · rintro opened _ rfl b r' h
    obtain ⟨a, ha, h⟩ := bind_eq_ok h
    obtain ⟨p, -, h⟩ := bind_eq_ok h
    cases h
    exact classBody_paren ha
  · exact (behind_classBody _ none _ r).bind
      (fun a rest => .bind_pure fun _ => .ok List.suffix_rfl) (fun _ _ h => h.elim)
      fun a rest _ => .bind_pure fun _ => .same _ _

end SpanTree.Pattern
