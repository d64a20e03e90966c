import SpanTree.Error

/-!
# Computations that may fail

Encoding, decoding and reading are computations on a state which end in a value or in an error and
leave a state behind in either case.

* `Answers m s a s'`: from the state `s` the computation ends in the value `a` and leaves `s'`.
* `Fails m s e s'`: it ends in the error `e` and leaves `s'`.
* `Ensures m s Q E`: it ends in a value and a state with `Q`, or in an error and a state with `E`.

Each has a rule for every way in which computations are put together, so that what is said of a
function is taken apart and put together along its text.
-/

namespace SpanTree

variable {σ α β : Type} {m : ExceptT Error (StateM σ) α} {f : α → ExceptT Error (StateM σ) β}
  {s s' : σ}

def outcome (m : ExceptT Error (StateM σ) α) (s : σ) : Except Error α × σ := m.run.run s

def Answers (m : ExceptT Error (StateM σ) α) (s : σ) (a : α) (s' : σ) : Prop :=
  outcome m s = (.ok a, s')

def Fails (m : ExceptT Error (StateM σ) α) (s : σ) (e : Error) (s' : σ) : Prop :=
  outcome m s = (.error e, s')

def Ensures (m : ExceptT Error (StateM σ) α) (s : σ) (Q : α → σ → Prop) (E : Error → σ → Prop) :
    Prop :=
  match outcome m s with
  | (.ok a, s') => Q a s'
  | (.error e, s') => E e s'

instance [DecidableEq α] [DecidableEq σ] {a : α} : Decidable (Answers m s a s') :=
  match h : outcome m s with
  | (.ok b, t) => decidable_of_iff (b = a ∧ t = s') (by simp [Answers, h])
  | (.error _, _) => isFalse (by simp [Answers, h])

instance [DecidableEq σ] {e : Error} : Decidable (Fails m s e s') :=
  match h : outcome m s with
  | (.ok _, _) => isFalse (by simp [Fails, h])
  | (.error e', t) => decidable_of_iff (e' = e ∧ t = s') (by simp [Fails, h])

theorem outcome_bind (m : ExceptT Error (StateM σ) α) (f : α → ExceptT Error (StateM σ) β)
    (s : σ) :
    outcome (m >>= f) s =
      match outcome m s with
      | (.ok a, s') => outcome (f a) s'
      | (.error e, s') => (.error e, s') := by
  unfold outcome ExceptT.run StateT.run
  simp only [bind, ExceptT.bind, ExceptT.mk, StateT.bind, ExceptT.bindCont]
  cases m s with
  | mk r s' => cases r <;> rfl

theorem outcome_liftExcept (x : Except Error α) (s : σ) :
    outcome (liftExcept x) s = (x, s) := by
  cases x <;> rfl

theorem outcome_get (s : σ) : outcome (get : ExceptT Error (StateM σ) σ) s = (.ok s, s) := rfl

theorem outcome_modify (g : σ → σ) (s : σ) :
    outcome (modify g : ExceptT Error (StateM σ) PUnit) s = (.ok ⟨⟩, g s) := rfl

/-! ## Values -/

@[simp] theorem answers_pure {a b : α} :
    Answers (pure a : ExceptT Error (StateM σ) α) s b s' ↔ a = b ∧ s = s' := by
  show (Except.ok a, s) = (Except.ok b, s') ↔ _
  simp

@[simp] theorem answers_throw {e : Error} {b : α} :
    ¬ Answers (throw e : ExceptT Error (StateM σ) α) s b s' := by
  show ¬ (Except.error e, s) = (Except.ok b, s')
  simp

@[simp] theorem answers_get {t : σ} :
    Answers (get : ExceptT Error (StateM σ) σ) s t s' ↔ s = t ∧ s = s' := by
  show (Except.ok s, s) = (Except.ok t, s') ↔ _
  simp

@[simp] theorem answers_set {t : σ} {u : PUnit} :
    Answers (set t : ExceptT Error (StateM σ) PUnit) s u s' ↔ t = s' := by
  show (Except.ok PUnit.unit, t) = (Except.ok u, s') ↔ _
  simp

@[simp] theorem answers_modify {g : σ → σ} {u : PUnit} :
    Answers (modify g : ExceptT Error (StateM σ) PUnit) s u s' ↔ g s = s' := by
  show (Except.ok PUnit.unit, g s) = (Except.ok u, s') ↔ _
  simp

@[simp] theorem answers_liftExcept {x : Except Error α} {a : α} :
    Answers (liftExcept x : ExceptT Error (StateM σ) α) s a s' ↔ x = .ok a ∧ s = s' := by
  rw [Answers, outcome_liftExcept, Prod.mk.injEq]

@[simp] theorem answers_get_bind {f : σ → ExceptT Error (StateM σ) β} {b : β} :
    Answers (get >>= f) s b s' ↔ Answers (f s) s b s' := Iff.rfl

@[simp] theorem answers_set_bind {t : σ} {f : PUnit → ExceptT Error (StateM σ) β} {b : β} :
    Answers (set t >>= f) s b s' ↔ Answers (f ⟨⟩) t b s' := Iff.rfl

@[simp] theorem answers_modify_bind {g : σ → σ} {f : PUnit → ExceptT Error (StateM σ) β} {b : β} :
    Answers (modify g >>= f) s b s' ↔ Answers (f ⟨⟩) (g s) b s' := Iff.rfl

theorem answers_bind {b : β} :
    Answers (m >>= f) s b s' ↔ ∃ a t, Answers m s a t ∧ Answers (f a) t b s' := by
  unfold Answers
  rw [outcome_bind]
  cases outcome m s with
  | mk r t => cases r <;> simp [and_assoc]

theorem Answers.bind {a : α} {t : σ} {b : β} (h : Answers m s a t) (hf : Answers (f a) t b s') :
    Answers (m >>= f) s b s' :=
  answers_bind.2 ⟨a, t, h, hf⟩

theorem Answers.unique {a b : α} {t : σ} (h : Answers m s a s') (h' : Answers m s b t) :
    a = b ∧ s' = t := by
  simpa using (Eq.symm h).trans h'

/-! ## Errors -/

@[simp] theorem fails_throw {e e' : Error} :
    Fails (throw e : ExceptT Error (StateM σ) α) s e' s' ↔ e = e' ∧ s = s' := by
  show (Except.error e, s) = (Except.error e', s') ↔ _
  simp

@[simp] theorem fails_liftExcept {x : Except Error α} {e : Error} :
    Fails (liftExcept x : ExceptT Error (StateM σ) α) s e s' ↔ x = .error e ∧ s = s' := by
  rw [Fails, outcome_liftExcept, Prod.mk.injEq]

@[simp] theorem fails_get_bind {f : σ → ExceptT Error (StateM σ) β} {e : Error} :
    Fails (get >>= f) s e s' ↔ Fails (f s) s e s' := Iff.rfl

@[simp] theorem fails_set_bind {t : σ} {f : PUnit → ExceptT Error (StateM σ) β} {e : Error} :
    Fails (set t >>= f) s e s' ↔ Fails (f ⟨⟩) t e s' := Iff.rfl

theorem Fails.bind {e : Error} (h : Fails m s e s') : Fails (m >>= f) s e s' := by
  unfold Fails at h ⊢
  rw [outcome_bind, h]

theorem Answers.bind_fails {a : α} {t : σ} {e : Error} (h : Answers m s a t)
    (hf : Fails (f a) t e s') : Fails (m >>= f) s e s' := by
  unfold Fails Answers at *
  rw [outcome_bind, h]
  exact hf

theorem fails_bind {e : Error} :
    Fails (m >>= f) s e s' ↔ Fails m s e s' ∨ ∃ a t, Answers m s a t ∧ Fails (f a) t e s' := by
  unfold Fails Answers
  rw [outcome_bind]
  cases outcome m s with
  | mk r t => cases r <;> simp [and_assoc]

/-! ## Either end -/

variable {Q Q' : α → σ → Prop} {E E' : Error → σ → Prop}

@[simp] theorem ensures_pure {a : α} :
    Ensures (pure a : ExceptT Error (StateM σ) α) s Q E ↔ Q a s := Iff.rfl

@[simp] theorem ensures_throw {e : Error} :
    Ensures (throw e : ExceptT Error (StateM σ) α) s Q E ↔ E e s := Iff.rfl

@[simp] theorem ensures_get {Q : σ → σ → Prop} :
    Ensures (get : ExceptT Error (StateM σ) σ) s Q E ↔ Q s s := Iff.rfl

@[simp] theorem ensures_set {t : σ} {Q : PUnit → σ → Prop} :
    Ensures (set t : ExceptT Error (StateM σ) PUnit) s Q E ↔ Q ⟨⟩ t := Iff.rfl

@[simp] theorem ensures_modify {g : σ → σ} {Q : PUnit → σ → Prop} :
    Ensures (modify g : ExceptT Error (StateM σ) PUnit) s Q E ↔ Q ⟨⟩ (g s) := Iff.rfl

theorem ensures_liftExcept {x : Except Error α} :
    Ensures (liftExcept x : ExceptT Error (StateM σ) α) s Q E ↔
      (∀ a, x = .ok a → Q a s) ∧ ∀ e, x = .error e → E e s := by
  rw [Ensures, outcome_liftExcept]
  cases x <;> simp

@[simp] theorem ensures_bind {Q : β → σ → Prop} :
    Ensures (m >>= f) s Q E ↔ Ensures m s (fun a t => Ensures (f a) t Q E) E := by
  simp only [Ensures, outcome_bind]
  cases outcome m s with
  | mk r t => cases r <;> rfl

theorem Ensures.mono (h : Ensures m s Q E) (hQ : ∀ a t, Q a t → Q' a t)
    (hE : ∀ e t, E e t → E' e t) : Ensures m s Q' E' := by
  unfold Ensures at h ⊢
  split
  · next heq => rw [heq] at h; exact hQ _ _ h
  · next heq => rw [heq] at h; exact hE _ _ h

theorem Ensures.of_answers (h : Ensures m s Q E) {a : α} (ha : Answers m s a s') : Q a s' := by
  unfold Ensures at h
  rw [ha] at h
  exact h

theorem Ensures.of_fails (h : Ensures m s Q E) {e : Error} (he : Fails m s e s') : E e s' := by
  unfold Ensures at h
  rw [he] at h
  exact h

end SpanTree
