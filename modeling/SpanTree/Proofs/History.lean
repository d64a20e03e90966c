import SpanTree.Proofs.RoundTrip

/-!
# The accepted trees of a run

`Session.history` lists the trees that a run accepts, each with the session right after it, which
says what names were known and what bytes had been written by then.

The names may be forgotten at any time (`Action.Runs`), and this leaves no mark in the bytes. So one
frame is not always written with the names that were known right behind the frame before it. What
holds of every run is `Emits`: it is written with the first of these names, be it all or none.
-/

namespace SpanTree

open Bill
open SpanTree.Stream (Action)

/-- Actions that append only trees with the property, and may also forget all names. -/
def Stream.Action.Runs (P : Tree → Prop) : Action → Prop
  | append t => P t
  | take => True
  | resetDictionary => True
  | _ => False

theorem Stream.Action.Runs.grows {P : Tree → Prop} {action : Action} (h : action.Runs P)
    (hkept : action ≠ .resetDictionary) : action.Grows P := by
  cases action with
  | append => exact h
  | take => trivial
  | resetDictionary => exact absurd rfl hkept
  | header | omitRoots | terminator => exact h.elim

theorem Stream.Action.Grows.runs {P : Tree → Prop} {action : Action} (h : action.Grows P) :
    action.Runs P := by
  cases action with
  | append => exact h
  | take => trivial
  | header | omitRoots | terminator | resetDictionary => exact h.elim

theorem Dictionary.extends_reset (d : Dictionary) : d.Extends d.reset :=
  ⟨rfl, List.nil_prefix⟩

namespace Session

variable {s s' s'' : Session} {t : Tree} {e : Error} {action : Action} {body : List Action}
  {P : Tree → Prop} {mode : RootMode} {block : Bytes} {d d' : Dictionary}
  {us : List (Tree × Session)}

/-- The trees that a run accepts, each with the session right after it. -/
def history (s : Session) : List Action → List (Tree × Session)
  | [] => []
  | .append t :: actions =>
    match (s.stream.append t).result with
    | .ok () => (t, s.step (.append t)) :: history (s.step (.append t)) actions
    | .error _ => history (s.step (.append t)) actions
  | action :: actions => history (s.step action) actions

theorem accepted_run (s : Session) (actions : List Action) :
    (s.run actions).accepted = s.accepted ++ (s.history actions).map (·.1) := by
  induction actions generalizing s with
  | nil => exact (List.append_nil _).symm
  | cons action actions ih =>
    rw [run_cons, ih]
    cases action with
    | append t =>
      cases hresult : (s.stream.append t).result with
      | ok u =>
        have hstep : (s.step (.append t)).accepted = s.accepted ++ [t] := by
          simp only [step, hresult]
        rw [hstep, history, hresult]
        exact List.append_assoc ..
      | error e =>
        have hstep : (s.step (.append t)).accepted = s.accepted := by simp only [step, hresult]
        rw [hstep, history, hresult]
    | header | omitRoots | take | terminator | resetDictionary => rfl

/-- From one session to another, these trees were accepted. Each was written with names that were
known right after the one before. -/
inductive Emits (mode : RootMode) : Session → List (Tree × Session) → Session → Prop
  | nil {s s' : Session} (hwritten : s'.written = s.written) : Emits mode s [] s'
  | cons {s s₁ s' : Session} {t : Tree} {us : List (Tree × Session)} {d : Dictionary}
      {block : Bytes} (hd : s.stream.dict.Extends d)
      (h : Answers (encodeTree t mode) d block s₁.stream.dict)
      (hwritten : s₁.written = s.written ++ Stream.frame t.raw block) (hrest : Emits mode s₁ us s') :
      Emits mode s ((t, s₁) :: us) s'

/-- An action that writes nothing and at most forgets names. -/
theorem Emits.behind (hwritten : s'.written = s.written)
    (hdict : s.stream.dict.Extends s'.stream.dict) (h : Emits mode s' us s'') :
    Emits mode s us s'' := by
  cases h with
  | nil h => exact .nil (h.trans hwritten)
  | cons hd h hwritten' hrest => exact .cons (hdict.trans hd) h (by rw [hwritten', hwritten]) hrest

theorem Emits.written_prefix (h : Emits mode s us s') : s.written <+: s'.written := by
  induction h with
  | nil hwritten => exact hwritten ▸ List.prefix_rfl
  | cons _ _ hwritten _ ih =>
    rw [hwritten] at ih
    exact (List.prefix_append _ _).trans ih

theorem run_emits (hbody : ∀ action ∈ body, action.Runs P) (hmode : s.stream.mode = mode) :
    Emits mode s (s.history body) (s.run body) ∧ ∀ u ∈ s.history body, P u.1 := by
  induction body generalizing s with
  | nil => exact ⟨.nil rfl, by simp [history]⟩
  | cons action body ih =>
    have haction := hbody action (.head _)
    replace ih := fun s => @ih s fun a ha => hbody a (.tail _ ha)
    rw [run_cons]
    cases action with
    | append t =>
      cases hrun : outcome (encodeTree t s.stream.mode) s.stream.dict with
      | mk result d' =>
        cases result with
        | ok block =>
          have hwrites := step_append_of_answers hrun
          have hdict := (hwrites.frames.unique (.single hrun)).2
          obtain ⟨hemits, hrest⟩ := ih _ (hwrites.mode.trans hmode)
          rw [history, (Stream.append_of_answers hrun).1]
          rw [hmode] at hrun
          refine ⟨.cons (.refl _) (hdict ▸ hrun) hwrites.written hemits, fun u hu => ?_⟩
          rcases List.mem_cons.1 hu with rfl | hu
          · exact haction
          · exact hrest u hu
        | error e =>
          obtain ⟨hresult, hstate⟩ := Stream.append_of_fails hrun
          have hstep : s.step (.append t) = s := by simp only [step, hresult, hstate]
          rw [history, hresult, hstep]
          exact ih s hmode
    | take =>
      obtain ⟨hemits, hrest⟩ := ih (s.step .take) hmode
      have hwritten : (s.step .take).written = s.written := by
        simp [step, Stream.takeBytes, written]
      have hbehind := hemits.behind hwritten (.refl _)
      exact ⟨hbehind, hrest⟩
    | resetDictionary =>
      obtain ⟨hemits, hrest⟩ := ih (s.step .resetDictionary) hmode
      have hdict : s.stream.dict.Extends (s.step .resetDictionary).stream.dict :=
        Dictionary.extends_reset _
      have hwritten : (s.step .resetDictionary).written = s.written := rfl
      have hbehind := hemits.behind hwritten hdict
      exact ⟨hbehind, hrest⟩
    | header | omitRoots | terminator => exact haction.elim

end Session

end SpanTree
