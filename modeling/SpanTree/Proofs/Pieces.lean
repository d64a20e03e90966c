import Mathlib.Data.List.TakeWhile
import SpanTree.Text.Pieces

/-!
# Cutting and uniting

Pieces hold no separator, and what is united from such pieces is cut into them again. So a text and
its pieces tell the same (`unite_eq_iff`).
-/

namespace SpanTree

namespace Text

variable {sep : Char} {cs p : List Char} {ps : List (List Char)}

theorem not_mem_pieces (hp : p ∈ pieces sep cs) : sep ∉ p := by
  induction cs generalizing p with
  | nil =>
    rw [List.mem_singleton.1 hp]
    simp
  | cons c cs ih =>
    rw [pieces_cons] at hp
    by_cases hc : c = sep
    · rw [if_pos hc] at hp
      rcases List.mem_cons.1 hp with rfl | hp
      · simp
      · exact ih hp
    · rw [if_neg hc] at hp
      cases hpieces : pieces sep cs with
      | nil => exact absurd hpieces (pieces_ne_nil sep cs)
      | cons q qs =>
        rw [hpieces] at hp ih
        rcases List.mem_cons.1 hp with rfl | hp
        · have hq := ih (.head _)
          simp [Ne.symm hc, hq]
        · exact ih (.tail _ hp)

theorem pieces_append (sep : Char) (cs ds : List Char) :
    pieces sep (cs ++ sep :: ds) = pieces sep cs ++ pieces sep ds := by
  induction cs with
  | nil => simp [pieces_cons]
  | cons c cs ih =>
    rw [List.cons_append, pieces_cons, pieces_cons, ih]
    by_cases hc : c = sep
    · rw [if_pos hc, if_pos hc]
      rfl
    · rw [if_neg hc, if_neg hc]
      cases hcs : pieces sep cs with
      | nil => exact absurd hcs (pieces_ne_nil sep cs)
      | cons p ps => rfl

theorem pieces_of_not_mem (h : sep ∉ cs) : pieces sep cs = [cs] := by
  induction cs with
  | nil => rfl
  | cons c cs ih =>
    obtain ⟨hc, hcs⟩ := not_or.1 (mt List.mem_cons.2 h)
    rw [pieces_cons, if_neg (Ne.symm hc), ih hcs]
    rfl

/-- What was united is cut at the same places again. -/
theorem pieces_unite (hne : ps ≠ []) (h : ∀ p ∈ ps, sep ∉ p) : pieces sep (unite sep ps) = ps := by
  induction ps with
  | nil => exact absurd rfl hne
  | cons p ps ih =>
    have hp := pieces_of_not_mem (h p (.head _))
    cases ps with
    | nil => exact hp
    | cons q qs =>
      have hrest := ih (List.cons_ne_nil q qs) fun r hr => h r (.tail _ hr)
      show pieces sep (p ++ sep :: unite sep (q :: qs)) = _
      rw [pieces_append, hp, hrest]
      rfl

theorem unite_cons (h : ps ≠ []) : unite sep (p :: ps) = p ++ sep :: unite sep ps := by
  cases ps with
  | nil => exact absurd rfl h
  | cons q qs => rfl

theorem unite_eq_iff (hne : ps ≠ []) (h : ∀ p ∈ ps, sep ∉ p) :
    unite sep ps = cs ↔ ps = pieces sep cs := by
  constructor
  · rintro rfl
    exact (pieces_unite hne h).symm
  · rintro rfl
    exact unite_pieces sep cs

/-- An empty piece behind others is behind a separator. -/
theorem unite_concat_nil (h : ps ≠ []) : unite sep (ps ++ [[]]) = unite sep ps ++ [sep] := by
  induction ps with
  | nil => exact absurd rfl h
  | cons p ps ih =>
    cases ps with
    | nil => simp [unite]
    | cons q qs =>
      have hrest := ih (List.cons_ne_nil q qs)
      have hne : q :: qs ++ [[]] ≠ [] := by simp
      rw [List.cons_append, unite_cons hne, hrest, unite_cons (List.cons_ne_nil q qs),
        List.append_assoc, List.cons_append]

theorem cut_of_not_mem (h : sep ∉ cs) : cut sep cs = (cs, none) := by
  have hdrop : cs.dropWhile (· != sep) = [] := by
    rw [List.dropWhile_eq_nil_iff]
    intro c hc
    exact bne_iff_ne.2 fun heq => h (heq ▸ hc)
  rw [cut, hdrop]

theorem cut_append (h : sep ∉ p) (cs : List Char) : cut sep (p ++ sep :: cs) = (p, some cs) := by
  have hp : ∀ c ∈ p, (c != sep) = true := fun c hc => bne_iff_ne.2 fun heq => h (heq ▸ hc)
  have hdrop : (p ++ sep :: cs).dropWhile (· != sep) = sep :: cs := by
    rw [List.dropWhile_append_of_pos hp]
    simp
  rw [cut, hdrop, List.takeWhile_append_of_pos hp]
  simp

end Text

end SpanTree
