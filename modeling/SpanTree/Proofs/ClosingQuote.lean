import Mathlib.Algebra.Ring.Parity
import Mathlib.Data.List.DropRight
import Mathlib.Order.Bounds.Defs
import SpanTree.Proofs.Literal

/-!
# Backslashes in front of quotes

A quote behind an odd run of backslashes is protected. Behind an even run it is not: there each
backslash is taken by another one. **Escaped bytes read back as what they were, whatever they look
like, and between quotes they end at the first quote that is not protected**
(`escape_between_quotes`).

`closeQuote` reads from the left and counts nothing: a backslash takes the next character with it.
The run in front of a place is counted from there to the left. The two agree
(`odd_iff_lt_closeQuote`), because **`closeQuote` looks for a quote only behind an even run**: what
it passes in one step is a backslash with its character, which lengthens the run by two or ends it,
or another character, which ends it.
-/

namespace SpanTree.Text

variable {c : Char} {cs front inside rest : List Char} {i : Nat}

/-! ## Runs of backslashes -/

/-- The number of backslashes with which a text ends. -/
def trailingBackslashes (cs : List Char) : Nat := (cs.rtakeWhile (· = '\\')).length

theorem trailingBackslashes_backslash (cs : List Char) :
    trailingBackslashes (cs ++ ['\\']) = trailingBackslashes cs + 1 := by
  rw [trailingBackslashes, List.rtakeWhile_concat_pos _ _ _ (by decide), List.length_append]
  rfl

theorem trailingBackslashes_other (h : c ≠ '\\') (cs : List Char) :
    trailingBackslashes (cs ++ [c]) = 0 := by
  rw [trailingBackslashes, List.rtakeWhile_concat_neg _ _ _ (by simpa using h), List.length_nil]

/-- Behind a character that is no backslash the run is even, whatever it was before. -/
theorem even_behind_other (h : c ≠ '\\') (front : List Char) :
    Even (trailingBackslashes (front ++ [c])) := by
  rw [trailingBackslashes_other h]
  exact Even.zero

/-- Behind a backslash and the character that it takes the run is as even as it was. -/
theorem even_behind_pair (hfront : Even (trailingBackslashes front)) (c : Char) :
    Even (trailingBackslashes (front ++ ['\\', c])) := by
  rw [List.append_cons]
  by_cases hc : c = '\\'
  · rw [hc, trailingBackslashes_backslash, trailingBackslashes_backslash, add_assoc]
    exact hfront.add even_two
  · exact even_behind_other hc _

/-! ## The first quote that is not protected -/

/-- At place `i` stands a double quote that is not preceded by an odd run of backslashes. -/
def IsBareQuote (text : List Char) (i : Nat) : Prop :=
  text[i]? = some '"' ∧ ¬ Odd (trailingBackslashes (text.take i))

/-- **Of the quotes up to the one that closes, those inside are protected, and that one is not.** -/
theorem odd_iff_lt_closeQuote (hfront : Even (trailingBackslashes front))
    (hquote : cs[i]? = some '"') (hi : i ≤ (closeQuote cs).1.length) :
    Odd (trailingBackslashes (front ++ cs.take i)) ↔ i < (closeQuote cs).1.length := by
  fun_induction closeQuote cs generalizing front i with
  | case1 => cases hquote
  | case2 cs =>
    obtain rfl := Nat.le_zero.1 hi
    rw [List.take_zero, List.append_nil]
    simpa using hfront
  | case3 c cs ih =>
    rcases i with _ | _ | i
    · cases hquote
    · -- the character that the backslash takes
      have hodd : Odd (trailingBackslashes (front ++ ['\\'])) := by
        rw [trailingBackslashes_backslash]
        exact hfront.add_one
      simpa using hodd
    · have hnext := ih (even_behind_pair hfront c) hquote (by simpa using hi)
      simpa using hnext
  | case4 c cs hnot hpair ih =>
    cases i with
    | zero => exact absurd (Option.some.inj hquote) hnot
    | succ i =>
      -- A backslash here would be the last character, but a quote comes behind it.
      have hc : c ≠ '\\' := by
        rintro rfl
        cases cs with
        | nil => cases hquote
        | cons d ds => exact hpair d ds rfl rfl
      have hnext := ih (even_behind_other hc front) hquote (by simpa using hi)
      simpa using hnext

/-- **Where `closeQuote` stops is the first quote behind the opening one that is not protected.** -/
theorem isLeast_bareQuote (hclose : closeQuote cs = (inside, rest))
    (hcs : cs = inside ++ '"' :: rest) :
    IsLeast {i | 0 < i ∧ IsBareQuote ('"' :: cs) i} (inside.length + 1) := by
  have hopening : Even (trailingBackslashes ['"']) := even_behind_other (by decide) []
  have hinside : (closeQuote cs).1.length = inside.length := by rw [hclose]
  constructor
  · have hquote : cs[inside.length]? = some '"' := by simp [hcs]
    refine ⟨Nat.succ_pos _, hquote, fun hodd => ?_⟩
    have hlt := (odd_iff_lt_closeQuote hopening hquote hinside.ge).1 hodd
    exact Nat.lt_irrefl _ (hinside ▸ hlt)
  · rintro (_ | i) ⟨hpos, hquote, hbare⟩
    · exact absurd hpos (Nat.lt_irrefl 0)
    have hplace : cs[i]? = some '"' := hquote
    by_contra hlt
    have hi : i < (closeQuote cs).1.length := by omega
    exact hbare ((odd_iff_lt_closeQuote hopening hplace hi.le).2 hi)

/-! ## Escaped bytes between quotes -/

/-- **Escaped bytes are printable, read back as what they were, follow one another as the bytes do,
and between quotes end at the first quote that no odd run of backslashes precedes.** -/
theorem escape_between_quotes (as bs : Bytes) (rest : List Char) :
    (∀ c ∈ escape bs, ' ' ≤ c ∧ c ≤ '~') ∧ unescape (escape bs) = some bs ∧
      (escape as = escape bs ↔ as = bs) ∧ escape (as ++ bs) = escape as ++ escape bs ∧
      IsLeast {i | 0 < i ∧ IsBareQuote ('"' :: (escape bs ++ '"' :: rest)) i}
        ((escape bs).length + 1) :=
  ⟨escape_printable bs, unescape_escape bs, escape_inj, escape_append as bs,
    isLeast_bareQuote (closeQuote_escape bs rest) rfl⟩

/-- Bytes that look like an escape, with a quote among them and a backslash at their end, in front
of another quote. -/
theorem escape_between_quotes_lookalike :
    let bs : Bytes := [0x5C, 0x78, 0x34, 0x31, 0x22, 0x0A, 0xFF, 0x5C]
    let text := '"' :: (escape bs ++ ['"', '"', 'x'])
    ('f' ∈ escape bs ∧ ' ' ≤ 'f' ∧ 'f' ≤ '~') ∧ unescape (escape bs) = some bs ∧
      escape [0x41, 0x22, 0x0A, 0xFF, 0x5C] ≠ escape bs ∧
      IsLeast {i | 0 < i ∧ IsBareQuote text i} 16 := by
  intro bs text
  obtain ⟨hprintable, hread, hinj, -, hclosing⟩ :=
    escape_between_quotes [0x41, 0x22, 0x0A, 0xFF, 0x5C] bs ['"', 'x']
  have hmem : 'f' ∈ escape bs := by decide
  exact ⟨⟨hmem, hprintable 'f' hmem⟩, hread, mt hinj.1 (by decide), hclosing⟩

end SpanTree.Text
