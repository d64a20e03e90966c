import SpanTree.Pattern.Engine
import Mathlib.Computability.Language

/-!
# The usual meaning of patterns

What is relied on of an engine for patterns: that alternatives, sequences, groups and the anchors
`^` and `$` mean what they usually mean. Nothing is said of all the rest of the notation, of what
repeats an element, of classes, escapes and flags.

A pattern means alternatives, and each alternative is a sequence of elements. What an element means
is the set of stretches of a text that it matches, as looks around such a stretch count as well.
-/

namespace SpanTree

/-- The stretches of a text that something matches, from one position to another. -/
abbrev Sense := List Char → Nat → Nat → Prop

namespace Sense

/-- What `^` matches. -/
def atStart : Sense := fun _ i j => i = 0 ∧ j = 0

/-- What `$` matches. -/
def atEnd : Sense := fun w i j => i = w.length ∧ j = w.length

end Sense

/-- The alternatives of a pattern, each with its elements one behind the other. -/
abbrev Reading := List (List Sense)

namespace Reading

/-- The elements match one behind the other. -/
def Chain (w : List Char) : List Sense → Nat → Nat → Prop
  | [], i, j => i = j
  | s :: ss, i, j => ∃ k, s w i k ∧ Chain w ss k j

/-- Some alternative matches the stretch. This is also what the pattern means in a group, which is a
single element. -/
def Matches (r : Reading) : Sense :=
  fun w i j => i ≤ j ∧ j ≤ w.length ∧ ∃ ss ∈ r, Chain w ss i j

/-- The texts that are matched as a whole. -/
def language (r : Reading) : Language Char := {w | r.Matches w 0 w.length}

/-- One more element in front belongs to the first alternative. -/
def before (s : Sense) : Reading → Reading
  | [] => []
  | ss :: r => (s :: ss) :: r

/-- Between anchors a group matches somewhere if and only if it matches the whole text. -/
theorem matches_between_anchors {r : Reading} {w : List Char} :
    (∃ i j, Matches [[.atStart, r.Matches, .atEnd]] w i j) ↔ w ∈ r.language := by
  constructor
  · rintro ⟨i, j, -, -, ss, hss, h⟩
    obtain rfl := List.mem_singleton.1 hss
    obtain ⟨_, ⟨rfl, rfl⟩, _, hr, _, ⟨rfl, -⟩, -⟩ := h
    exact hr
  · intro h
    refine ⟨0, w.length, Nat.zero_le _, Nat.le_refl _, _, List.mem_singleton_self _, ?_⟩
    exact ⟨0, ⟨rfl, rfl⟩, w.length, h, w.length, ⟨rfl, rfl⟩, rfl⟩

end Reading

/-- The text begins with an operator that repeats what stands in front of it. -/
def BeginsWithOperator (cs : List Char) : Prop := ∃ c ∈ ['*', '+', '?', '\x7b'], c ∈ cs.head?

/-- What texts mean as patterns, whatever their size. -/
structure Meaning where
  /-- What a text means by itself, unless it is malformed. -/
  pattern? : List Char → Option Reading
  /-- What a text means as the inside of a group, up to the parenthesis that closes the group, and
  the text behind that. -/
  group? : List Char → Option (Reading × List Char)

/-- Alternatives, sequences, groups and anchors have their usual meaning. -/
structure Meaning.Usual (meaning : Meaning) : Prop where
  /-- In front of a text `^` is an element of its own. An operator would repeat it. -/
  caret {cs : List Char} (h : ¬ BeginsWithOperator cs) :
    meaning.pattern? ('^' :: cs) = (meaning.pattern? cs).map (.before .atStart)
  /-- A group in front of a text is an element of its own, too. The text behind it is a pattern by
  itself; the converse is not said, as groups may be named and no name may be used twice. -/
  group {cs : List Char} {r : Reading} (h : meaning.pattern? ('(' :: '?' :: ':' :: cs) = some r) :
    ∃ m rest, meaning.group? cs = some (m, rest) ∧
      (¬ BeginsWithOperator rest →
        ∃ r', meaning.pattern? rest = some r' ∧ r = .before m.Matches r')
  /-- Behind a group `$` is an element of its own. -/
  dollar {cs : List Char} {m : Reading} (h : meaning.group? cs = some (m, ['$'])) :
    meaning.pattern? ('(' :: '?' :: ':' :: cs) = some [[m.Matches, .atEnd]]
  /-- What stands in a group is a pattern by itself, and a parenthesis follows. -/
  inside {cs rest : List Char} {m : Reading} (h : meaning.group? cs = some (m, rest)) :
    ∃ p, cs = p ++ ')' :: rest ∧ meaning.pattern? p = some m
  /-- A pattern may stand in a group. The parenthesis behind it closes the group, unless it is read
  as a part of the pattern. -/
  closed {p rest : List Char} {m : Reading} (h : meaning.pattern? p = some m)
    (hparen : meaning.pattern? (p ++ [')']) = none) :
    meaning.group? (p ++ ')' :: rest) = some (m, rest)
  /-- A pattern takes a parenthesis behind it only into a comment, which then takes a dollar as
  well. -/
  comment {p : List Char} {m m' : Reading} (h : meaning.pattern? p = some m)
    (hparen : meaning.pattern? (p ++ [')']) = some m') :
    meaning.group? (p ++ ')' :: ['$']) = none

/-- An engine that compiles a text gives it its meaning. It may refuse more than what is
malformed. -/
def PatternEngine.Follows (engine : PatternEngine) (meaning : Meaning) : Prop :=
  ∀ cs c, engine.compile cs = .ok c → ∃ r, meaning.pattern? cs = some r ∧
    ∀ w, engine.occursIn c w = true ↔ ∃ i j, r.Matches w i j

end SpanTree
