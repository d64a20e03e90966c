import SpanTree.Pattern.Class

/-!
# Patterns

A pattern is read as the set of stretches of a text that it matches. Besides the usual operations it
has **looks**, which take no characters but ask about the place where they stand.

Whether a pattern prefers long or short stretches makes no difference to the set, so it is not kept.
-/

namespace SpanTree

inductive Look
  | textStart
  | textEnd
  | lineStart
  | lineEnd
  | wordBoundary
  | noWordBoundary
  | wordStart
  | wordEnd
  | wordStartHalf
  | wordEndHalf
deriving DecidableEq, Repr

inductive Pattern
  | empty
  | char (cls : CharClass)
  | look (l : Look)
  | seq (p q : Pattern)
  | alt (p q : Pattern)
  /-- At least `least` times, and at most `extra` times more if there is a bound. -/
  | many (p : Pattern) (least : Nat) (extra : Option Nat)
deriving DecidableEq, Repr

end SpanTree
