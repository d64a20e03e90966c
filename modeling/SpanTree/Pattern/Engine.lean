import SpanTree.Pattern.Match
import SpanTree.Pattern.Parse

/-!
# Engines for patterns

An engine compiles the text of a pattern, or says why it does not, and tells of a text whether some
stretch of it is matched. An engine may have limits of its own on the size of a pattern; the
standard engine refuses malformed texts only.
-/

namespace SpanTree

structure PatternEngine where
  Compiled : Type
  compile : List Char → Except String Compiled
  occursIn : Compiled → List Char → Bool

def PatternEngine.standard : PatternEngine where
  Compiled := Pattern
  compile := Pattern.parse
  occursIn p w := p.occursIn w.toArray

end SpanTree
