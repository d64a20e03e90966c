import SpanTree.Tree
import SpanTree.Pattern.Engine

/-!
# Visiting nodes by their paths

The path of a node is the chain of names from the root down to it, joined by dots. A walk goes
through the nodes in pre-order and hands those whose path is wanted to a visitor, until the visitor
asks to stop; what the visitor knows is threaded through.

A pattern addresses the nodes whose path it matches: it stands between anchors in a group of its
own. What it matches is told by an engine, which is given from outside.
-/

namespace SpanTree

namespace Node

variable {σ : Type} (wanted : List Char → Bool) (visit : σ → Node → σ × Bool)

mutual

/-- The state after the visits below a node, and whether the walk goes on. -/
def walk (above : List Char) : Node → σ → σ × Bool
  | ⟨name, start, stop, children⟩, s =>
    let path := above ++ name.toList
    let step := if wanted path then visit s ⟨name, start, stop, children⟩ else (s, true)
    if step.2 then walkAll (path ++ ['.']) children step.1 else step

def walkAll (above : List Char) : List Node → σ → σ × Bool
  | [], s => (s, true)
  | n :: ns, s =>
    let step := walk above n s
    if step.2 then walkAll above ns step.1 else step

end

end Node

namespace Tree

/-- The pattern between anchors. The group is textual: parentheses that are unbalanced in the
pattern pair up with its own. -/
def anchored (pattern : String) : List Char :=
  ['^', '(', '?', ':'] ++ pattern.toList ++ [')', '$']

/-- Visits the texts of the nodes that the pattern addresses. -/
def visitMatches {σ : Type} (t : Tree) (engine : PatternEngine) (pattern : String)
    (visit : σ → Bytes → σ × Bool) (s : σ) : Except Error σ :=
  match engine.compile (anchored pattern) with
  | .error reason => .error (.pattern reason)
  | .ok p =>
    .ok (t.root.walk (engine.occursIn p) (fun s n => visit s (n.text t.raw)) [] s).1

end Tree

end SpanTree
