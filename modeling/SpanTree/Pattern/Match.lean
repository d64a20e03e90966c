import SpanTree.Pattern.Basic

/-!
# Matching

`Matches w p i j` says that `p` matches the stretch of `w` from position `i` to position `j`; a text
has as many positions as characters and one more. `ends w p is` computes all ends of matches that
begin at one of the positions `is`, in one pass over the pattern: a repetition is followed until no
new position turns up.
-/

namespace SpanTree

open CharClass (word)

namespace Look

/-- A character of a word stands at position `i`. -/
def isWordAt (w : Array Char) (i : Nat) : Bool :=
  match w[i]? with
  | some c => word.has c
  | none => false

/-- A character of a word stands before position `i`. -/
def isWordBefore (w : Array Char) (i : Nat) : Bool := i != 0 && isWordAt w (i - 1)

def holds (w : Array Char) (i : Nat) : Look → Bool
  | textStart => i == 0
  | textEnd => i == w.size
  | lineStart => i == 0 || w[i - 1]? == some '\n'
  | lineEnd => i == w.size || w[i]? == some '\n'
  | wordBoundary => isWordBefore w i != isWordAt w i
  | noWordBoundary => isWordBefore w i == isWordAt w i
  | wordStart => !isWordBefore w i && isWordAt w i
  | wordEnd => isWordBefore w i && !isWordAt w i
  | wordStartHalf => !isWordBefore w i
  | wordEndHalf => !isWordAt w i

end Look

namespace Pattern

/-- The pattern matches the stretch from `i` to `j`. -/
inductive Matches (w : Array Char) : Pattern → Nat → Nat → Prop
  | empty (i : Nat) : i ≤ w.size → Matches w .empty i i
  | char {cls : CharClass} {i : Nat} {c : Char} :
    w[i]? = some c → cls.has c = true → Matches w (.char cls) i (i + 1)
  | look {l : Look} {i : Nat} : i ≤ w.size → l.holds w i = true → Matches w (.look l) i i
  | seq {p q : Pattern} {i j k : Nat} :
    Matches w p i j → Matches w q j k → Matches w (.seq p q) i k
  | altLeft {p q : Pattern} {i j : Nat} : Matches w p i j → Matches w (.alt p q) i j
  | altRight {p q : Pattern} {i j : Nat} : Matches w q i j → Matches w (.alt p q) i j
  | stop {p : Pattern} {extra : Option Nat} {i : Nat} :
    i ≤ w.size → Matches w (.many p 0 extra) i i
  | least {p : Pattern} {n : Nat} {extra : Option Nat} {i j k : Nat} :
    Matches w p i j → Matches w (.many p n extra) j k → Matches w (.many p (n + 1) extra) i k
  | bounded {p : Pattern} {n : Nat} {i j k : Nat} :
    Matches w p i j → Matches w (.many p 0 (some n)) j k →
      Matches w (.many p 0 (some (n + 1))) i k
  | unbounded {p : Pattern} {i j k : Nat} :
    Matches w p i j → Matches w (.many p 0 none) j k → Matches w (.many p 0 none) i k

/-- The union of two increasing lists of positions. -/
def unite : List Nat → List Nat → List Nat
  | [], js => js
  | is, [] => is
  | i :: is, j :: js =>
    if i < j then i :: unite is (j :: js)
    else if j < i then j :: unite (i :: is) js
    else i :: unite is js
termination_by is js => is.length + js.length

/-- `n` steps in a row, or fewer if the positions do not change any more. -/
def repeated (step : List Nat → List Nat) : Nat → List Nat → List Nat
  | 0, is => is
  | n + 1, is => if step is = is then is else repeated step n (step is)

/-- Everything reached by at most `n` steps from the positions `new`; those in `seen` have been
followed already. -/
def reached (step : List Nat → List Nat) : Nat → List Nat → List Nat → List Nat
  | 0, seen, _ => seen
  | n + 1, seen, new =>
    let fresh := (step new).filter fun j => !seen.contains j
    if fresh.isEmpty then seen else reached step n (unite seen fresh) fresh

def ends (w : Array Char) : Pattern → List Nat → List Nat
  | empty, is => is
  | char cls, is =>
    (is.filter fun i =>
      match w[i]? with
      | some c => cls.has c
      | none => false).map (· + 1)
  | look l, is => is.filter fun i => l.holds w i
  | seq p q, is => q.ends w (p.ends w is)
  | alt p q, is => unite (p.ends w is) (q.ends w is)
  | many p least extra, is =>
    let start := repeated (p.ends w) least is
    match extra with
    | some n => reached (p.ends w) n start start
    | none => reached (p.ends w) (w.size + 1) start start

/-- Some stretch of the text is matched. -/
def occursIn (p : Pattern) (w : Array Char) : Bool :=
  !(p.ends w (List.range (w.size + 1))).isEmpty

end Pattern

end SpanTree
