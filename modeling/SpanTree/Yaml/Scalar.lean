import SpanTree.Yaml.Character

/-!
# Scalars

The texts of plain, quoted and block scalars. In plain and quoted scalars a line break is folded: a
single one becomes a space, of several the first is dropped. A block scalar is literal or folded,
and its last breaks are kept, clipped to one or stripped.
-/

namespace SpanTree.Yaml

inductive Style
  | plain
  | single
  | double
  | literal
  | folded
deriving DecidableEq, Repr

/-- White space inside a scalar: blanks on one line, or breaks, the first of them apart. -/
structure Gap where
  blanks : List Char := []
  first : Option Char := none
  more : List Char := []
  isBroken : Bool := false

/-- What a gap contributes to the scalar. -/
def Gap.text (g : Gap) : List Char :=
  if g.isBroken then
    match g.first with
    | some '\n' => if g.more.isEmpty then [' '] else g.more
    | some c => c :: g.more
    | none => g.more
  else g.blanks

/-- The blanks and breaks at the front. In a plain scalar a tab may not stand in for indentation
before the column `indent`. -/
def readGap (indent : Option Nat) : (fuel : Nat) → Gap → Place → Except String (Gap × Place)
  | 0, g, p => .ok (g, p)
  | fuel + 1, g, p =>
    match p.peek with
    | none => .ok (g, p)
    | some c =>
      if isBlank c then
        if g.isBroken && c = '\t' && indent.any fun i => p.column < i then
          .error "tab in the indentation"
        else if g.isBroken then readGap indent fuel g (p.skip 1)
        else readGap indent fuel { g with blanks := g.blanks ++ [c] } (p.skip 1)
      else if isBreak c then
        if g.isBroken then
          readGap indent fuel { g with more := g.more ++ [breakChar c] } p.skipBreak
        else
          readGap indent fuel { g with blanks := [], first := some (breakChar c), isBroken := true }
            p.skipBreak
      else .ok (g, p)

/-! ## Plain scalars -/

def isFlowIndicator (c : Char) : Bool :=
  c = ',' || c = '[' || c = ']' || c = '\x7b' || c = '\x7d'

/-- The characters of a plain scalar up to white space or to what ends it. -/
def plainWord (inFlow : Bool) : (fuel : Nat) → List Char → Place →
    Except String (List Char × Place)
  | 0, out, p => .ok (out, p)
  | fuel + 1, out, p =>
    match p.peek with
    | none => .ok (out, p)
    | some c =>
      let next := p.peekAt 1
      if isBlank c || isBreak c then .ok (out, p)
      else if inFlow && c = ':' && (next.map fun d => isFlowIndicator d || d = '?').getD false then
        .error "unexpected colon"
      else if (c = ':' && isBlankOrEnd next) || (inFlow && isFlowIndicator c) then .ok (out, p)
      else plainWord inFlow fuel (c :: out) (p.skip 1)

/-- A plain scalar, of which `out` has been read in reverse; the gap comes before what follows. The
last component tells whether it ends behind a line break. -/
def plainFrom (inFlow : Bool) (indent : Nat) : (fuel : Nat) → List Char → Gap → Place →
    Except String (List Char × Place × Bool)
  | 0, out, g, p => .ok (out, p, g.isBroken)
  | fuel + 1, out, g, p =>
    if p.isDocumentMarker || p.peek = some '#' then .ok (out, p, g.isBroken)
    else do
      let (word, q) ← plainWord inFlow (p.rest.length + 1) [] p
      let (out, g) := if word.isEmpty then (out, g) else (word ++ g.text.reverse ++ out, {})
      match q.peek with
      | none => return (out, q, g.isBroken)
      | some c =>
        if isBlank c || isBreak c then
          let (g, q) ← readGap (some indent) (q.rest.length + 1) g q
          if !inFlow && q.column < indent then return (out, q, g.isBroken)
          else plainFrom inFlow indent fuel out g q
        else return (out, q, g.isBroken)

def plain (inFlow : Bool) (indent : Nat) (p : Place) :
    Except String (List Char × Place × Bool) := do
  let (out, q, broken) ← plainFrom inFlow indent (p.rest.length + 1) [] {} p
  return (out.reverse, q, broken)

/-! ## Quoted scalars -/

def simpleEscape? : Char → Option Nat
  | '0' => some 0x00
  | 'a' => some 0x07
  | 'b' => some 0x08
  | 't' | '\t' => some 0x09
  | 'n' => some 0x0A
  | 'v' => some 0x0B
  | 'f' => some 0x0C
  | 'r' => some 0x0D
  | 'e' => some 0x1B
  | ' ' => some 0x20
  | '"' => some 0x22
  | '/' => some 0x2F
  | '\\' => some 0x5C
  | 'N' => some 0x85
  | '_' => some 0xA0
  | 'L' => some 0x2028
  | 'P' => some 0x2029
  | _ => none

def hexWidth? : Char → Option Nat
  | 'x' => some 2
  | 'u' => some 4
  | 'U' => some 8
  | _ => none

def hexValue? (cs : List Char) : Option Nat :=
  cs.foldl
    (fun n? d => n?.bind fun n =>
      if d.isDigit then some (16 * n + (d.toNat - 48))
      else if 'a' ≤ d.toLower ∧ d.toLower ≤ 'f' then some (16 * n + (d.toLower.toNat - 87))
      else none)
    (some 0)

/-- The character of an escape behind its backslash, and how many characters it takes. -/
def escapeAt (p : Place) : Except String (Char × Nat) :=
  match p.peek with
  | none => .error "unknown escape"
  | some c =>
    match simpleEscape? c, hexWidth? c with
    | some n, _ => .ok (Char.ofNat n, 1)
    | none, some width =>
      let ds := (p.rest.drop 1).take width
      match hexValue? ds with
      | some n =>
        if ds.length = width ∧ n.isValidChar then .ok (Char.ofNat n, width + 1)
        else .error "invalid escape"
      | none => .error "invalid escape"
    | none, none => .error "unknown escape"

/-- How a stretch of a quoted scalar without white space ends. -/
inductive Stop
  | atGap
  | atQuote
  /-- A break behind a backslash joins the lines. -/
  | afterJoin
deriving DecidableEq, Repr

def quotedWord (isSingle : Bool) : (fuel : Nat) → List Char → Place →
    Except String (List Char × Place × Stop)
  | 0, out, p => .ok (out, p, .atGap)
  | fuel + 1, out, p =>
    match p.peek with
    | none => .ok (out, p, .atGap)
    | some c =>
      if isBlank c || isBreak c then .ok (out, p, .atGap)
      else if isSingle && c = '\'' && p.peekAt 1 = some '\'' then
        quotedWord isSingle fuel ('\'' :: out) (p.skip 2)
      else if c = (if isSingle then '\'' else '"') then .ok (out, p, .atQuote)
      else if !isSingle && c = '\\' then
        if (p.peekAt 1).any isBreak then .ok (out, (p.skip 1).skipBreak, .afterJoin)
        else do
          let (d, taken) ← escapeAt (p.skip 1)
          quotedWord isSingle fuel (d :: out) (p.skip (1 + taken))
      else quotedWord isSingle fuel (c :: out) (p.skip 1)

def quotedFrom (isSingle : Bool) : (fuel : Nat) → List Char → Place →
    Except String (List Char × Place)
  | 0, _, _ => .error "unclosed quoted scalar"
  | fuel + 1, out, p =>
    if p.isDocumentMarker then .error "document marker in a quoted scalar"
    else if p.isAtEnd then .error "unclosed quoted scalar"
    else do
      let (word, q, stop) ← quotedWord isSingle (p.rest.length + 1) [] p
      let out := word ++ out
      match stop with
      | .atQuote => return (out, q.skip 1)
      | _ =>
        let (g, q) ← readGap none (q.rest.length + 1) { isBroken := stop == .afterJoin } q
        quotedFrom isSingle fuel (g.text.reverse ++ out) q

/-- A quoted scalar behind its opening quote. -/
def quoted (isSingle : Bool) (p : Place) : Except String (List Char × Place) := do
  let (out, q) ← quotedFrom isSingle (p.rest.length + 1) [] p
  return (out.reverse, q)

/-! ## Block scalars -/

/-- Which of the last breaks are kept. -/
inductive Chomping
  | strip
  | clip
  | keep
deriving DecidableEq, Repr

/-- The indicators behind `|` or `>`: chomping and indentation, in either order. -/
def blockIndicators (p : Place) : Except String (Chomping × Option Nat × Place) :=
  let chomping? : Option Char → Option Chomping := fun
    | some '+' => some .keep
    | some '-' => some .strip
    | _ => none
  let indent? : Option Char → Option Nat := fun c? =>
    c?.bind fun c => if c.isDigit then some (c.toNat - 48) else none
  let check := fun (c : Chomping) (i? : Option Nat) (p : Place) =>
    (if i? = some 0 then .error "indentation of zero" else .ok (c, i?, p)
      : Except String (Chomping × Option Nat × Place))
  match chomping? p.peek, indent? p.peek with
  | some c, _ =>
    match indent? (p.peekAt 1) with
    | some i => check c (some i) (p.skip 2)
    | none => check c none (p.skip 1)
  | none, some i =>
    match chomping? (p.peekAt 1) with
    | some c => check c (some i) (p.skip 2)
    | none => check .clip (some i) (p.skip 1)
  | none, none => .ok (.clip, none, p)

/-- Blanks, then a comment, then the end of the line. -/
def restOfLine (p : Place) : Except String Place :=
  let p := (p.takeWhile isBlank).2
  let p := if p.peek = some '#' then (p.takeWhile fun c => !isBreak c).2 else p
  match p.peek with
  | none => .ok p
  | some c => if isBreak c then .ok p.skipBreak else .error "comment or line break expected"

/-- Indentation and empty lines. Without a known indentation the deepest one is looked for. -/
def blockBreaks (indent : Option Nat) : (fuel : Nat) → List Char → (deepest : Nat) → Place →
    Except String (List Char × Nat × Place)
  | 0, breaks, deepest, p => .ok (breaks, deepest, p)
  | fuel + 1, breaks, deepest, p =>
    let isShort := fun column : Nat => indent.all fun i => column < i
    let spaces := p.rest.takeWhile (· = ' ')
    let count := match indent with
      | none => spaces.length
      | some i => min spaces.length (i - p.column)
    let p := p.skip count
    let deepest := max deepest p.column
    if isShort p.column && p.peek = some '\t' then .error "tab in the indentation"
    else
      match p.peek with
      | some c =>
        if isBreak c then blockBreaks indent fuel (breaks ++ [breakChar c]) deepest p.skipBreak
        else .ok (breaks, deepest, p)
      | none => .ok (breaks, deepest, p)

/-- The lines of a block scalar: `out` in reverse, the break behind the last line, and the empty
lines behind that. -/
def blockLines (isLiteral : Bool) (indent : Nat) : (fuel : Nat) → (out : List Char) →
    (lead : Option Char) → (empties : List Char) → (wasBlank : Bool) → Place →
    Except String (List Char × Option Char × List Char × Place)
  | 0, out, lead, empties, _, p => .ok (out, lead, empties, p)
  | fuel + 1, out, lead, empties, wasBlank, p =>
    if p.column = indent ∧ !p.isAtEnd then do
      let isBlankLine := p.peek.any isBlank
      let joint :=
        if !isLiteral && lead = some '\n' && !wasBlank && !isBlankLine then
          if empties.isEmpty then [' '] else empties
        else lead.toList ++ empties
      let (line, q) := p.takeWhile fun c => !isBreak c
      let out := line.reverse ++ joint.reverse ++ out
      let lead := q.peek.map breakChar
      let (empties, _, q) ← blockBreaks (some indent) (q.rest.length + 1) [] 0 q.skipBreak
      blockLines isLiteral indent fuel out lead empties isBlankLine q
    else .ok (out, lead, empties, p)

/-- A block scalar behind `|` or `>`, in a collection that is indented by `parent`, or in none. -/
def block (isLiteral : Bool) (parent : Int) (p : Place) : Except String (List Char × Place) := do
  let (chomping, increment, p) ← blockIndicators p
  let p ← restOfLine p
  let given := increment.map fun i => if 0 ≤ parent then parent.toNat + i else i
  let (empties, deepest, p) ← blockBreaks given (p.rest.length + 1) [] 0 p
  let indent := given.getD (max deepest (max (parent + 1).toNat 1))
  let (out, lead, empties, p) ←
    blockLines isLiteral indent (p.rest.length + 1) [] none empties false p
  let tail := match chomping with
    | .strip => []
    | .clip => lead.toList
    | .keep => lead.toList ++ empties
  return (out.reverse ++ tail, p)

end SpanTree.Yaml
