import SpanTree.Text.Utf8
import SpanTree.Yaml.Scalar

/-!
# Tokens

The text of a document as a list of tokens. Block collections are marked by indentation: a column
that is deeper than the ones before it opens a collection, and a return to an earlier column closes
those between.

A mapping key need not be marked. Where a node begins that may turn out to be a key, its place is
kept; if a `:` follows on the same line, within 1024 characters, the key token is put in front of
it afterwards. In block context a key that opens a line of its mapping must be followed by its `:`.
-/

namespace SpanTree.Yaml

inductive Token
  | versionDirective (major minor : Nat)
  | tagDirective (handle tagStart : String)
  | documentStart
  | documentEnd
  | blockSequenceStart
  | blockMappingStart
  | blockEnd
  | flowSequenceStart
  | flowSequenceEnd
  | flowMappingStart
  | flowMappingEnd
  | blockEntry
  | flowEntry
  | key
  | value
  | alias (name : String)
  | anchor (name : String)
  | tag (handle suffix : String)
  | scalar (style : Style) (text : String)
deriving DecidableEq, Repr

/-- A node that may turn out to be a key: where its tokens and its text begin. -/
structure KeyMark where
  isPossible : Bool
  isRequired : Bool
  token : Nat
  index : Nat
  line : Nat
  column : Nat
deriving DecidableEq, Repr

def KeyMark.none : KeyMark := ⟨false, false, 0, 0, 0, 0⟩

structure Scanner where
  place : Place
  tokens : Array Token
  /-- The column of the innermost block collection, -1 outside of all. -/
  indent : Int
  /-- The columns of the collections around it. -/
  outer : List Int
  /-- The open flow collections with their key marks, the innermost first; the block context comes
  last. -/
  keys : List KeyMark
  keyAllowed : Bool
  isDone : Bool

namespace Scanner

def ofChars (cs : List Char) : Scanner :=
  ⟨.ofChars cs, #[], -1, [], [.none], true, false⟩

def inFlow (s : Scanner) : Bool := 1 < s.keys.length

def push (s : Scanner) (t : Token) : Scanner := { s with tokens := s.tokens.push t }

def column (s : Scanner) : Int := s.place.column

/-! ## Indentation -/

/-- Closes the block collections that are indented deeper than the column. -/
def closeTo (column : Int) : (columns : List Int) → Scanner → Scanner
  | [], s => s
  | i :: is, s =>
    if column < s.indent then closeTo column is { s.push .blockEnd with indent := i, outer := is }
    else s

def unroll (s : Scanner) (column : Int) : Scanner :=
  if s.inFlow then s else closeTo column s.outer s

/-- Opens a block collection at the column if it is deeper, with its token at the given position. -/
def roll (s : Scanner) (column : Int) (front : Option Nat) (t : Token) : Scanner :=
  if s.inFlow || column ≤ s.indent then s
  else
    { s with
      outer := s.indent :: s.outer
      indent := column
      tokens := match front with
        | some i => s.tokens.take i ++ #[t] ++ s.tokens.drop i
        | none => s.tokens.push t }

/-! ## Keys -/

/-- Gives up the key mark of the innermost context. -/
def dropKey (s : Scanner) : Except String Scanner :=
  match s.keys with
  | [] => .ok s
  | k :: ks =>
    if k.isPossible && k.isRequired then .error "colon expected"
    else .ok { s with keys := { k with isPossible := false } :: ks }

/-- Marks the place as that of a possible key. -/
def saveKey (s : Scanner) : Except String Scanner :=
  if s.keyAllowed then do
    let required := !s.inFlow && s.indent == s.column
    let s ← s.dropKey
    return { s with
      keys := ⟨true, required, s.tokens.size, s.place.index, s.place.line, s.place.column⟩
        :: s.keys.drop 1 }
  else .ok s

/-- Gives up the key marks that are too far back. -/
def dropStale (s : Scanner) : Except String Scanner := do
  let keys ← s.keys.mapM fun k =>
    if k.isPossible && (k.line < s.place.line || k.index + 1024 < s.place.index) then
      if k.isRequired then (.error "colon expected" : Except String KeyMark)
      else .ok { k with isPossible := false }
    else .ok k
  return { s with keys := keys }

/-! ## White space and comments -/

/-- A tab counts as white space unless a key may begin here in block context. One byte order mark
may begin a line; it takes up a column. -/
def skipBlanks : (fuel : Nat) → Scanner → Scanner
  | 0, s => s
  | fuel + 1, s =>
    let tabs := s.inFlow || !s.keyAllowed
    let p := s.place
    let p := if p.column = 0 && p.peek.any isByteOrderMark then p.skip 1 else p
    let p := (p.takeWhile fun c => c = ' ' || (tabs && c = '\t')).2
    let p := if p.peek = some '#' then (p.takeWhile fun c => !isBreak c).2 else p
    if p.peek.any isBreak then
      skipBlanks fuel
        { s with place := p.skipBreak, keyAllowed := s.keyAllowed || !s.inFlow }
    else { s with place := p }

/-! ## Directives, anchors and tags -/

def decimal (ds : List Char) : Nat := ds.foldl (fun n d => 10 * n + (d.toNat - 48)) 0

def versionNumber (p : Place) : Except String (Nat × Place) :=
  let (ds, q) := p.takeWhile Char.isDigit
  if ds.isEmpty || 9 < ds.length then .error "version number expected" else .ok (decimal ds, q)

def isUriChar (allowFlow : Bool) (c : Char) : Bool :=
  isWordChar c || [';', '/', '?', ':', '@', '&', '=', '+', '$', '.', '%', '!', '~', '*', '\'', '(',
    ')'].contains c || (allowFlow && [',', '[', ']'].contains c)

/-- How many bytes go on with the character that a byte begins. -/
def announced (b : Nat) : Option Nat :=
  if b < 0x80 then some 0
  else if b < 0xC0 then none
  else if b < 0xE0 then some 1
  else if b < 0xF0 then some 2
  else if b < 0xF8 then some 3
  else none

/-- The bytes of a tag, where `more` bytes are awaited. A percent sign and two digits stand for a
byte; a character that begins so must be completed so. -/
def uriBytes : (more : Nat) → List Char → Option Bytes
  | more, '%' :: a :: b :: cs =>
    (hexValue? [a, b]).bind fun n =>
      (match more with
        | 0 => announced n
        | more + 1 => if n / 64 = 2 then some more else none).bind fun more =>
        (uriBytes more cs).map (n.toUInt8 :: ·)
  | _, '%' :: _ => none
  | 0, c :: cs => (uriBytes 0 cs).map (c.toNat.toUInt8 :: ·)
  | 0, [] => some []
  | _ + 1, _ => none

/-- The characters of a tag. -/
def uriText (allowFlow : Bool) (p : Place) : Except String (String × Place) :=
  let (cs, q) := p.takeWhile (isUriChar allowFlow)
  match uriBytes 0 cs with
  | some bs => .ok (Utf8.decodeLossy bs, q)
  | none => .error "invalid escape in a tag"

/-- `!`, `!!` or `!name!`. In a directive nothing else will do. -/
def tagHandle (isDirective : Bool) (p : Place) : Except String (String × Place) :=
  if p.peek ≠ some '!' then .error "tag expected"
  else
    let (name, q) := (p.skip 1).takeWhile isWordChar
    if q.peek = some '!' then .ok (String.ofList ('!' :: name ++ ['!']), q.skip 1)
    else if isDirective && !name.isEmpty then .error "tag handle expected"
    else .ok (String.ofList ('!' :: name), q)

def directiveToken (name : List Char) (p : Place) : Except String (Token × Place) :=
  match String.ofList name with
  | "YAML" => do
    let (major, q) ← versionNumber (p.takeWhile isBlank).2
    if q.peek ≠ some '.' then throw "version expected"
    else
      let (minor, q) ← versionNumber (q.skip 1)
      return (.versionDirective major minor, q)
  | "TAG" => do
    let (handle, q) ← tagHandle true (p.takeWhile isBlank).2
    if !q.peek.any isBlank then throw "white space expected"
    else
      let (tagStart, q) ← uriText true (q.takeWhile isBlank).2
      if tagStart.isEmpty || !isBlankOrEnd q.peek then throw "tag expected"
      else return (.tagDirective handle tagStart, q)
  | _ => .error "unknown directive"

def directive (p : Place) : Except String (Token × Place) := do
  let (name, q) := (p.skip 1).takeWhile isWordChar
  if name.isEmpty || !isBlankOrEnd q.peek then throw "directive expected"
  else
    let (t, q) ← directiveToken name q
    return (t, ← restOfLine q)

def anchorName (p : Place) : Except String (String × Place) :=
  let (name, q) := (p.skip 1).takeWhile isWordChar
  let ends := isBlankOrEnd q.peek
    || q.peek.any (['?', ':', ',', ']', '\x7d', '%', '@', '\x60'].contains ·)
  if name.isEmpty || !ends then .error "invalid anchor" else .ok (String.ofList name, q)

/-- A verbatim tag in angle brackets, or a handle and a suffix. A text that is no handle belongs to
the suffix. -/
def tagToken (inFlow : Bool) (p : Place) : Except String (Token × Place) := do
  let (t, q) ← (
    if p.peekAt 1 = some '<' then do
      let (uri, q) ← uriText true (p.skip 2)
      if uri.isEmpty || q.peek ≠ some '>' then throw "invalid tag"
      else return (Token.tag "" uri, q.skip 1)
    else do
      let (handle, q) ← tagHandle false p
      let (suffix, q) ← uriText false q
      if 1 < handle.length && handle.toList.getLast? = some '!' then
        if suffix.isEmpty then throw "invalid tag" else return (Token.tag handle suffix, q)
      else
        let whole := String.ofList (handle.toList.drop 1) ++ suffix
        if whole.isEmpty then return (Token.tag "" "!", q) else return (Token.tag "!" whole, q)
    : Except String (Token × Place))
  if isBlankOrEnd q.peek || (inFlow && q.peek = some ',') then return (t, q)
  else throw "white space expected"

/-! ## One token after the other -/

def fetchStreamEnd (s : Scanner) : Except String Scanner := do
  let s ← (s.unroll (-1)).dropKey
  return { s with keyAllowed := false, isDone := true }

/-- A token that stands outside of all collections. -/
def fetchOuter (s : Scanner) (t : Token) (next : Place) : Except String Scanner := do
  let s ← (s.unroll (-1)).dropKey
  return { s.push t with keyAllowed := false, place := next }

def fetchFlowStart (s : Scanner) (t : Token) : Except String Scanner := do
  let s ← s.saveKey
  return { s.push t with keys := .none :: s.keys, keyAllowed := true, place := s.place.skip 1 }

def fetchFlowEnd (s : Scanner) (t : Token) : Except String Scanner := do
  let s ← s.dropKey
  let keys := if s.inFlow then s.keys.drop 1 else s.keys
  return { s.push t with keys := keys, keyAllowed := false, place := s.place.skip 1 }

def fetchFlowEntry (s : Scanner) : Except String Scanner := do
  let s ← s.dropKey
  return { s.push .flowEntry with keyAllowed := true, place := s.place.skip 1 }

def fetchBlockEntry (s : Scanner) : Except String Scanner :=
  if !s.inFlow && !s.keyAllowed then .error "block sequence is not allowed here"
  else do
    let s ← (s.roll s.column none .blockSequenceStart).dropKey
    return { s.push .blockEntry with keyAllowed := true, place := s.place.skip 1 }

def fetchKey (s : Scanner) : Except String Scanner :=
  if !s.inFlow && !s.keyAllowed then .error "mapping key is not allowed here"
  else do
    let s ← (s.roll s.column none .blockMappingStart).dropKey
    return { s.push .key with keyAllowed := !s.inFlow, place := s.place.skip 1 }

/-- The colon behind a key. A marked key gets its token now. -/
def fetchValue (s : Scanner) : Except String Scanner :=
  match s.keys with
  | k :: ks =>
    if k.isPossible then
      let s := { s with tokens := s.tokens.take k.token ++ #[Token.key] ++ s.tokens.drop k.token }
      let s := s.roll k.column (some k.token) .blockMappingStart
      .ok { s.push .value with
        keys := { k with isPossible := false } :: ks
        keyAllowed := false
        place := s.place.skip 1 }
    else if !s.inFlow && !s.keyAllowed then .error "mapping value is not allowed here"
    else
      let s := s.roll s.column none .blockMappingStart
      .ok { s.push .value with keyAllowed := !s.inFlow, place := s.place.skip 1 }
  | [] => .error "mapping value is not allowed here"

/-- A token that can begin a key. -/
def fetchNode (s : Scanner) (read : Place → Except String (Token × Place)) :
    Except String Scanner := do
  let s ← s.saveKey
  let (t, next) ← read s.place
  return { s.push t with keyAllowed := false, place := next }

def fetchPlain (s : Scanner) : Except String Scanner := do
  let s ← s.saveKey
  let (cs, next, broken) ← plain s.inFlow (s.indent + 1).toNat s.place
  return { s.push (.scalar .plain (String.ofList cs)) with keyAllowed := broken, place := next }

def fetchBlockScalar (s : Scanner) (isLiteral : Bool) : Except String Scanner := do
  let s ← s.dropKey
  let (cs, next) ← block isLiteral s.indent (s.place.skip 1)
  let style := if isLiteral then Style.literal else Style.folded
  return { s.push (.scalar style (String.ofList cs)) with keyAllowed := true, place := next }

def fetchQuoted (s : Scanner) (isSingle : Bool) : Except String Scanner :=
  s.fetchNode fun p => do
    let (cs, next) ← quoted isSingle (p.skip 1)
    return (.scalar (if isSingle then .single else .double) (String.ofList cs), next)

/-- A plain scalar cannot begin with an indicator, but `-` counts as none if a character follows,
nor do `?` and `:` in block context. -/
def beginsPlain (inFlow : Bool) (c : Char) (next : Option Char) : Bool :=
  let isIndicator := ['-', '?', ':', ',', '[', ']', '\x7b', '\x7d', '#', '&', '*', '!', '|', '>',
    '\'', '"', '%', '@', '\x60'].contains c
  !(isBlank c || isBreak c || isIndicator)
    || (c = '-' && !(next.any isBlank))
    || (!inFlow && (c = '?' || c = ':') && !isBlankOrEnd next)

def fetchToken (s : Scanner) (c : Char) : Except String Scanner :=
  let p := s.place
  let next := p.peekAt 1
  let opensItem := isBlankOrEnd next
  if p.column = 0 ∧ c = '%' then do
    let (t, q) ← directive p
    s.fetchOuter t q
  else if p.isMarker '-' then s.fetchOuter .documentStart (p.skip 3)
  else if p.isMarker '.' then s.fetchOuter .documentEnd (p.skip 3)
  else if c = '[' then s.fetchFlowStart .flowSequenceStart
  else if c = '\x7b' then s.fetchFlowStart .flowMappingStart
  else if c = ']' then s.fetchFlowEnd .flowSequenceEnd
  else if c = '\x7d' then s.fetchFlowEnd .flowMappingEnd
  else if c = ',' then s.fetchFlowEntry
  else if c = '-' && opensItem then s.fetchBlockEntry
  else if c = '?' && (s.inFlow || opensItem) then s.fetchKey
  else if c = ':' && (s.inFlow || opensItem) then s.fetchValue
  else if c = '*' then s.fetchNode fun p => (anchorName p).map fun (n, q) => (.alias n, q)
  else if c = '&' then s.fetchNode fun p => (anchorName p).map fun (n, q) => (.anchor n, q)
  else if c = '!' then s.fetchNode (tagToken s.inFlow)
  else if c = '|' && !s.inFlow then s.fetchBlockScalar true
  else if c = '>' && !s.inFlow then s.fetchBlockScalar false
  else if c = '\'' then s.fetchQuoted true
  else if c = '"' then s.fetchQuoted false
  else if beginsPlain s.inFlow c next then s.fetchPlain
  else .error "character that begins no token"

def fetch (s : Scanner) : Except String Scanner := do
  let s ← (s.skipBlanks (s.place.rest.length + 1)).dropStale
  let s := s.unroll s.column
  match s.place.peek with
  | none => s.fetchStreamEnd
  | some c => s.fetchToken c

/-- Every token takes at least one character. -/
def run : (fuel : Nat) → Scanner → Except String Scanner
  | 0, s => .ok s
  | fuel + 1, s => if s.isDone then .ok s else do run fuel (← s.fetch)

end Scanner

/-- The tokens of a text. -/
def tokens (cs : List Char) : Except String (List Token) :=
  if cs.all isAllowed then
    (Scanner.run (cs.length + 2) (.ofChars cs)).map fun s => s.tokens.toList
  else .error "control characters are not allowed"

end SpanTree.Yaml
