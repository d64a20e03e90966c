/-!
# Reading JSON text

Readers for the parts of a JSON text that a known schema asks for. Each takes its part from the
front of the text, behind white space, and gives back what follows; a text that does not have that
part there is refused with a reason.

`value` passes over a value of any kind. It checks the grammar only: a string it passes over may
hold escapes that denote no character.
-/

namespace SpanTree.Json.Read

/-- What was read, and the text after it. -/
abbrev Parsed (α : Type) := α × List Char

def isSpace (c : Char) : Bool := c = ' ' || c = '\n' || c = '\t' || c = '\r'

def skipSpace (cs : List Char) : List Char := cs.dropWhile isSpace

/-! ## Strings -/

def hexValue? (c : Char) : Option Nat :=
  if c.isDigit then some (c.toNat - 48)
  else if 'a' ≤ c.toLower ∧ c.toLower ≤ 'f' then some (c.toLower.toNat - 87)
  else none

/-- The four digits of an escape. -/
def unit? : List Char → Option (Nat × List Char)
  | a :: b :: c :: d :: cs => do
    let a ← hexValue? a
    let b ← hexValue? b
    let c ← hexValue? c
    let d ← hexValue? d
    return (((a * 16 + b) * 16 + c) * 16 + d, cs)
  | _ => none

def simpleEscape? : Char → Option Char
  | '"' => some '"'
  | '\\' => some '\\'
  | '/' => some '/'
  | 'b' => some (Char.ofNat 0x08)
  | 'f' => some (Char.ofNat 0x0C)
  | 'n' => some '\n'
  | 'r' => some '\r'
  | 't' => some '\t'
  | _ => none

def isHighUnit (n : Nat) : Bool := 0xD800 ≤ n && n < 0xDC00

def isLowUnit (n : Nat) : Bool := 0xDC00 ≤ n && n < 0xE000

/-- One element of a string literal. -/
inductive Piece
  | char (c : Char)
  /-- A unit of a surrogate pair, given by an escape. -/
  | unit (n : Nat)
deriving DecidableEq, Repr

/-- The elements of a string up to its closing quote, the last one first. -/
def pieces (out : List Piece) : (fuel : Nat) → List Char → Except String (Parsed (List Piece))
  | 0, _ | _, [] => .error "unterminated string"
  | fuel + 1, c :: cs =>
    if c = '"' then .ok (out, cs)
    else if c.toNat < 0x20 then .error "control character in a string"
    else if c = '\\' then
      match cs with
      | 'u' :: cs =>
        match unit? cs with
        | none => .error "invalid escape"
        | some (n, cs) =>
          if isHighUnit n || isLowUnit n then pieces (.unit n :: out) fuel cs
          else pieces (.char (Char.ofNat n) :: out) fuel cs
      | e :: cs =>
        match simpleEscape? e with
        | some c => pieces (.char c :: out) fuel cs
        | none => .error "invalid escape"
      | [] => .error "unterminated string"
    else pieces (.char c :: out) fuel cs

/-- The text that the elements denote; they are given in reverse. Units must come in pairs. -/
def joinPieces (out : List Char) : List Piece → Option (List Char)
  | [] => some out
  | .char c :: ps => joinPieces (c :: out) ps
  | .unit lo :: .unit hi :: ps =>
    if isHighUnit hi && isLowUnit lo then
      joinPieces (Char.ofNat (0x10000 + 0x400 * (hi - 0xD800) + (lo - 0xDC00)) :: out) ps
    else none
  | .unit _ :: _ => none

/-- A string literal behind its opening quote. -/
def stringBody (cs : List Char) : Except String (Parsed String) := do
  let (ps, rest) ← pieces [] (cs.length + 1) cs
  match joinPieces [] ps with
  | some text => return (String.ofList text, rest)
  | none => throw "unpaired surrogate in a string"

def string (cs : List Char) : Except String (Parsed String) :=
  match skipSpace cs with
  | '"' :: cs => stringBody cs
  | _ => .error "string expected"

/-! ## Other values -/

/-- The given word stands at the front. -/
def word (w cs : List Char) : Option (List Char) :=
  if w.isPrefixOf cs then some (cs.drop w.length) else none

def bool (cs : List Char) : Except String (Parsed Bool) :=
  let cs := skipSpace cs
  match word "true".toList cs, word "false".toList cs with
  | some rest, _ => .ok (true, rest)
  | none, some rest => .ok (false, rest)
  | none, none => .error "boolean expected"

def digits (cs : List Char) : Option (List Char) :=
  match cs.dropWhile Char.isDigit with
  | rest => if rest.length < cs.length then some rest else none

/-- The integer part has no leading zeros; fraction and exponent have digits. -/
def number (cs : List Char) : Option (List Char) := do
  let cs := match cs with
    | '-' :: cs => cs
    | cs => cs
  let cs ← match cs with
    | '0' :: cs => if (cs.head?.map Char.isDigit).getD false then none else some cs
    | cs => digits cs
  let cs ← match cs with
    | '.' :: cs => digits cs
    | cs => some cs
  match cs with
  | 'e' :: '+' :: cs | 'e' :: '-' :: cs | 'E' :: '+' :: cs | 'E' :: '-' :: cs => digits cs
  | 'e' :: cs | 'E' :: cs => digits cs
  | cs => some cs

/-- Where a value that is passed over may be: at an item of an array, at a key of an object, or at
its value. -/
inductive Frame
  | array
  | object
deriving DecidableEq, Repr

/-- A value without parts is passed over. -/
def scalar (cs : List Char) : Except String (List Char) :=
  match cs with
  | '"' :: cs => (pieces [] (cs.length + 1) cs).map Prod.snd
  | cs =>
    match word "null".toList cs, word "true".toList cs, word "false".toList cs, number cs with
    | some rest, _, _, _ | none, some rest, _, _ | none, none, some rest, _
    | none, none, none, some rest => .ok rest
    | none, none, none, none => .error "value expected"

/-- A key and its colon are passed over. -/
def key (cs : List Char) : Except String (List Char) := do
  match skipSpace cs with
  | '"' :: cs =>
    let (_, rest) ← pieces [] (cs.length + 1) cs
    match skipSpace rest with
    | ':' :: rest => return rest
    | _ => throw "colon expected"
  | _ => throw "key expected"

mutual

/-- Passes over a value and then over what closes the open brackets, the innermost first. -/
def skipValue : (fuel : Nat) → List Frame → List Char → Except String (List Char)
  | 0, _, _ => .error "value too long"
  | fuel + 1, frames, cs =>
    match skipSpace cs with
    | '[' :: cs =>
      match skipSpace cs with
      | ']' :: rest => skipRest fuel frames rest
      | cs => skipValue fuel (.array :: frames) cs
    | '\x7b' :: cs =>
      match skipSpace cs with
      | '\x7d' :: rest => skipRest fuel frames rest
      | cs => do skipValue fuel (.object :: frames) (← key cs)
    | cs => do skipRest fuel frames (← scalar cs)

def skipRest : (fuel : Nat) → List Frame → List Char → Except String (List Char)
  | 0, _, _ => .error "value too long"
  | _ + 1, [], cs => .ok cs
  | fuel + 1, frame :: frames, cs =>
    match frame, skipSpace cs with
    | .array, ',' :: cs => skipValue fuel (.array :: frames) cs
    | .array, ']' :: cs => skipRest fuel frames cs
    | .object, ',' :: cs => do skipValue fuel (.object :: frames) (← key cs)
    | .object, '\x7d' :: cs => skipRest fuel frames cs
    | _, _ => .error "separator or closing bracket expected"

end

/-- Passes over a value of any kind. -/
def value (cs : List Char) : Except String (List Char) := skipValue (2 * cs.length + 2) [] cs

/-! ## Records -/

/-- The fields of a record behind its opening brace, each handed to `field` with what is known so
far. -/
def fields {σ : Type} (field : σ → String → List Char → Except String (Parsed σ)) :
    (fuel : Nat) → σ → List Char → Except String (Parsed σ)
  | 0, _, _ => .error "record too long"
  | fuel + 1, s, cs => do
    let (name, rest) ← string cs
    match skipSpace rest with
    | ':' :: rest =>
      let (s, rest) ← field s name rest
      match skipSpace rest with
      | ',' :: rest => fields field fuel s rest
      | '\x7d' :: rest => return (s, rest)
      | _ => throw "comma or closing brace expected"
    | _ => throw "colon expected"

/-- The fields of a record behind its opening bracket: without names, in the given order; missing
ones at the end are left out. -/
def positional {σ : Type} (items : List (σ → List Char → Except String (Parsed σ))) (s : σ)
    (cs : List Char) : Except String (Parsed σ) :=
  match skipSpace cs with
  | ']' :: rest => .ok (s, rest)
  | cs => go items s cs
where
  go : List (σ → List Char → Except String (Parsed σ)) → σ → List Char → Except String (Parsed σ)
    | [], _, _ => .error "too many items"
    | item :: items, s, cs => do
      let (s, rest) ← item s cs
      match skipSpace rest with
      | ']' :: rest => return (s, rest)
      | ',' :: rest => go items s rest
      | _ => throw "comma or closing bracket expected"

/-- A record, with named fields in braces or with positional ones in brackets. -/
def record {σ : Type} (field : σ → String → List Char → Except String (Parsed σ))
    (items : List (σ → List Char → Except String (Parsed σ))) (s : σ) (cs : List Char) :
    Except String (Parsed σ) :=
  match skipSpace cs with
  | '\x7b' :: cs =>
    match skipSpace cs with
    | '\x7d' :: rest => .ok (s, rest)
    | cs => fields field (cs.length + 1) s cs
  | '[' :: cs => positional items s cs
  | _ => .error "record expected"

/-- A whole text, with nothing but white space behind what is read. -/
def whole {α : Type} (reader : List Char → Except String (Parsed α)) (cs : List Char) :
    Except String α := do
  let (a, rest) ← reader cs
  if (skipSpace rest).isEmpty then return a else throw "trailing characters"

end SpanTree.Json.Read
