/-!
# JSON values and their compact text

The printer puts no space anywhere and keeps the order of the fields. In a string only the quote,
the backslash and the controls below U+0020 are escaped, the usual five of them by a letter.
-/

namespace SpanTree

inductive Json
  | null
  | bool (b : Bool)
  | nat (n : Nat)
  | string (s : String)
  | array (items : List Json)
  | object (fields : List (String × Json))

namespace Json

instance : Inhabited Json := ⟨null⟩

/-- Four digits of a code point below U+10000, in lower case. -/
def hex4 (n : Nat) : List Char :=
  [Nat.digitChar (n / 4096 % 16), Nat.digitChar (n / 256 % 16), Nat.digitChar (n / 16 % 16),
    Nat.digitChar (n % 16)]

def escapeChar (c : Char) : List Char :=
  if c = '"' then ['\\', '"']
  else if c = '\\' then ['\\', '\\']
  else if c.toNat = 0x08 then ['\\', 'b']
  else if c.toNat = 0x09 then ['\\', 't']
  else if c.toNat = 0x0A then ['\\', 'n']
  else if c.toNat = 0x0C then ['\\', 'f']
  else if c.toNat = 0x0D then ['\\', 'r']
  else if c.toNat < 0x20 then '\\' :: 'u' :: hex4 c.toNat
  else [c]

/-- The string literal that stands for the text. -/
def literal (s : String) : String :=
  String.ofList ('"' :: s.toList.flatMap escapeChar ++ ['"'])

mutual

def compact : Json → String
  | null => "null"
  | bool b => if b then "true" else "false"
  | nat n => toString n
  | string s => literal s
  | array items => "[" ++ compactItems items ++ "]"
  | object fields => "\x7b" ++ compactFields fields ++ "\x7d"

def compactItems : List Json → String
  | [] => ""
  | [v] => compact v
  | v :: w :: vs => compact v ++ "," ++ compactItems (w :: vs)

def compactFields : List (String × Json) → String
  | [] => ""
  | [(k, v)] => literal k ++ ":" ++ compact v
  | (k, v) :: f :: fs => literal k ++ ":" ++ compact v ++ "," ++ compactFields (f :: fs)

end

end Json

end SpanTree
