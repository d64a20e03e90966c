/-!
# Command lines

A command line is a list of options. An option has a long name and perhaps a letter, and takes a
value or not. A value follows its option as the next argument, behind `=`, or right behind the
letter; the letters of options without values can be written together. As the next argument a value
does not begin with a dash, unless it is a dash.

Every option may be given once. Nothing but options is accepted.
-/

namespace SpanTree.Command

structure Switch where
  long : String
  letter : Option Char
  takesValue : Bool
deriving DecidableEq, Repr

/-- The options that were given, with their values. -/
abbrev Given := List (String × Option String)

def Switch.add (s : Switch) (value : Option String) (given : Given) : Option Given :=
  if (given.lookup s.long).isSome then none else some (given ++ [(s.long, value)])

/-- The next argument as a value. -/
def nextValue : List String → Option (String × List String)
  | [] => none
  | a :: rest => if a.toList.head? = some '-' ∧ a ≠ "-" then none else some (a, rest)

/-- The letters behind one dash. -/
def letters (switches : List Switch) : List Char → List String → Given →
    Option (Given × List String)
  | [], rest, given => some (given, rest)
  | c :: cs, rest, given => do
    let s ← switches.find? fun s => s.letter == some c
    if s.takesValue then
      match cs with
      | [] =>
        let (v, rest) ← nextValue rest
        return (← s.add (some v) given, rest)
      | '=' :: cs => return (← s.add (some (String.ofList cs)) given, rest)
      | cs => return (← s.add (some (String.ofList cs)) given, rest)
    else letters switches cs rest (← s.add none given)

/-- A long name behind two dashes, with or without a value behind `=`. -/
def longName (switches : List Switch) (cs : List Char) (rest : List String) (given : Given) :
    Option (Given × List String) := do
  let name := String.ofList (cs.takeWhile (· != '='))
  let s ← switches.find? (·.long == name)
  match cs.dropWhile (· != '='), s.takesValue with
  | _ :: v, true => return (← s.add (some (String.ofList v)) given, rest)
  | [], true =>
    let (v, rest) ← nextValue rest
    return (← s.add (some v) given, rest)
  | [], false => return (← s.add none given, rest)
  | _ :: _, false => none

/-- Reads all arguments; none if one of them is out of place. Each step takes at least one. -/
def readArguments (switches : List Switch) : (fuel : Nat) → List String → Given → Option Given
  | _, [], given => some given
  | 0, _ :: _, _ => none
  | fuel + 1, a :: rest, given =>
    match a.toList with
    | '-' :: '-' :: c :: cs => do
      let (given, rest) ← longName switches (c :: cs) rest given
      readArguments switches fuel rest given
    | ['-', '-'] => if rest.isEmpty then some given else none
    | '-' :: c :: cs => do
      let (given, rest) ← letters switches (c :: cs) rest given
      readArguments switches fuel rest given
    | _ => none

end SpanTree.Command
