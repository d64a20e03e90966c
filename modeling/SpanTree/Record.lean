import SpanTree.Path
import SpanTree.Text.Blank

/-!
# Record files

```text
# one flow
$.src.ip 10.0.0.1
$.src.name home

$.src.ip 10.0.0.3
```

A line holds an absolute path and, behind the first space, the text to append there. A blank line
ends a record; lines that start with `#` are comments and end none. Each record with at least one
entry becomes one tree.
-/

namespace SpanTree.Record

/-- What a line means. -/
inductive Line
  | blank
  | comment
  | entry (path value : List Char)
deriving DecidableEq, Repr

/-- The line without the carriage returns at its end. -/
def trimReturns (cs : List Char) : List Char :=
  (cs.reverse.dropWhile (· == '\r')).reverse

def Line.ofChars (cs : List Char) : Line :=
  if Text.isBlank cs then .blank
  else if cs.head? = some '#' then .comment
  else
    match Text.cut ' ' cs with
    | (path, value?) => .entry path (value?.getD [])

/-- The lines of a text. A line end at the very end begins no further line. -/
def lines (cs : List Char) : List (List Char) :=
  let ls := Text.pieces '\n' cs
  (if ls.getLast? = some [] then ls.dropLast else ls).map trimReturns

/-- A record that is being read. -/
structure Draft where
  path : Path
  entries : Nat

def Draft.empty : Except Error Draft := (Path.named Name.root).map fun p => ⟨p, 0⟩

def Draft.add (d : Draft) (lineNumber : Nat) (path value : List Char) : Except Error Draft :=
  let name := String.ofList path
  if !Name.isAbsolute name then .error (.invalidRecord lineNumber (.notRooted name))
  else
    match Path.named name with
    | .error _ => .error (.invalidRecord lineNumber (.invalidPath name))
    | .ok entry =>
      (d.path.append (entry.appendText (String.ofList value))).map fun p => ⟨p, d.entries + 1⟩

/-- The tree of the record, unless it has no entries. -/
def Draft.finish (d : Draft) : Except Error (Option Tree) :=
  if d.entries = 0 then .ok none else d.path.toTree.map some

/-- Reads the lines from the given number on; the trees so far are given in reverse. -/
def parseLines (done : List Tree) (draft : Draft) (lineNumber : Nat) :
    List (List Char) → Except Error (List Tree)
  | [] => do return (done.reverse ++ (← draft.finish).toList)
  | l :: ls =>
    match Line.ofChars l with
    | .comment => parseLines done draft (lineNumber + 1) ls
    | .entry path value => do
      parseLines done (← draft.add lineNumber path value) (lineNumber + 1) ls
    | .blank => do
      match ← draft.finish with
      | none => parseLines done draft (lineNumber + 1) ls
      | some t => parseLines (t :: done) (← Draft.empty) (lineNumber + 1) ls

end Record

/-- The trees of all records of a text. -/
def parseRecords (text : String) : Except Error (List Tree) := do
  Record.parseLines [] (← Record.Draft.empty) 1 (Record.lines text.toList)

end SpanTree
