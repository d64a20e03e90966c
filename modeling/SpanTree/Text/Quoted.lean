import SpanTree.Text.Unprintable
import SpanTree.Text.Combining

/-!
# Quoted text

Messages show names and paths between double quotes, in a form that cannot be mistaken: quotes and
backslashes are escaped, the usual controls have letters, and a character that has no visible form
of its own, or that would attach to the one before it, is spelled out by number.
-/

namespace SpanTree.Text

def quoteChar (c : Char) : List Char :=
  if c = '"' then ['\\', '"']
  else if c = '\\' then ['\\', '\\']
  else if c = '\n' then ['\\', 'n']
  else if c = '\r' then ['\\', 'r']
  else if c = '\t' then ['\\', 't']
  else if c = Char.ofNat 0 then ['\\', '0']
  else if isUnprintable c || isCombining c then
    ['\\', 'u', '\x7b'] ++ Nat.toDigits 16 c.toNat ++ ['\x7d']
  else [c]

/-- The text in double quotes. -/
def quote (s : String) : String :=
  String.ofList (['"'] ++ s.toList.flatMap quoteChar ++ ['"'])

end SpanTree.Text
