/-!
# Cutting a text at a separator

`pieces sep cs` is the list of stretches between the separators, empty ones included: one more
than there are separators. `cut sep cs` is the first stretch and what follows its separator.
-/

namespace SpanTree.Text

def pieces (sep : Char) (cs : List Char) : List (List Char) :=
  cs.foldr
    (fun c ps => if c = sep then [] :: ps else (c :: ps.head?.getD []) :: ps.tail) [[]]

@[simp] theorem pieces_nil (sep : Char) : pieces sep [] = [[]] := rfl

theorem pieces_cons (sep c : Char) (cs : List Char) :
    pieces sep (c :: cs) =
      if c = sep then [] :: pieces sep cs
      else (c :: (pieces sep cs).head?.getD []) :: (pieces sep cs).tail := rfl

theorem pieces_ne_nil (sep : Char) (cs : List Char) : pieces sep cs ≠ [] := by
  cases cs with
  | nil => simp
  | cons c cs => rw [pieces_cons]; split <;> simp

/-- The pieces, joined by the separator again. -/
def unite (sep : Char) : List (List Char) → List Char
  | [] => []
  | [p] => p
  | p :: ps => p ++ sep :: unite sep ps

theorem unite_pieces (sep : Char) (cs : List Char) : unite sep (pieces sep cs) = cs := by
  induction cs with
  | nil => rfl
  | cons c cs ih =>
    rw [pieces_cons]
    cases h : pieces sep cs with
    | nil => exact absurd h (pieces_ne_nil sep cs)
    | cons p ps =>
      rw [h] at ih
      split
      · next hc => simp [unite, ih, hc]
      · cases ps with
        | nil => simpa [unite] using ih
        | cons q qs => simpa [unite] using ih

/-- The text before the first separator and the text after it, if there is one. -/
def cut (sep : Char) (cs : List Char) : List Char × Option (List Char) :=
  match cs.dropWhile (· != sep) with
  | [] => (cs, none)
  | _ :: rest => (cs.takeWhile (· != sep), some rest)

end SpanTree.Text
