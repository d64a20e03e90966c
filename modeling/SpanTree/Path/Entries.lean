import SpanTree.Tree

/-!
# Sorted entries

A finite map from keys to values, as the list of its pairs with strictly increasing keys. Keys are
compared character by character, which is also the order of their UTF-8 bytes.
-/

namespace SpanTree

abbrev Entries (α : Type) := List (String × α)

namespace Entries

variable {α : Type}

def get? : Entries α → String → Option α
  | [], _ => none
  | (k, v) :: es, key => if k = key then some v else get? es key

/-- Replaces or adds the value at a key. -/
def insert (key : String) (v : α) : Entries α → Entries α
  | [] => [(key, v)]
  | (k, w) :: es =>
    if key < k then (key, v) :: (k, w) :: es
    else if k = key then (key, v) :: es
    else (k, w) :: insert key v es

/-- The least key. -/
def firstKey? (es : Entries α) : Option String := es.head?.map Prod.fst

theorem get?_insert_self (key : String) (v : α) (es : Entries α) :
    get? (insert key v es) key = some v := by
  induction es with
  | nil => simp [insert, get?]
  | cons e es ih =>
    obtain ⟨k, w⟩ := e
    simp only [insert]
    split
    · simp [get?]
    · split
      · simp [get?]
      · next hk => simp [get?, hk, ih]

end Entries

end SpanTree
