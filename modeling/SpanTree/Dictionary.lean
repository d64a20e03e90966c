/-!
# Bounded dictionaries of names

A dictionary numbers names densely from 0 in the order in which they came, up to its capacity. Two
parties that see the same names in the same order have the same dictionary.

Invariant kept by every operation: no name is listed twice, and there are at most `capacity` names.
-/

namespace SpanTree

structure Dictionary where
  capacity : Nat
  names : List String
deriving DecidableEq, Repr

namespace Dictionary

/-- What a look-up or an addition comes to. -/
inductive Answer
  /-- The name is, or was just, stored at the index. -/
  | index (i : Nat)
  /-- The name is absent and there is room for it. -/
  | notFound
  /-- The name is absent and there is no room. -/
  | overflow
  /-- The name to be added was there already. -/
  | duplicate
deriving DecidableEq, Repr

def ofCapacity (capacity : Nat) : Dictionary := ⟨capacity, []⟩

def size (d : Dictionary) : Nat := d.names.length

def isEmpty (d : Dictionary) : Bool := d.names.isEmpty

def isFull (d : Dictionary) : Bool := d.capacity ≤ d.size

def find (d : Dictionary) (name : String) : Answer :=
  match d.names.idxOf? name with
  | some i => .index i
  | none => if d.isFull then .overflow else .notFound

/-- A full dictionary refuses every name, known ones too. -/
def add (d : Dictionary) (name : String) : Answer × Dictionary :=
  if d.isFull then (.overflow, d)
  else if name ∈ d.names then (.duplicate, d)
  else (.index d.size, { d with names := d.names ++ [name] })

def name? (d : Dictionary) (i : Nat) : Option String := d.names[i]?

def reset (d : Dictionary) : Dictionary := { d with names := [] }

/-- Forgets all but the first `n` names. -/
def truncate (d : Dictionary) (n : Nat) : Dictionary := { d with names := d.names.take n }

/-- The dictionary after a name was met on the wire or written in full. -/
def learn (d : Dictionary) (name : String) : Dictionary := (d.add name).2

@[simp] theorem capacity_add (d : Dictionary) (name : String) :
    (d.add name).2.capacity = d.capacity := by
  unfold add
  split
  · rfl
  · split <;> rfl

@[simp] theorem capacity_learn (d : Dictionary) (name : String) :
    (d.learn name).capacity = d.capacity := capacity_add d name

theorem names_learn (d : Dictionary) (name : String) :
    (d.learn name).names =
      if d.isFull ∨ name ∈ d.names then d.names else d.names ++ [name] := by
  unfold learn add
  by_cases hf : d.isFull = true
  · simp [hf]
  · by_cases hm : name ∈ d.names <;> simp [hf, hm]

@[simp] theorem truncate_size (d : Dictionary) : d.truncate d.size = d := by
  simp [truncate, size]

end Dictionary

end SpanTree
