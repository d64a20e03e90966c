import Mathlib.Logic.Function.Basic
import SpanTree.Proofs.Dictionary

/-!
# Names with an index beside them

A dictionary lists its names in the order of their indices. A *table* keeps a second half beside
the list: a map from each name to its index, in which names are looked up. Whatever changes the list
has to change the map as well; in particular, taking names back removes each of them from the map.

**The halves agree** (`Synced`) as long as every name in the map has the index at which it stands in
the list, and every name in the list is in the map. Each operation keeps this, and then does what
the dictionary that is the list does. Since the list settles what an agreeing map is (`Synced.ext`),
a table whose list is restored is restored altogether.
-/

namespace SpanTree

structure NameTable where
  capacity : Nat
  names : List String
  /-- The index of each name that has one. -/
  index : String → Option Nat

namespace NameTable

open Function (update)

def ofCapacity (capacity : Nat) : NameTable := ⟨capacity, [], fun _ => none⟩

def size (t : NameTable) : Nat := t.names.length

def find (t : NameTable) (name : String) : Dictionary.Answer :=
  match t.index name with
  | some i => .index i
  | none => if t.size < t.capacity then .notFound else .overflow

/-- Adds the name behind the others and gives it this index, if there is room and it is absent. -/
def addAs (t : NameTable) (name : String) (i : Nat) : Dictionary.Answer × NameTable :=
  if t.capacity ≤ t.size then (.overflow, t)
  else if (t.index name).isSome then (.duplicate, t)
  else (.index i, { t with names := t.names ++ [name], index := update t.index name (some i) })

def add (t : NameTable) (name : String) : Dictionary.Answer × NameTable := t.addAs name t.size

def reset (t : NameTable) : NameTable := { t with names := [], index := fun _ => none }

/-- The map without these names. -/
def forget (index : String → Option Nat) (names : List String) : String → Option Nat :=
  names.foldl (fun index name => update index name none) index

/-- Takes back all but the first `n` names, one after the other. -/
def truncate (t : NameTable) (n : Nat) : NameTable :=
  { t with names := t.names.take n, index := forget t.index (t.names.drop n) }

/-- The half that is the list. -/
def dictionary (t : NameTable) : Dictionary := ⟨t.capacity, t.names⟩

/-- The map gives exactly the places of the names in the list. -/
def Synced (t : NameTable) : Prop := ∀ name i, t.index name = some i ↔ t.names[i]? = some name

variable {t t' : NameTable} {name : String} {i : Nat}

/-! ## The list settles the map -/

theorem Synced.mem_iff (h : t.Synced) : (t.index name).isSome = true ↔ name ∈ t.names := by
  rw [Option.isSome_iff_exists, List.mem_iff_getElem?]
  exact exists_congr fun i => h name i

theorem Synced.index_eq (h : t.Synced) (name : String) : t.index name = t.names.idxOf? name := by
  ext i
  rw [h name i, List.idxOf?_eq_some_iff]
  constructor
  · intro hi
    obtain ⟨hlt, heq⟩ := List.getElem?_eq_some_iff.1 hi
    refine ⟨hlt, heq, fun j hj hjn => ?_⟩
    -- A name stands at one place only, since the map gives it one index.
    have hj' : t.index name = some j := (h name j).2 (List.getElem?_eq_some_iff.2 ⟨_, hjn⟩)
    rw [(h name i).2 hi] at hj'
    cases hj'
    exact Nat.lt_irrefl _ hj
  · rintro ⟨hlt, heq, -⟩
    exact List.getElem?_eq_some_iff.2 ⟨hlt, heq⟩

theorem Synced.ext (h : t.Synced) (h' : t'.Synced) (hlist : t.dictionary = t'.dictionary) :
    t = t' := by
  obtain ⟨capacity, names, index⟩ := t
  obtain ⟨capacity', names', index'⟩ := t'
  simp only [dictionary, Dictionary.mk.injEq] at hlist
  obtain ⟨rfl, rfl⟩ := hlist
  have hmap : index = index' := by
    funext name
    exact (h.index_eq name).trans (h'.index_eq name).symm
  rw [hmap]

/-! ## Each operation keeps the halves in agreement -/

theorem synced_ofCapacity (capacity : Nat) : (ofCapacity capacity).Synced := by
  simp [Synced, ofCapacity]

theorem synced_reset (t : NameTable) : t.reset.Synced := by
  simp [Synced, reset]

theorem Synced.find_eq (h : t.Synced) (name : String) : t.find name = t.dictionary.find name := by
  have hindex : t.dictionary.names.idxOf? name = t.index name := (h.index_eq name).symm
  unfold find Dictionary.find
  rw [hindex]
  cases t.index name with
  | some i => rfl
  | none =>
    by_cases hroom : t.size < t.capacity
    · have hfull : t.dictionary.isFull = false := decide_eq_false (Nat.not_le.2 hroom)
      simp [hroom, hfull]
    · have hfull : t.dictionary.isFull = true := decide_eq_true (Nat.not_lt.1 hroom)
      simp [hroom, hfull]

theorem Synced.add_eq (h : t.Synced) (name : String) :
    ((t.add name).1, (t.add name).2.dictionary) = t.dictionary.add name := by
  have hmem : (t.index name).isSome = true ↔ name ∈ t.dictionary.names := h.mem_iff
  unfold add addAs Dictionary.add
  by_cases hfull : t.capacity ≤ t.size
  · have hfull' : t.dictionary.isFull = true := decide_eq_true hfull
    rw [if_pos hfull, if_pos hfull']
  · have hfull' : ¬ t.dictionary.isFull = true := fun hf => hfull (of_decide_eq_true hf)
    rw [if_neg hfull, if_neg hfull']
    by_cases hname : (t.index name).isSome = true
    · rw [if_pos hname, if_pos (hmem.1 hname)]
    · rw [if_neg hname, if_neg fun hin => hname (hmem.2 hin)]
      rfl

theorem Synced.add (h : t.Synced) (name : String) : (t.add name).2.Synced := by
  unfold NameTable.add addAs
  split
  · exact h
  · split
    · exact h
    · next hnew =>
      rw [h.mem_iff] at hnew
      intro other i
      show update t.index name (some t.size) other = some i ↔ (t.names ++ [name])[i]? = some other
      by_cases hother : other = name
      · subst hother
        rw [Function.update_self, List.getElem?_append]
        constructor
        · rintro ⟨⟩
          simp [size]
        · intro hi
          split at hi
          · exact absurd (List.mem_of_getElem? hi) hnew
          · next hge =>
            have hzero : i - t.names.length = 0 := by
              have := (List.getElem?_eq_some_iff.1 hi).1
              simpa using this
            rw [size, Option.some.injEq]
            omega
      · rw [Function.update_of_ne hother, h other i, List.getElem?_append]
        split
        · rfl
        · next hge =>
          rw [List.getElem?_eq_none (Nat.not_lt.1 hge)]
          constructor
          · rintro ⟨⟩
          · intro hi
            have := List.mem_of_getElem? hi
            exact absurd (List.mem_singleton.1 this) hother

theorem forget_apply (index : String → Option Nat) (names : List String) (name : String) :
    forget index names name = if name ∈ names then none else index name := by
  induction names generalizing index with
  | nil => rfl
  | cons other names ih =>
    show forget (update index other none) names name = _
    rw [ih]
    by_cases hname : name = other
    · simp [hname]
    · simp [hname]

/-- Names are taken back from both halves. -/
theorem Synced.truncate (h : t.Synced) (n : Nat) : (t.truncate n).Synced := by
  intro name i
  show forget t.index (t.names.drop n) name = some i ↔ (t.names.take n)[i]? = some name
  rw [forget_apply, List.getElem?_take]
  constructor
  · intro hi
    split at hi
    · cases hi
    · next hkept =>
      have hplace := (h name i).1 hi
      rw [if_pos, hplace]
      -- A name behind the first `n` would have been removed.
      refine Nat.lt_of_not_ge fun hge => hkept (List.mem_iff_getElem?.2 ⟨i - n, ?_⟩)
      rw [List.getElem?_drop, Nat.add_sub_cancel' hge, hplace]
  · intro hi
    split at hi
    · next hlt =>
      have hplace := (h name i).2 hi
      rw [if_neg, hplace]
      intro hdrop
      obtain ⟨j, hj⟩ := List.mem_iff_getElem?.1 hdrop
      rw [List.getElem?_drop, ← h, hplace, Option.some.injEq] at hj
      omega
    · cases hi

theorem truncate_dictionary (t : NameTable) (n : Nat) :
    (t.truncate n).dictionary = t.dictionary.truncate n := rfl

end NameTable

end SpanTree
