import SpanTree.Dictionary

/-!
# Dictionaries: look-ups and growth

`WellFormed` is the invariant of every dictionary that is in use. Under it, looking up a name gives
the one index at which it stands.

`Extends` says that names were only added. Taking back the names that were added since restores the
dictionary exactly.
-/

namespace SpanTree.Dictionary

variable {d d' d'' : Dictionary} {name : String} {i : Nat}

/-- No name is listed twice, and the capacity is kept. -/
structure WellFormed (d : Dictionary) : Prop where
  nodup : d.names.Nodup
  size_le : d.size ≤ d.capacity

theorem wellFormed_ofCapacity (capacity : Nat) : (ofCapacity capacity).WellFormed :=
  ⟨List.nodup_nil, Nat.zero_le _⟩

theorem WellFormed.reset (d : Dictionary) : d.reset.WellFormed :=
  ⟨List.nodup_nil, Nat.zero_le _⟩

/-! ## Looking up -/

theorem name?_of_find (h : d.find name = .index i) : d.name? i = some name := by
  unfold find at h
  split at h
  · next j hj =>
    cases h
    obtain ⟨hlt, heq, -⟩ := List.idxOf?_eq_some_iff.1 hj
    rw [name?, List.getElem?_eq_getElem hlt, heq]
  · split at h <;> cases h

theorem find_of_name? (hd : d.WellFormed) (h : d.name? i = some name) :
    d.find name = .index i := by
  obtain ⟨hlt, heq⟩ := List.getElem?_eq_some_iff.1 h
  have hidx : d.names.idxOf? name = some i :=
    List.idxOf?_eq_some_iff.2 ⟨hlt, heq, fun j hj hjn =>
      absurd ((List.getElem_inj hd.nodup).1 (hjn.trans heq.symm)) (Nat.ne_of_lt hj)⟩
  rw [find, hidx]

theorem lt_size_of_name? (h : d.name? i = some name) : i < d.size :=
  (List.getElem?_eq_some_iff.1 h).1

theorem mem_names_iff : name ∈ d.names ↔ ∃ i, d.find name = .index i := by
  constructor
  · intro h
    unfold find
    split
    · next i _ => exact ⟨i, rfl⟩
    · next hnone => exact absurd h (List.idxOf?_eq_none_iff.1 hnone)
  · intro h
    obtain ⟨i, hi⟩ := h
    exact List.mem_of_getElem? (name?_of_find hi)

/-! ## Learning -/

theorem learn_of_mem (h : name ∈ d.names) : d.learn name = d := by
  unfold learn add
  split
  · rfl
  · simp

theorem learn_of_full (h : d.capacity ≤ d.size) : d.learn name = d := by
  simp [learn, add, isFull, h]

theorem learn_of_room (hnew : name ∉ d.names) (hroom : d.size < d.capacity) :
    d.learn name = { d with names := d.names ++ [name] } := by
  simp [learn, add, isFull, hnew, Nat.not_le.2 hroom]

theorem learn_of_find_index (h : d.find name = .index i) : d.learn name = d :=
  learn_of_mem (List.mem_of_getElem? (name?_of_find h))

theorem learn_of_find_overflow (h : d.find name = .overflow) : d.learn name = d := by
  have hfull : d.isFull = true := by
    unfold find at h
    split at h
    · cases h
    · split at h
      · assumption
      · cases h
  rw [learn, add, if_pos hfull]

theorem find_ne_duplicate : d.find name ≠ .duplicate := by
  unfold find
  split
  · simp
  · split <;> simp

theorem WellFormed.learn (hd : d.WellFormed) (name : String) : (d.learn name).WellFormed := by
  unfold Dictionary.learn add
  split
  · exact hd
  · next hroom =>
    split
    · exact hd
    · next hnew =>
      have hlt : d.size < d.capacity := by simpa [isFull] using hroom
      refine ⟨List.nodup_append.2 ⟨hd.nodup, by simp, by grind⟩, ?_⟩
      simpa [size] using Nat.succ_le_of_lt hlt

/-! ## Growth -/

/-- Names may have been added behind those of `d`. -/
structure Extends (d' d : Dictionary) : Prop where
  capacity_eq : d'.capacity = d.capacity
  names_prefix : d.names <+: d'.names

theorem Extends.refl (d : Dictionary) : d.Extends d := ⟨rfl, List.prefix_rfl⟩

theorem Extends.trans (h : d''.Extends d') (h' : d'.Extends d) : d''.Extends d :=
  ⟨h.capacity_eq.trans h'.capacity_eq, h'.names_prefix.trans h.names_prefix⟩

theorem extends_learn (d : Dictionary) (name : String) : (d.learn name).Extends d := by
  refine ⟨capacity_learn d name, ?_⟩
  rw [names_learn]
  split
  · exact List.prefix_rfl
  · exact List.prefix_append _ _

theorem Extends.truncate (h : d'.Extends d) : d'.truncate d.size = d := by
  have hnames : d'.names.take d.names.length = d.names :=
    (List.prefix_iff_eq_take.1 h.names_prefix).symm
  rw [Dictionary.truncate, size, hnames, h.capacity_eq]

/-- Some names were learned, one after the other. -/
def Learns (d d' : Dictionary) : Prop := ∃ names : List String, d' = names.foldl learn d

theorem Learns.refl (d : Dictionary) : d.Learns d := ⟨[], rfl⟩

theorem learns_learn (d : Dictionary) (name : String) : d.Learns (d.learn name) := ⟨[name], rfl⟩

theorem Learns.trans (h : d.Learns d') (h' : d'.Learns d'') : d.Learns d'' := by
  obtain ⟨names, rfl⟩ := h
  obtain ⟨names', rfl⟩ := h'
  exact ⟨names ++ names', (List.foldl_append ..).symm⟩

theorem Learns.extends (h : d.Learns d') : d'.Extends d := by
  obtain ⟨names, rfl⟩ := h
  induction names generalizing d with
  | nil => exact .refl d
  | cons name names ih => exact ih.trans (extends_learn d name)

theorem Learns.wellFormed (h : d.Learns d') (hd : d.WellFormed) : d'.WellFormed := by
  obtain ⟨names, rfl⟩ := h
  induction names generalizing d with
  | nil => exact hd
  | cons name names ih => exact ih (hd.learn name)

end SpanTree.Dictionary
