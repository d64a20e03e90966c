import Mathlib.Data.List.Induction
import SpanTree.Proofs.NameTable
import SpanTree.Proofs.Occurrences

/-!
# What a table of names is after any sequence of actions

Names are added to a table and looked up in it, it is emptied, and names are taken back from it. An
index is kept in sixteen bits, and so is the capacity.

**Theorem (`run_refines`).** After any sequence of actions on an empty table the map and the list
are inverse to each other, the list has no name twice and no more than `capacity` names, and each
action answers and does what it answers and does on the plain list. The name at index `i` was added
when the table held `i` names, and the table held more ever since. Taking back all but `n` names
restores the table as it was when it last held `n` names, both of its halves.

The two statements about the past rest on one observation: a table grows by one name at a time, so
it cannot come to hold more than `n` names without having held `n` (`exists_lastHeld`). Ever since
that moment no action has reached down to the first `n` names (`truncate_run_append`).
-/

namespace SpanTree

/-- What is done to names. -/
inductive Dictionary.Action
  | add (name : String)
  | find (name : String)
  | reset
  | truncate (n : Nat)
deriving DecidableEq, Repr

namespace Dictionary

variable {d : Dictionary} {actions before after : List Action} {capacity n : Nat}

def act (d : Dictionary) : Action → Option Answer × Dictionary
  | .add name => let (answer, d) := d.add name; (some answer, d)
  | .find name => (some (d.find name), d)
  | .reset => (none, d.reset)
  | .truncate n => (none, d.truncate n)

def run (capacity : Nat) (actions : List Action) : Dictionary :=
  actions.foldl (fun d action => (d.act action).2) (ofCapacity capacity)

theorem run_concat (capacity : Nat) (actions : List Action) (action : Action) :
    run capacity (actions ++ [action]) = ((run capacity actions).act action).2 :=
  List.foldl_append ..

/-! ## One action -/

theorem add_cases (d : Dictionary) (name : String) :
    (d.capacity ≤ d.size ∧ d.add name = (.overflow, d)) ∨
    (d.size < d.capacity ∧ name ∈ d.names ∧ d.add name = (.duplicate, d)) ∨
    (d.size < d.capacity ∧ name ∉ d.names ∧
      d.add name = (.index d.size, { d with names := d.names ++ [name] })) := by
  by_cases hfull : d.capacity ≤ d.size
  · exact .inl ⟨hfull, by simp [add, isFull, hfull]⟩
  · have hroom := Nat.lt_of_not_le hfull
    by_cases hmem : name ∈ d.names
    · exact .inr (.inl ⟨hroom, hmem, by simp [add, isFull, hfull, hmem]⟩)
    · exact .inr (.inr ⟨hroom, hmem, by simp [add, isFull, hfull, hmem]⟩)

theorem find_cases (d : Dictionary) (name : String) :
    (name ∈ d.names ∧ ∃ i, d.find name = .index i) ∨
    (name ∉ d.names ∧ d.size < d.capacity ∧ d.find name = .notFound) ∨
    (name ∉ d.names ∧ d.capacity ≤ d.size ∧ d.find name = .overflow) := by
  by_cases hmem : name ∈ d.names
  · exact .inl ⟨hmem, mem_names_iff.1 hmem⟩
  · have hnone := List.idxOf?_eq_none_iff.2 hmem
    by_cases hfull : d.capacity ≤ d.size
    · exact .inr (.inr ⟨hmem, hfull, by simp [find, isFull, hnone, hfull]⟩)
    · exact .inr (.inl ⟨hmem, Nat.lt_of_not_le hfull, by simp [find, isFull, hnone, hfull]⟩)

/-- An action adds a name behind the others or takes back all but some. -/
theorem act_cases (d : Dictionary) (action : Action) :
    (∃ name, action = .add name ∧ d.add name = (.index d.size, (d.act action).2) ∧
      (d.act action).2 = { d with names := d.names ++ [name] }) ∨
    ∃ k, (d.act action).2 = d.truncate k := by
  cases action with
  | add name =>
    obtain ⟨-, hadd⟩ | ⟨-, -, hadd⟩ | ⟨-, -, hadd⟩ := d.add_cases name
    · exact .inr ⟨d.size, by rw [truncate_size, act, hadd]⟩
    · exact .inr ⟨d.size, by rw [truncate_size, act, hadd]⟩
    · exact .inl ⟨name, rfl, by rw [act, hadd], by rw [act, hadd]⟩
  | find name => exact .inr ⟨d.size, (truncate_size d).symm⟩
  | reset => exact .inr ⟨0, rfl⟩
  | truncate k => exact .inr ⟨k, rfl⟩

theorem size_act_le (d : Dictionary) (action : Action) : (d.act action).2.size ≤ d.size + 1 := by
  obtain ⟨name, -, -, h⟩ | ⟨k, h⟩ := act_cases d action
  · simp [h, size]
  · rw [h]
    exact Nat.le_succ_of_le (List.length_take_le' ..)

/-- An action that leaves `n` names does not touch the first `n`. -/
theorem truncate_act {action : Action} (hbefore : n ≤ d.size) (hafter : n ≤ (d.act action).2.size) :
    (d.act action).2.truncate n = d.truncate n := by
  obtain ⟨name, -, -, h⟩ | ⟨k, h⟩ := act_cases d action
  · rw [h, truncate, List.take_append_of_le_length hbefore, truncate]
  · rw [h] at hafter ⊢
    have hk : n ≤ k := Nat.le_trans hafter (List.length_take_le ..)
    rw [truncate, truncate, List.take_take, Nat.min_eq_left hk, truncate]

theorem capacity_act (d : Dictionary) (action : Action) :
    (d.act action).2.capacity = d.capacity := by
  obtain ⟨name, -, -, h⟩ | ⟨k, h⟩ := act_cases d action
  · rw [h]
  · rw [h, truncate]

theorem WellFormed.act (hd : d.WellFormed) (action : Action) : (d.act action).2.WellFormed := by
  cases action with
  | add name => exact hd.learn name
  | find name => exact hd
  | reset => exact WellFormed.reset d
  | truncate k =>
    exact ⟨hd.nodup.sublist (List.take_sublist k _),
      Nat.le_trans (List.length_take_le' ..) hd.size_le⟩

theorem capacity_run (capacity : Nat) (actions : List Action) :
    (run capacity actions).capacity = capacity := by
  induction actions using List.reverseRecOn with
  | nil => rfl
  | append_singleton actions action ih => rw [run_concat, capacity_act, ih]

/-! ## The past -/

/-- There were `n` names when `before` was done, and more at every moment of `after`. -/
structure LastHeld (capacity n : Nat) (before after : List Action) : Prop where
  size_eq : (run capacity before).size = n
  more : ∀ front, front <+: after → front ≠ [] → n < (run capacity (before ++ front)).size

/-- Whoever has `n` names had `n` names at some last moment. -/
theorem exists_lastHeld (h : n ≤ (run capacity actions).size) :
    ∃ before after, actions = before ++ after ∧ LastHeld capacity n before after := by
  induction actions using List.reverseRecOn with
  | nil => exact ⟨[], [], rfl, (Nat.le_zero.1 h).symm, fun front hf hne =>
      absurd (List.prefix_nil.1 hf) hne⟩
  | append_singleton actions action ih =>
    obtain heq | hlt := Nat.eq_or_lt_of_le h
    · exact ⟨actions ++ [action], [], (List.append_nil _).symm, heq.symm, fun front hf hne =>
        absurd (List.prefix_nil.1 hf) hne⟩
    · -- One action earlier there were at least `n` names.
      have hstep := size_act_le (run capacity actions) action
      rw [← run_concat] at hstep
      obtain ⟨before, after, rfl, hlast⟩ := ih (Nat.le_of_lt_succ (Nat.lt_of_lt_of_le hlt hstep))
      refine ⟨before, after ++ [action], List.append_assoc .., hlast.size_eq, ?_⟩
      intro front hf hne
      obtain rfl | hf := List.prefix_concat_iff.1 hf
      · rwa [← List.append_assoc]
      · exact hlast.more front hf hne

/-- As long as there are `n` names, the first `n` stay. -/
theorem truncate_run_append
    (h : ∀ front, front <+: after → n ≤ (run capacity (before ++ front)).size) :
    (run capacity (before ++ after)).truncate n = (run capacity before).truncate n := by
  induction after using List.reverseRecOn with
  | nil => rw [List.append_nil]
  | append_singleton after action ih =>
    have hbefore := h after (List.prefix_append ..)
    have hafter := h _ List.prefix_rfl
    rw [← List.append_assoc, run_concat] at hafter ⊢
    rw [truncate_act hbefore hafter]
    exact ih fun front hf => h front (hf.trans (List.prefix_append ..))

theorem LastHeld.truncate (h : LastHeld capacity n before after) :
    (run capacity (before ++ after)).truncate n = run capacity before := by
  rw [truncate_run_append, ← h.size_eq, truncate_size]
  intro front hf
  by_cases hne : front = []
  · exact Nat.le_of_eq (by rw [hne, List.append_nil, h.size_eq])
  · exact Nat.le_of_lt (h.more front hf hne)

theorem LastHeld.mono {front : List Action} (h : LastHeld capacity n before after)
    (hfront : front <+: after) : LastHeld capacity n before front :=
  ⟨h.size_eq, fun first hfirst => h.more first (hfirst.trans hfront)⟩

/-- The action behind the last moment with `n` names adds the name that then is at `n`. -/
theorem LastHeld.added (h : LastHeld capacity n before after) (hne : after ≠ []) :
    ∃ name rest, after = .add name :: rest ∧
      ((run capacity before).add name).1 = .index n ∧
      (run capacity (before ++ after)).name? n = some name := by
  obtain ⟨action, rest, rfl⟩ := List.exists_cons_of_ne_nil hne
  have hmore := h.more [action] ⟨rest, rfl⟩ (List.cons_ne_nil _ _)
  rw [run_concat] at hmore
  obtain ⟨name, rfl, hadd, hact⟩ | ⟨k, hact⟩ := act_cases (run capacity before) action
  · refine ⟨name, rest, rfl, by rw [hadd, h.size_eq], ?_⟩
    -- More than `n` names were there ever since, so the one at `n` is still the one added then.
    have hkept : (run capacity (before ++ [.add name] ++ rest)).truncate (n + 1) =
        (run capacity (before ++ [.add name])).truncate (n + 1) := by
      refine truncate_run_append fun front hf => ?_
      rw [List.append_assoc]
      exact h.more _ ((List.prefix_append_right_inj _).2 hf) (List.cons_ne_nil _ _)
    rw [List.append_assoc, List.singleton_append, run_concat, hact] at hkept
    have hnames := congrArg (fun d => d.names[n]?) hkept
    have hsize : (run capacity before).names.length = n := h.size_eq
    simpa [Dictionary.truncate, name?, ← hsize] using hnames
  · -- Taking names back leaves no more than there were.
    rw [hact, ← h.size_eq] at hmore
    exact absurd hmore (Nat.not_lt.2 (List.length_take_le' ..))

/-- The name at `n` is there since it was added to `n` names. -/
theorem exists_added (h : (run capacity actions).name? n = some name) :
    ∃ before after, actions = before ++ .add name :: after ∧
      ((run capacity before).add name).1 = .index n ∧
      ∀ front, front <+: after →
        (run capacity (before ++ .add name :: front)).name? n = some name := by
  have hlt := lt_size_of_name? h
  obtain ⟨before, after, rfl, hlast⟩ := exists_lastHeld (Nat.le_of_lt hlt)
  have hne : after ≠ [] := by
    rintro rfl
    rw [List.append_nil, hlast.size_eq] at hlt
    exact Nat.lt_irrefl n hlt
  obtain ⟨added, rest, rfl, hadd, hname⟩ := hlast.added hne
  obtain rfl : added = name := Option.some.inj (hname.symm.trans h)
  refine ⟨before, rest, rfl, hadd, fun front hf => ?_⟩
  -- The same moment is the last one for each part of the actions that came behind it.
  have hpart := hlast.mono ((List.prefix_append_right_inj [_]).2 hf)
  obtain ⟨name', front', heq, -, hthere⟩ := hpart.added (List.cons_ne_nil _ _)
  cases heq
  exact hthere

/-- Names that are added to an empty dictionary get their indices as they first come. -/
theorem names_run_reset (capacity : Nat) (actions : List Action) (names : List String) :
    (run capacity (actions ++ .reset :: names.map .add)).names = names.eraseDups.take capacity := by
  have hempty : (run capacity actions).reset = ofCapacity capacity := by
    rw [reset, capacity_run, ofCapacity]
  rw [run, List.foldl_append, List.foldl_cons, List.foldl_map, ← names_learned]
  show (names.foldl learn (run capacity actions).reset).names = _
  rw [hempty]

end Dictionary

namespace NameTable

open Dictionary (Action Answer LastHeld)

variable {t : NameTable}

/-! ## Tables -/

/-- Adds a name with the index that is left of its place in sixteen bits. A table of any capacity
would give two names one index; `add` has the places themselves. -/
def register (t : NameTable) (name : String) : Answer × NameTable :=
  t.addAs name (UInt16.ofNat t.size).toNat

def name? (t : NameTable) (i : Nat) : Option String := t.names[i]?

def act (t : NameTable) : Action → Option Answer × NameTable
  | .add name => let (answer, t) := t.register name; (some answer, t)
  | .find name => (some (t.find name), t)
  | .reset => (none, t.reset)
  | .truncate n => (none, t.truncate n)

def run (capacity : UInt16) (actions : List Action) : NameTable :=
  actions.foldl (fun t action => (t.act action).2) (ofCapacity capacity.toNat)

theorem run_concat (capacity : UInt16) (actions : List Action) (action : Action) :
    run capacity (actions ++ [action]) = ((run capacity actions).act action).2 :=
  List.foldl_append ..

/-- The indices of a table with sixteen bits of capacity are not cut. -/
theorem register_eq (h : t.capacity < UInt16.size) (name : String) :
    t.register name = t.add name := by
  by_cases hfull : t.capacity ≤ t.size
  · rw [register, add, addAs, addAs, if_pos hfull, if_pos hfull]
  · have hcut : (UInt16.ofNat t.size).toNat = t.size :=
      UInt16.toNat_ofNat_of_lt' (Nat.lt_trans (Nat.lt_of_not_le hfull) h)
    rw [register, add, hcut]

/-- The invariant of a table in use. -/
structure Indexed (t : NameTable) : Prop where
  synced : t.Synced
  wellFormed : t.dictionary.WellFormed
  capacity_lt : t.capacity < UInt16.size

/-- What an action does to a table it does to the list, and it answers the same. -/
theorem Indexed.act_eq (h : t.Indexed) (action : Action) :
    ((t.act action).1, (t.act action).2.dictionary) = t.dictionary.act action := by
  cases action with
  | add name =>
    have hadd := h.synced.add_eq name
    rw [← register_eq h.capacity_lt] at hadd
    rw [Dictionary.act, ← hadd]
    rfl
  | find name => rw [act, h.synced.find_eq, Dictionary.act]
  | reset => rfl
  | truncate n => rfl

theorem Indexed.act_dictionary (h : t.Indexed) (action : Action) :
    (t.act action).2.dictionary = (t.dictionary.act action).2 :=
  congrArg Prod.snd (h.act_eq action)

theorem Indexed.act (h : t.Indexed) (action : Action) : (t.act action).2.Indexed where
  synced := by
    cases action with
    | add name =>
      show (t.register name).2.Synced
      rw [register_eq h.capacity_lt]
      exact h.synced.add name
    | find name => exact h.synced
    | reset => exact synced_reset t
    | truncate n => exact h.synced.truncate n
  wellFormed := by
    rw [h.act_dictionary]
    exact h.wellFormed.act action
  capacity_lt := by
    show (t.act action).2.dictionary.capacity < UInt16.size
    rw [h.act_dictionary, Dictionary.capacity_act]
    exact h.capacity_lt

theorem indexed_run (capacity : UInt16) (actions : List Action) :
    (run capacity actions).Indexed := by
  induction actions using List.reverseRecOn with
  | nil =>
    exact ⟨synced_ofCapacity _, Dictionary.wellFormed_ofCapacity capacity.toNat, capacity.toNat_lt⟩
  | append_singleton actions action ih =>
    rw [run_concat]
    exact ih.act action

theorem run_dictionary (capacity : UInt16) (actions : List Action) :
    (run capacity actions).dictionary = Dictionary.run capacity.toNat actions := by
  induction actions using List.reverseRecOn with
  | nil => rfl
  | append_singleton actions action ih =>
    rw [run_concat, Dictionary.run_concat, ← ih, (indexed_run capacity actions).act_dictionary]

theorem capacity_run (capacity : UInt16) (actions : List Action) :
    (run capacity actions).capacity = capacity.toNat :=
  (congrArg Dictionary.capacity (run_dictionary capacity actions)).trans
    (Dictionary.capacity_run ..)

theorem size_run (capacity : UInt16) (actions : List Action) :
    (run capacity actions).size = (Dictionary.run capacity.toNat actions).size :=
  congrArg Dictionary.size (run_dictionary capacity actions)

/-! ## What a table is and answers -/

/-- The map and the list give one numbering of distinct names, as many as there is room for. -/
structure Numbering (t : NameTable) : Prop where
  index_iff : ∀ name i, t.index name = some i ↔ t.name? i = some name
  find_iff : ∀ name i, t.find name = .index i ↔ t.name? i = some name
  dense : ∀ i, (∃ name, t.name? i = some name) ↔ i < t.size
  nodup : t.names.Nodup
  size_le : t.size ≤ t.capacity

/-- Looking up a name that is absent tells whether there is room for it. -/
structure Finds (t : NameTable) : Prop where
  notFound_iff : ∀ name, t.find name = .notFound ↔ name ∉ t.names ∧ t.size < t.capacity
  overflow_iff : ∀ name, t.find name = .overflow ↔ name ∉ t.names ∧ t.size = t.capacity
  ne_duplicate : ∀ name, t.find name ≠ .duplicate
  unchanged : ∀ name, (t.act (.find name)).2 = t

/-- A name is added if it is absent and there is room for it; else nothing changes. -/
structure Adds (t : NameTable) : Prop where
  index_iff : ∀ name i, (t.register name).1 = .index i ↔
    i = t.size ∧ t.size < t.capacity ∧ name ∉ t.names
  duplicate_iff : ∀ name, (t.register name).1 = .duplicate ↔ t.size < t.capacity ∧ name ∈ t.names
  overflow_iff : ∀ name, (t.register name).1 = .overflow ↔ t.size = t.capacity
  ne_notFound : ∀ name, (t.register name).1 ≠ .notFound
  appended : ∀ name, t.size < t.capacity → name ∉ t.names →
    (t.register name).2.names = t.names ++ [name]
  unchanged : ∀ name, t.size = t.capacity ∨ name ∈ t.names → (t.register name).2 = t

theorem Indexed.numbering (h : t.Indexed) : Numbering t where
  index_iff := h.synced
  find_iff name i := by
    rw [h.synced.find_eq]
    exact ⟨Dictionary.name?_of_find, Dictionary.find_of_name? h.wellFormed⟩
  dense i := by
    rw [name?, size, ← Option.isSome_iff_exists]
    simp
  nodup := h.wellFormed.nodup
  size_le := h.wellFormed.size_le

theorem Indexed.full_iff (h : t.Indexed) : t.capacity ≤ t.size ↔ t.size = t.capacity :=
  ⟨Nat.le_antisymm h.wellFormed.size_le, fun heq => Nat.le_of_eq heq.symm⟩

theorem Indexed.find_cases (h : t.Indexed) (name : String) :
    (name ∈ t.names ∧ ∃ i, t.find name = .index i) ∨
    (name ∉ t.names ∧ t.size < t.capacity ∧ t.find name = .notFound) ∨
    (name ∉ t.names ∧ t.size = t.capacity ∧ t.find name = .overflow) := by
  rw [h.synced.find_eq, ← h.full_iff]
  exact t.dictionary.find_cases name

theorem Indexed.finds (h : t.Indexed) : Finds t where
  notFound_iff name := by
    grind [h.find_cases name]
  overflow_iff name := by
    grind [h.find_cases name]
  ne_duplicate name := by
    grind [h.find_cases name]
  unchanged name := rfl

theorem Indexed.register_cases (h : t.Indexed) (name : String) :
    (t.size = t.capacity ∧ t.register name = (.overflow, t)) ∨
    (t.size < t.capacity ∧ name ∈ t.names ∧ t.register name = (.duplicate, t)) ∨
    (t.size < t.capacity ∧ name ∉ t.names ∧ (t.register name).1 = .index t.size ∧
      (t.register name).2.names = t.names ++ [name]) := by
  rw [register_eq h.capacity_lt, add, addAs, ← h.synced.mem_iff]
  by_cases hfull : t.capacity ≤ t.size
  · exact .inl ⟨h.full_iff.1 hfull, if_pos hfull⟩
  · have hroom := Nat.lt_of_not_le hfull
    rw [if_neg hfull]
    by_cases hname : (t.index name).isSome
    · exact .inr (.inl ⟨hroom, hname, if_pos hname⟩)
    · rw [if_neg hname]
      exact .inr (.inr ⟨hroom, hname, rfl, rfl⟩)

theorem Indexed.adds (h : t.Indexed) : Adds t where
  index_iff name i := by
    grind [h.register_cases name]
  duplicate_iff name := by
    grind [h.register_cases name]
  overflow_iff name := by
    grind [h.register_cases name]
  ne_notFound name := by
    grind [h.register_cases name]
  appended name hroom hnew := by
    grind [h.register_cases name]
  unchanged name hkept := by
    grind [h.register_cases name]

/-! ## What came before -/

/-- Names have their indices by the order in which they first came: each was added to as many names
as its index says and has stayed, and those added to an empty table are numbered without the ones
that come again, as far as there is room. -/
structure InOrder (capacity : UInt16) (actions : List Action) : Prop where
  added : ∀ i name, (run capacity actions).name? i = some name →
    ∃ before after, actions = before ++ .add name :: after ∧
      ((run capacity before).register name).1 = .index i ∧
      ∀ front, front <+: after →
        (run capacity (before ++ .add name :: front)).name? i = some name
  numbered : ∀ names : List String,
    (run capacity (actions ++ .reset :: names.map .add)).names =
      names.eraseDups.take capacity.toNat

/-- Taking back all but `n` names restores what was there when there last were `n` names. -/
def Rewinds (capacity : UInt16) (actions : List Action) : Prop :=
  ∀ n ≤ (run capacity actions).size, ∃ before after, actions = before ++ after ∧
    (run capacity before).size = n ∧
    (∀ front, front <+: after → front ≠ [] → (run capacity (before ++ front)).size ≠ n) ∧
    (run capacity actions).truncate n = run capacity before

theorem name?_run (capacity : UInt16) (actions : List Action) (i : Nat) :
    (run capacity actions).name? i = (Dictionary.run capacity.toNat actions).name? i :=
  congrArg (fun d => d.name? i) (run_dictionary capacity actions)

theorem register_run (capacity : UInt16) (actions : List Action) (name : String) :
    ((run capacity actions).register name).1 =
      ((Dictionary.run capacity.toNat actions).add name).1 := by
  have hindexed := indexed_run capacity actions
  rw [register_eq hindexed.capacity_lt, ← run_dictionary]
  exact congrArg Prod.fst (hindexed.synced.add_eq name)

theorem inOrder_run (capacity : UInt16) (actions : List Action) : InOrder capacity actions where
  added i name h := by
    simp only [name?_run, register_run] at h ⊢
    exact Dictionary.exists_added h
  numbered names :=
    (congrArg Dictionary.names (run_dictionary capacity _)).trans
      (Dictionary.names_run_reset ..)

theorem rewinds_run (capacity : UInt16) (actions : List Action) : Rewinds capacity actions := by
  intro n hn
  simp only [size_run] at hn ⊢
  obtain ⟨before, after, rfl, hlast⟩ := Dictionary.exists_lastHeld hn
  refine ⟨before, after, rfl, hlast.size_eq, fun front hf hne => ?_, ?_⟩
  · exact Nat.ne_of_gt (hlast.more front hf hne)
  · -- The lists agree, and so do the maps beside them.
    have hafter := (indexed_run capacity (before ++ after)).synced
    refine (hafter.truncate n).ext (indexed_run capacity before).synced ?_
    rw [truncate_dictionary, run_dictionary, run_dictionary, hlast.truncate]

/-- A table is, after anything that was done to it, a numbering of at most `capacity` distinct names
in the order in which they came; it answers as the plain list of them does; and what was added to it
can be taken back. -/
theorem run_refines (capacity : UInt16) (actions : List Action) :
    (run capacity actions).capacity = capacity.toNat ∧
    Numbering (run capacity actions) ∧
    Finds (run capacity actions) ∧
    Adds (run capacity actions) ∧
    (∀ action, (((run capacity actions).act action).1,
        ((run capacity actions).act action).2.dictionary) =
      (Dictionary.run capacity.toNat actions).act action) ∧
    InOrder capacity actions ∧
    Rewinds capacity actions := by
  have h := indexed_run capacity actions
  refine ⟨capacity_run .., h.numbering, h.finds, h.adds, fun action => ?_, inOrder_run ..,
    rewinds_run _ _⟩
  rw [← run_dictionary]
  exact h.act_eq action

example :
    let t := run 8 [.add "a", .add "b", .add "c", .truncate 1]
    t.find "b" = .notFound ∧ (t.register "c").1 = .index 1 := by
  decide

end NameTable

end SpanTree
