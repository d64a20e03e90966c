import SpanTree.Tree

/-!
# Names in a tree

`AllNames p` says that every node of a subtree has a name with the property `p`, and `names` lists
the names in pre-order. Moving a subtree keeps its names.

A tree is `WellFormed` if its spans are in place and no node has a name that is not allowed. There
may be nodes without a name; `NamedBelowRoot` says that none but the root is such.
-/

namespace SpanTree

namespace Node

variable {p q : String → Prop}

mutual

/-- Every name in the subtree has the property. -/
def AllNames (p : String → Prop) : Node → Prop
  | ⟨name, _, _, children⟩ => p name ∧ AllNamesIn p children

def AllNamesIn (p : String → Prop) : List Node → Prop
  | [] => True
  | n :: ns => AllNames p n ∧ AllNamesIn p ns

end

theorem allNames_iff {n : Node} : n.AllNames p ↔ p n.name ∧ AllNamesIn p n.children := by
  cases n
  simp [AllNames]

theorem allNamesIn_append {ns ms : List Node} :
    AllNamesIn p (ns ++ ms) ↔ AllNamesIn p ns ∧ AllNamesIn p ms := by
  induction ns with
  | nil => simp [AllNamesIn]
  | cons n ns ih => simp [AllNamesIn, ih, and_assoc]

mutual

theorem AllNames.mono (h : ∀ s, p s → q s) : ∀ {n : Node}, n.AllNames p → n.AllNames q
  | ⟨_, _, _, _⟩, hn => by
    simp only [AllNames] at hn ⊢
    exact ⟨h _ hn.1, AllNamesIn.mono h hn.2⟩

theorem AllNamesIn.mono (h : ∀ s, p s → q s) : ∀ {ns : List Node}, AllNamesIn p ns → AllNamesIn q ns
  | [], _ => trivial
  | _ :: _, hns => ⟨AllNames.mono h hns.1, AllNamesIn.mono h hns.2⟩

end

mutual

theorem AllNames.and : ∀ {n : Node}, n.AllNames p → n.AllNames q → n.AllNames fun s => p s ∧ q s
  | ⟨_, _, _, _⟩, hp, hq => by
    simp only [AllNames] at hp hq ⊢
    exact ⟨⟨hp.1, hq.1⟩, AllNamesIn.and hp.2 hq.2⟩

theorem AllNamesIn.and : ∀ {ns : List Node}, AllNamesIn p ns → AllNamesIn q ns →
    AllNamesIn (fun s => p s ∧ q s) ns
  | [], _, _ => trivial
  | _ :: _, hp, hq => ⟨AllNames.and hp.1 hq.1, AllNamesIn.and hp.2 hq.2⟩

end

mutual

@[simp] theorem allNames_moved (k : Nat) : ∀ n : Node, (n.moved k).AllNames p ↔ n.AllNames p
  | ⟨_, _, _, children⟩ => by simp [moved, AllNames, allNamesIn_movedAll k children]

@[simp] theorem allNamesIn_movedAll (k : Nat) : ∀ ns : List Node,
    AllNamesIn p (movedAll k ns) ↔ AllNamesIn p ns
  | [] => Iff.rfl
  | n :: ns => by simp [movedAll, AllNamesIn, allNames_moved k n, allNamesIn_movedAll k ns]

end

mutual

theorem AllNames.of_mem_preorder {depth : Nat} {x : Nat × Node} :
    ∀ {n : Node}, n.AllNames p → x ∈ n.preorder depth → p x.2.name
  | ⟨_, _, _, _⟩, hn, hx => by
    simp only [AllNames] at hn
    simp only [preorder, List.mem_cons] at hx
    rcases hx with rfl | hx
    · exact hn.1
    · exact AllNamesIn.of_mem_preorderAll hn.2 hx

theorem AllNamesIn.of_mem_preorderAll {depth : Nat} {x : Nat × Node} :
    ∀ {ns : List Node}, AllNamesIn p ns → x ∈ preorderAll depth ns → p x.2.name
  | [], _, hx => by simp [preorderAll] at hx
  | _ :: _, hns, hx => by
    simp only [preorderAll, List.mem_append] at hx
    rcases hx with hx | hx
    · exact AllNames.of_mem_preorder hns.1 hx
    · exact AllNamesIn.of_mem_preorderAll hns.2 hx

end

mutual

theorem allNames_of_preorder : ∀ {n : Node} (depth : Nat),
    (∀ x ∈ n.preorder depth, p x.2.name) → n.AllNames p
  | ⟨_, _, _, _⟩, depth, h => by
    simp only [preorder, List.forall_mem_cons] at h
    exact ⟨h.1, allNamesIn_of_preorderAll (depth + 1) h.2⟩

theorem allNamesIn_of_preorderAll : ∀ {ns : List Node} (depth : Nat),
    (∀ x ∈ preorderAll depth ns, p x.2.name) → AllNamesIn p ns
  | [], _, _ => trivial
  | _ :: _, depth, h => by
    simp only [preorderAll, List.forall_mem_append] at h
    exact ⟨allNames_of_preorder depth h.1, allNamesIn_of_preorderAll depth h.2⟩

end

/-! ### In the order of the nodes -/

mutual

/-- The names in the subtree, each before those below it. -/
def names : Node → List String
  | ⟨name, _, _, children⟩ => name :: namesAll children

def namesAll : List Node → List String
  | [] => []
  | n :: ns => names n ++ namesAll ns

end

mutual

theorem map_name_preorder : ∀ (n : Node) (depth : Nat), (n.preorder depth).map (·.2.name) = n.names
  | ⟨_, _, _, children⟩, depth => by
    simp [preorder, names, map_name_preorderAll children (depth + 1)]

theorem map_name_preorderAll : ∀ (ns : List Node) (depth : Nat),
    (preorderAll depth ns).map (·.2.name) = namesAll ns
  | [], _ => rfl
  | n :: ns, depth => by
    simp [preorderAll, namesAll, map_name_preorder n depth, map_name_preorderAll ns depth]

end

theorem mem_names_of_below {n : Node} {name : String} (h : name ∈ namesAll n.children) :
    name ∈ n.names := by
  obtain ⟨_, _, _, _⟩ := n
  exact .tail _ h

theorem allNamesIn_of_namesAll {ns : List Node} (h : ∀ name ∈ namesAll ns, p name) :
    AllNamesIn p ns := by
  refine allNamesIn_of_preorderAll 0 ?_
  intro x hx
  apply h
  rw [← map_name_preorderAll ns 0]
  exact List.mem_map_of_mem hx

end Node

namespace Tree

variable {t : Tree} {root? : Option String}

/-- Every node below the root has a name. -/
def NamedBelowRoot (t : Tree) : Prop := Node.AllNamesIn (· ≠ "") t.root.children

/-- The spans are in place, and each node has a name that is allowed or none at all. -/
structure WellFormed (t : Tree) : Prop where
  isValid : t.isValid = true
  names : t.root.AllNames fun s => s = "" ∨ Name.isNode s = true

theorem isValid_iff : t.isValid = true ↔ t.root.start = 0 ∧ t.root.stop = t.raw.length ∧
    Node.fitsAll 0 t.raw.length t.root.children = true := by
  obtain ⟨⟨_, _, _, _⟩, _⟩ := t
  simp only [isValid, Node.fits, Bool.and_eq_true, beq_iff_eq, decide_eq_true_eq]
  constructor
  · rintro ⟨⟨rfl, rfl⟩, -, hkids⟩
    exact ⟨rfl, rfl, hkids⟩
  · rintro ⟨rfl, rfl, hkids⟩
    exact ⟨⟨rfl, rfl⟩, by omega, hkids⟩

theorem text_root (h : t.isValid = true) : t.root.text t.raw = t.raw := by
  obtain ⟨hstart, hstop, -⟩ := isValid_iff.1 h
  rw [Node.text, hstart, hstop]
  simp

theorem fits_of_isValid (h : t.isValid = true) : t.root.fits 0 t.raw.length = true := by
  simp only [isValid, Bool.and_eq_true] at h
  exact h.2

theorem WellFormed.isNode_below (ht : t.WellFormed) (hnamed : t.NamedBelowRoot) :
    Node.AllNamesIn (Name.isNode · = true) t.root.children :=
  ((Node.allNames_iff.1 ht.names).2.and hnamed).mono fun _ h => h.1.resolve_left h.2

/-! ## Roots that take their name from the reader -/

/-- The tree as it is read where all roots are given the same name. -/
def readAs (root? : Option String) (t : Tree) : Tree :=
  match root? with
  | none => t
  | some name => { t with root := { t.root with name := name } }

@[simp] theorem raw_readAs : (t.readAs root?).raw = t.raw := by
  cases root? <;> rfl

@[simp] theorem start_readAs : (t.readAs root?).root.start = t.root.start := by
  cases root? <;> rfl

@[simp] theorem children_readAs : (t.readAs root?).root.children = t.root.children := by
  cases root? <;> rfl

@[simp] theorem stop_readAs : (t.readAs root?).root.stop = t.root.stop := by
  cases root? <;> rfl

@[simp] theorem isValid_readAs : (t.readAs root?).isValid = t.isValid := by
  rw [Bool.eq_iff_iff, isValid_iff, isValid_iff]
  simp

end Tree

end SpanTree
