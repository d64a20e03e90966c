import SpanTree.Bytes

/-!
# Nodes: named spans over a raw buffer

A node names the bytes `[start, stop)` of a buffer that it does not hold. Its children lie inside
it, from left to right, without overlapping; the bytes between them belong to the node alone.

`fits lo hi` checks exactly that for a node which has the bytes `[lo, hi)` at its disposal, and
`moved` shows that shifting a whole subtree by some bytes keeps it.
-/

namespace SpanTree

/-- A named span with the spans inside it. -/
structure Node where
  name : String
  start : Nat
  stop : Nat
  children : List Node
deriving Repr

namespace Node

/-- A node that covers nothing, at the front of a buffer. -/
def blank (name : String) : Node := ⟨name, 0, 0, []⟩

instance : Inhabited Node := ⟨blank ""⟩

def length (n : Node) : Nat := n.stop - n.start

def isEmpty (n : Node) : Bool := n.start == n.stop

/-- The bytes of the buffer that the node names. -/
def text (n : Node) (raw : Bytes) : Bytes := raw.extract n.start n.stop

/-! ## Equality -/

mutual

def beq : Node → Node → Bool
  | ⟨name, start, stop, children⟩, ⟨name', start', stop', children'⟩ =>
    name == name' && start == start' && stop == stop' && beqAll children children'

def beqAll : List Node → List Node → Bool
  | [], [] => true
  | n :: ns, m :: ms => beq n m && beqAll ns ms
  | _, _ => false

end

instance : BEq Node := ⟨beq⟩

mutual

theorem eq_of_beq : ∀ {n m : Node}, beq n m = true → n = m
  | ⟨name, start, stop, children⟩, ⟨name', start', stop', children'⟩, h => by
    simp only [beq, Bool.and_eq_true, beq_iff_eq] at h
    obtain ⟨⟨⟨rfl, rfl⟩, rfl⟩, hc⟩ := h
    rw [eq_of_beqAll hc]

theorem eq_of_beqAll : ∀ {ns ms : List Node}, beqAll ns ms = true → ns = ms
  | [], [], _ => rfl
  | n :: ns, m :: ms, h => by
    simp only [beqAll, Bool.and_eq_true] at h
    rw [eq_of_beq h.1, eq_of_beqAll h.2]
  | [], _ :: _, h => by simp [beqAll] at h
  | _ :: _, [], h => by simp [beqAll] at h

end

mutual

theorem beq_self : ∀ n : Node, beq n n = true
  | ⟨_, _, _, children⟩ => by simp [beq, beqAll_self children]

theorem beqAll_self : ∀ ns : List Node, beqAll ns ns = true
  | [] => rfl
  | n :: ns => by simp [beqAll, beq_self n, beqAll_self ns]

end

instance : LawfulBEq Node where
  eq_of_beq := eq_of_beq
  rfl := beq_self _

instance : DecidableEq Node := fun n m =>
  if h : beq n m = true then isTrue (eq_of_beq h)
  else isFalse fun e => h (e ▸ beq_self n)

/-! ## Moving a subtree -/

mutual

/-- The subtree, `k` bytes further to the right. -/
def moved (k : Nat) : Node → Node
  | ⟨name, start, stop, children⟩ => ⟨name, start + k, stop + k, movedAll k children⟩

def movedAll (k : Nat) : List Node → List Node
  | [] => []
  | n :: ns => moved k n :: movedAll k ns

end

@[simp] theorem name_moved (k : Nat) (n : Node) : (n.moved k).name = n.name := by
  cases n; rfl

@[simp] theorem start_moved (k : Nat) (n : Node) : (n.moved k).start = n.start + k := by
  cases n; rfl

@[simp] theorem stop_moved (k : Nat) (n : Node) : (n.moved k).stop = n.stop + k := by
  cases n; rfl

@[simp] theorem children_moved (k : Nat) (n : Node) :
    (n.moved k).children = movedAll k n.children := by
  cases n; rfl

theorem movedAll_eq_map (k : Nat) (ns : List Node) : movedAll k ns = ns.map (moved k) := by
  induction ns with
  | nil => rfl
  | cons n ns ih => simp [movedAll, ih]

/-! ## Placing spans -/

mutual

/-- The node lies within `[lo, hi)`, and so do its children within it, one after the other. -/
def fits (lo hi : Nat) : Node → Bool
  | ⟨_, start, stop, children⟩ =>
    lo ≤ start && stop ≤ hi && start ≤ stop && fitsAll start stop children

/-- The nodes follow one another within `[lo, hi)`. -/
def fitsAll (lo hi : Nat) : List Node → Bool
  | [] => true
  | n :: ns => fits lo hi n && fitsAll n.stop hi ns

end

mutual

theorem fits_moved (k lo hi : Nat) : ∀ n : Node, (n.moved k).fits (lo + k) (hi + k) = n.fits lo hi
  | ⟨_, start, stop, children⟩ => by
    simp [moved, fits, fitsAll_movedAll k start stop children]

theorem fitsAll_movedAll (k lo hi : Nat) : ∀ ns : List Node,
    fitsAll (lo + k) (hi + k) (movedAll k ns) = fitsAll lo hi ns
  | [] => rfl
  | n :: ns => by
    simp only [movedAll, fitsAll, fits_moved k lo hi n, stop_moved,
      fitsAll_movedAll k n.stop hi ns]

end

/-! ## Walking a subtree -/

mutual

/-- The node and all below it, each before its children, with the depth at which it lies. -/
def preorder (depth : Nat) : Node → List (Nat × Node)
  | ⟨name, start, stop, children⟩ =>
    (depth, ⟨name, start, stop, children⟩) :: preorderAll (depth + 1) children

def preorderAll (depth : Nat) : List Node → List (Nat × Node)
  | [] => []
  | n :: ns => preorder depth n ++ preorderAll depth ns

end

end Node

end SpanTree
