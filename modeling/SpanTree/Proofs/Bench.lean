import SpanTree.Proofs.Bounds
import SpanTree.Proofs.Draft

/-!
# Trees on a bench

On a bench stand any number of trees, at places with numbers. An action makes a tree, copies one,
or lets one grow, and it may use up another tree of the bench in doing so. What fails leaves the
tree that it was to change as it is.

The same actions are carried out on drafts, with tools of their own (`Tools`). The tools for trees
and those for drafts agree (`agrees_tree`), so a bench of trees is at any time the bench of the
drafts, laid out (`map_step`, `map_run`). The main result says what every tree on a bench shows.
-/

namespace SpanTree

/-- A push that moves the buffer of the child: a tree without bytes takes it over as it is. -/
def Tree.pushMoving (t child : Tree) : Tree :=
  let node := child.root.moved t.root.stop
  ⟨{ t.root with stop := node.stop, children := t.root.children ++ [node] },
    if t.raw.isEmpty then child.raw else t.raw ++ child.raw⟩

theorem Tree.pushMoving_eq_push (t child : Tree) : t.pushMoving child = t.push child := by
  obtain ⟨root, raw⟩ := t
  cases raw <;> rfl

/-- What is done to things on a bench. Where something fails, there is no result. -/
structure Tools (α : Type) where
  empty : α
  named : String → Option α
  rename : α → String → Option α
  appendText : α → String → α
  appendBytes : α → Bytes → α
  appendValue : α → Tree.Value → α
  /-- The second is used up. -/
  push : α → α → α
  /-- The second is copied. -/
  pushCopy : α → α → α
  merge : α → α → Option α

namespace Tools

def trees : Tools Tree where
  empty := .empty
  named name := (Tree.named name).toOption
  rename t name := (t.rename name).toOption
  appendText := Tree.appendText
  appendBytes := Tree.appendBytes
  appendValue := Tree.appendValue
  push := Tree.pushMoving
  pushCopy := Tree.push
  merge t other := (t.merge other .concatenate).toOption

def drafts : Tools Draft where
  empty := .empty
  named := Draft.named
  rename := Draft.rename
  appendText d s := d.appendBytes (Utf8.encode s)
  appendBytes := Draft.appendBytes
  appendValue d v := d.appendBytes (Utf8.encode v.toText)
  push := Draft.push
  pushCopy := Draft.push
  merge := Draft.merge

/-- With the tools of either side, what is done to corresponding things corresponds. -/
structure Agrees {α β : Type} (f : α → β) (k : Tools α) (l : Tools β) : Prop where
  empty : l.empty = f k.empty
  named : ∀ name, l.named name = (k.named name).map f
  rename : ∀ a name, l.rename (f a) name = (k.rename a name).map f
  appendText : ∀ a s, l.appendText (f a) s = f (k.appendText a s)
  appendBytes : ∀ a bs, l.appendBytes (f a) bs = f (k.appendBytes a bs)
  appendValue : ∀ a v, l.appendValue (f a) v = f (k.appendValue a v)
  push : ∀ a b, l.push (f a) (f b) = f (k.push a b)
  pushCopy : ∀ a b, l.pushCopy (f a) (f b) = f (k.pushCopy a b)
  merge : ∀ a b, l.merge (f a) (f b) = (k.merge a b).map f

theorem agrees_tree : Agrees Draft.tree drafts trees where
  empty := Draft.tree_empty.symm
  named := Draft.tree_named
  rename := Draft.tree_rename
  appendText d s := (d.tree_appendBytes (Utf8.encode s)).symm
  appendBytes d bs := (d.tree_appendBytes bs).symm
  appendValue d v := (d.tree_appendBytes (Utf8.encode v.toText)).symm
  push d e := (Tree.pushMoving_eq_push d.tree e.tree).trans (d.tree_push e).symm
  pushCopy d e := (d.tree_push e).symm
  merge := Draft.tree_merge

end Tools

/-- What stands at the places of a bench. -/
abbrev Bench (α : Type) := Nat → Option α

namespace Bench

inductive Action
  | empty (i : Nat)
  | named (i : Nat) (name : String)
  /-- A copy of what stands at the second place is put at the first. -/
  | copy (i j : Nat)
  | rename (i : Nat) (name : String)
  | appendText (i : Nat) (s : String)
  | appendBytes (i : Nat) (bs : Bytes)
  | appendValue (i : Nat) (v : Tree.Value)
  /-- What stands at the second place is moved to the end of what stands at the first. -/
  | push (i j : Nat)
  | pushCopy (i j : Nat)
  /-- What stands at the second place is used up, also where the names are in conflict. -/
  | merge (i j : Nat)
deriving DecidableEq, Repr

variable {α β : Type}

def bare : Bench α := fun _ => none

/-- Puts a result at a place; where there is none, the place stays what it is. -/
def put (b : Bench α) (i : Nat) (a? : Option α) : Bench α :=
  fun j => if j = i then a?.or (b i) else b j

def clear (b : Bench α) (i : Nat) : Bench α := fun j => if j = i then none else b j

def change (b : Bench α) (i : Nat) (f : α → Option α) : Bench α := b.put i ((b i).bind f)

/-- What stands at `j` is used up for what stands at `i`. Nothing can be used up for itself. -/
def use (b : Bench α) (i j : Nat) (f : α → α → Option α) : Bench α :=
  if i = j then b
  else
    match b i, b j with
    | some a, some other => (b.clear j).put i (f a other)
    | _, _ => b

def step (k : Tools α) (b : Bench α) : Action → Bench α
  | .empty i => b.put i (some k.empty)
  | .named i name => b.put i (k.named name)
  | .copy i j => b.put i (b j)
  | .rename i name => b.change i (k.rename · name)
  | .appendText i s => b.change i fun a => some (k.appendText a s)
  | .appendBytes i bs => b.change i fun a => some (k.appendBytes a bs)
  | .appendValue i v => b.change i fun a => some (k.appendValue a v)
  | .push i j => b.use i j fun a other => some (k.push a other)
  | .pushCopy i j => b.change i fun a => (b j).map (k.pushCopy a)
  | .merge i j => b.use i j k.merge

/-- The bench after actions that began with nothing. -/
def run (k : Tools α) (actions : List Action) : Bench α := actions.foldl (step k) bare

/-! ## Corresponding benches -/

def map (f : α → β) (b : Bench α) : Bench β := fun i => (b i).map f

variable {f : α → β} {b : Bench α} {i j : Nat}

theorem map_put (a? : Option α) : (b.put i a?).map f = (b.map f).put i (a?.map f) := by
  funext j
  unfold map put
  by_cases hj : j = i
  · rw [if_pos hj, if_pos hj]
    cases a? <;> rfl
  · rw [if_neg hj, if_neg hj]

theorem map_clear : (b.clear i).map f = (b.map f).clear i := by
  funext j
  unfold map clear
  by_cases hj : j = i
  · rw [if_pos hj, if_pos hj]
    rfl
  · rw [if_neg hj, if_neg hj]

theorem map_change {g : α → Option α} {h : β → Option β} (hgh : ∀ a, h (f a) = (g a).map f) :
    (b.change i g).map f = (b.map f).change i h := by
  rw [change, change, map_put]
  congr 1
  show ((b i).bind g).map f = ((b i).map f).bind h
  cases b i with
  | none => rfl
  | some a => exact (hgh a).symm

theorem map_use {g : α → α → Option α} {h : β → β → Option β}
    (hgh : ∀ a a', h (f a) (f a') = (g a a').map f) :
    (b.use i j g).map f = (b.map f).use i j h := by
  unfold use
  by_cases hij : i = j
  · rw [if_pos hij, if_pos hij]
  · rw [if_neg hij, if_neg hij]
    have hi : b.map f i = (b i).map f := rfl
    have hj : b.map f j = (b j).map f := rfl
    rw [hi, hj]
    rcases b i with _ | a
    · rfl
    · rcases b j with _ | other
      · rfl
      · show ((b.clear j).put i (g a other)).map f = ((b.map f).clear j).put i (h (f a) (f other))
        rw [map_put, map_clear, hgh]

variable {k : Tools α} {l : Tools β}

theorem map_step (h : k.Agrees f l) (action : Action) :
    (b.step k action).map f = (b.map f).step l action := by
  cases action with
  | empty i => rw [step, step, map_put, h.empty]; rfl
  | named i name => rw [step, step, map_put, h.named]
  | copy i j => exact map_put _
  | rename i name => exact map_change fun a => h.rename a name
  | appendText i s => exact map_change fun a => congrArg some (h.appendText a s)
  | appendBytes i bs => exact map_change fun a => congrArg some (h.appendBytes a bs)
  | appendValue i v => exact map_change fun a => congrArg some (h.appendValue a v)
  | push i j => exact map_use fun a other => congrArg some (h.push a other)
  | pushCopy i j =>
    refine map_change fun a => ?_
    show ((b j).map f).map (l.pushCopy (f a)) = ((b j).map (k.pushCopy a)).map f
    cases b j with
    | none => rfl
    | some other => exact congrArg some (h.pushCopy a other)
  | merge i j => exact map_use h.merge

theorem map_run (h : k.Agrees f l) (actions : List Action) :
    (run k actions).map f = run l actions := by
  have hfrom : ∀ b : Bench α,
      (actions.foldl (step k) b).map f = actions.foldl (step l) (b.map f) := by
    induction actions with
    | nil => exact fun _ => rfl
    | cons action actions ih =>
      intro b
      rw [List.foldl_cons, List.foldl_cons, ih, map_step h]
  exact hfrom bare

end Bench

/-! ## What trees on a bench show -/

/-- A tree as it stands on a bench, and what was written into it: the buffer is all that was
written, in order; the children are the trees that were pushed or came with a merge, in order, each
as it was; every node has the name and the text that it had when it was pushed; and nothing is out
of range. -/
structure Tree.Shows (t : Tree) (d : Draft) : Prop where
  isValid : t.isValid = true
  raw : t.raw = d.bytes
  children : t.root.children.map t.cut = d.children.map Draft.tree
  labels : t.labels = d.labels
  inRange : t.InRange

theorem Draft.shows (d : Draft) : d.tree.Shows d where
  isValid := d.isValid_tree
  raw := rfl
  children := d.cut_children
  labels := d.labels_tree
  inRange := Tree.inRange d.isValid_tree

/-- **Trees are well formed and faithful.** After any actions, there is a tree at a place of the
bench if and only if there is a draft, and the tree shows what was written into the draft. -/
theorem Bench.trees_show_drafts (actions : List Action) (i : Nat) :
    Option.Rel Tree.Shows (run Tools.trees actions i) (run Tools.drafts actions i) := by
  have hrun : run Tools.trees actions i = (run Tools.drafts actions i).map Draft.tree := by
    rw [← map_run Tools.agrees_tree]
    rfl
  rw [hrun]
  cases run Tools.drafts actions i with
  | none => exact .none
  | some d => exact .some d.shows

end SpanTree
