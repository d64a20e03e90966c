import SpanTree.Proofs.Growth

/-!
# Drafts

A draft says what was written into a tree, and counts nothing: stretches of text, and nodes that
were finished before, one after the other. A node is finished when it is pushed, and from then on
its name and its parts stay what they are.

`Draft.tree` lays a draft out over one buffer. **It commutes with everything that is done to trees**
(`tree_appendBytes`, `tree_push`, `tree_merge`), so that a tree is the layout of what was written.
Of a layout it is plain that its spans are in place, and that each node has the text of its parts,
however deep it lies and whatever comes behind it.
-/

namespace SpanTree

/-- What can be written into a node: text, or a node that is finished. -/
inductive Part
  | text (bs : Bytes)
  | node (name : String) (parts : List Part)

/-- What a tree shows of a node. -/
structure Label where
  depth : Nat
  name : String
  text : Bytes
deriving DecidableEq, Repr

namespace Part

mutual

def bytes : Part → Bytes
  | text bs => bs
  | node _ parts => bytesAll parts

def bytesAll : List Part → Bytes
  | [] => []
  | p :: ps => bytes p ++ bytesAll ps

end

mutual

/-- The nodes that a part brings, if its bytes begin at the offset. -/
def layout (offset : Nat) : Part → List Node
  | text _ => []
  | node name parts =>
    [⟨name, offset, offset + (bytesAll parts).length, layoutAll offset parts⟩]

def layoutAll (offset : Nat) : List Part → List Node
  | [] => []
  | p :: ps => layout offset p ++ layoutAll (offset + (bytes p).length) ps

end

mutual

/-- The nodes of a part in pre-order, each with the bytes of its own parts. -/
def labels (depth : Nat) : Part → List Label
  | text _ => []
  | node name parts => ⟨depth, name, bytesAll parts⟩ :: labelsAll (depth + 1) parts

def labelsAll (depth : Nat) : List Part → List Label
  | [] => []
  | p :: ps => labels depth p ++ labelsAll depth ps

end

variable {offset k depth : Nat} {ps qs : List Part}

@[simp] theorem bytesAll_append : bytesAll (ps ++ qs) = bytesAll ps ++ bytesAll qs := by
  induction ps with
  | nil => rfl
  | cons p ps ih => simp [bytesAll, ih]

theorem layoutAll_append : layoutAll offset (ps ++ qs) =
    layoutAll offset ps ++ layoutAll (offset + (bytesAll ps).length) qs := by
  induction ps generalizing offset with
  | nil => simp [layoutAll, bytesAll]
  | cons p ps ih => simp [layoutAll, bytesAll, ih, Nat.add_assoc]

mutual

theorem movedAll_layout (k : Nat) : ∀ (p : Part) (offset : Nat),
    Node.movedAll k (layout offset p) = layout (offset + k) p
  | text _, _ => rfl
  | node name parts, offset => by
    have hstop : offset + (bytesAll parts).length + k = offset + k + (bytesAll parts).length := by
      omega
    simp [layout, Node.movedAll, Node.moved, movedAll_layoutAll k parts offset, hstop]

theorem movedAll_layoutAll (k : Nat) : ∀ (ps : List Part) (offset : Nat),
    Node.movedAll k (layoutAll offset ps) = layoutAll (offset + k) ps
  | [], _ => rfl
  | p :: ps, offset => by
    have hnext : offset + (bytes p).length + k = offset + k + (bytes p).length := by omega
    have hp := movedAll_layout k p offset
    have hps := movedAll_layoutAll k ps (offset + (bytes p).length)
    rw [Node.movedAll_eq_map] at hp hps ⊢
    rw [layoutAll, layoutAll, List.map_append, hp, hps, hnext]

end

mutual

theorem fitsAll_layout : ∀ (p : Part) (offset : Nat),
    Node.fitsAll offset (offset + (bytes p).length) (layout offset p) = true
  | text _, _ => rfl
  | node name parts, offset => by
    simp [layout, bytes, Node.fitsAll, Node.fits, fitsAll_layoutAll parts offset]

theorem fitsAll_layoutAll : ∀ (ps : List Part) (offset : Nat),
    Node.fitsAll offset (offset + (bytesAll ps).length) (layoutAll offset ps) = true
  | [], _ => rfl
  | p :: ps, offset => by
    have hrest := fitsAll_layoutAll ps (offset + (bytes p).length)
    rw [Nat.add_assoc, ← List.length_append] at hrest
    refine Node.fitsAll_append (by simp [bytesAll]) (Nat.le_add_right _ _)
      (fitsAll_layout p offset) hrest

end

end Part

/-! ## What is seen of nodes -/

namespace Node

mutual

/-- The subtree, `k` bytes further to the left. -/
def movedBack (k : Nat) : Node → Node
  | ⟨name, start, stop, children⟩ => ⟨name, start - k, stop - k, movedBackAll k children⟩

def movedBackAll (k : Nat) : List Node → List Node
  | [] => []
  | n :: ns => movedBack k n :: movedBackAll k ns

end

mutual

@[simp] theorem movedBack_moved (k : Nat) : ∀ n : Node, (n.moved k).movedBack k = n
  | ⟨name, start, stop, children⟩ => by
    simp [moved, movedBack, movedBackAll_movedAll k children]

theorem movedBackAll_movedAll (k : Nat) : ∀ ns : List Node, movedBackAll k (movedAll k ns) = ns
  | [] => rfl
  | n :: ns => by
    rw [movedAll, movedBackAll, movedBack_moved k n, movedBackAll_movedAll k ns]

end

/-- What is seen of nodes that point into a buffer. -/
def label (raw : Bytes) (x : Nat × Node) : Label := ⟨x.1, x.2.name, x.2.text raw⟩

theorem preorderAll_append (depth : Nat) (ns ms : List Node) :
    preorderAll depth (ns ++ ms) = preorderAll depth ns ++ preorderAll depth ms := by
  induction ns with
  | nil => rfl
  | cons n ns ih => simp [preorderAll, ih]

/-- The stretch of a buffer between what comes before it and what comes behind. -/
theorem text_between {n : Node} {before mid after : Bytes} (hstart : n.start = before.length)
    (hstop : n.stop = before.length + mid.length) : n.text (before ++ (mid ++ after)) = mid := by
  rw [text, List.extract_eq_take_drop, hstart, hstop, List.drop_left, Nat.add_sub_cancel_left,
    List.take_left]

end Node

namespace Part

mutual

/-- **Each node shows the bytes of its own parts**, whatever the buffer holds around them. -/
theorem labels_layout : ∀ (p : Part) (depth : Nat) (before after : Bytes),
    (Node.preorderAll depth (layout before.length p)).map
        (Node.label (before ++ (bytes p ++ after))) = labels depth p
  | text _, _, _, _ => rfl
  | node name parts, depth, before, after => by
    have hbelow := labels_layoutAll parts (depth + 1) before after
    have htext : Node.text ⟨name, before.length, before.length + (bytesAll parts).length,
        layoutAll before.length parts⟩ (before ++ (bytesAll parts ++ after)) = bytesAll parts :=
      Node.text_between rfl rfl
    simp [layout, labels, bytes, Node.preorderAll, Node.preorder, Node.label, htext, ← hbelow]

theorem labels_layoutAll : ∀ (ps : List Part) (depth : Nat) (before after : Bytes),
    (Node.preorderAll depth (layoutAll before.length ps)).map
        (Node.label (before ++ (bytesAll ps ++ after))) = labelsAll depth ps
  | [], _, _, _ => rfl
  | p :: ps, depth, before, after => by
    have hfirst := labels_layout p depth before (bytesAll ps ++ after)
    have hrest := labels_layoutAll ps depth (before ++ bytes p) after
    rw [List.length_append, List.append_assoc] at hrest
    rw [layoutAll, labelsAll, bytesAll, Node.preorderAll_append, List.map_append,
      List.append_assoc, hfirst, hrest]

end

end Part

namespace Tree

variable {t other : Tree}

/-- All nodes in pre-order, as they are seen. -/
def labels (t : Tree) : List Label := t.preorder.map (Node.label t.raw)

/-- A node and all below it, cut out of the tree with the bytes that they have there. -/
def cut (t : Tree) (n : Node) : Tree := ⟨n.movedBack n.start, n.text t.raw⟩

theorem merge_of_canMerge (h : canMergeNames t.rootName other.rootName = true) :
    t.merge other .concatenate = .ok
      ⟨⟨if t.rootName.isEmpty then other.rootName else t.rootName, t.root.start,
        other.root.stop + t.root.stop,
        t.root.children ++ Node.movedAll t.root.stop other.root.children⟩, t.raw ++ other.raw⟩ := by
  simp only [merge, if_pos h, Node.stop_moved, Node.children_moved]

theorem merge_of_conflict (h : ¬ canMergeNames t.rootName other.rootName = true) :
    t.merge other .concatenate = .error (.nameConflict t.rootName other.rootName) := by
  simp only [merge, if_neg h]

end Tree

/-! ## Drafts of trees -/

structure Draft where
  name : String
  parts : List Part

namespace Draft

def bytes (d : Draft) : Bytes := Part.bytesAll d.parts

/-- The parts as one node over a buffer of their own. -/
def tree (d : Draft) : Tree :=
  ⟨⟨d.name, 0, d.bytes.length, Part.layoutAll 0 d.parts⟩, d.bytes⟩

/-- The finished nodes among parts, each as the draft of the tree that it was. -/
def finished : List Part → List Draft
  | [] => []
  | .text _ :: ps => finished ps
  | .node name parts :: ps => ⟨name, parts⟩ :: finished ps

def children (d : Draft) : List Draft := finished d.parts

def labels (d : Draft) : List Label := ⟨0, d.name, d.bytes⟩ :: Part.labelsAll 1 d.parts

/-! ### Writing -/

def empty : Draft := ⟨"", []⟩

def named (name : String) : Option Draft := if Name.isNode name then some ⟨name, []⟩ else none

def rename (d : Draft) (name : String) : Option Draft :=
  if Name.isNode name then some { d with name := name } else none

def appendBytes (d : Draft) (bs : Bytes) : Draft := { d with parts := d.parts ++ [.text bs] }

/-- The other draft is finished, and becomes the last part. -/
def push (d e : Draft) : Draft := { d with parts := d.parts ++ [.node e.name e.parts] }

/-- The parts of the other draft follow those of the draft. -/
def merge (d e : Draft) : Option Draft :=
  if Tree.canMergeNames d.name e.name then
    some ⟨if d.name.isEmpty then e.name else d.name, d.parts ++ e.parts⟩
  else none

variable (d e : Draft) (bs : Bytes) (name : String)

theorem tree_empty : empty.tree = Tree.empty := rfl

theorem tree_named : (Tree.named name).toOption = (named name).map tree := by
  unfold Tree.named named
  by_cases hname : Name.isNode name = true
  · rw [if_pos hname, if_pos hname]
    rfl
  · rw [if_neg hname, if_neg hname]
    rfl

theorem tree_rename : (d.tree.rename name).toOption = (d.rename name).map tree := by
  unfold Tree.rename rename
  by_cases hname : Name.isNode name = true
  · rw [if_pos hname, if_pos hname]
    rfl
  · rw [if_neg hname, if_neg hname]
    rfl

theorem movedAll_children (k : Nat) :
    Node.movedAll k e.tree.root.children = Part.layoutAll k e.parts := by
  have hmoved := Part.movedAll_layoutAll k e.parts 0
  rwa [Nat.zero_add] at hmoved

/-- Parts behind those of a draft are laid out behind its bytes. -/
theorem tree_append : tree ⟨name, d.parts ++ e.parts⟩ =
    ⟨⟨name, 0, e.bytes.length + d.bytes.length,
      d.tree.root.children ++ Node.movedAll d.bytes.length e.tree.root.children⟩,
      d.bytes ++ e.bytes⟩ := by
  have hbytes : Part.bytesAll (d.parts ++ e.parts) = d.bytes ++ e.bytes := Part.bytesAll_append
  rw [movedAll_children, tree]
  simp only [Draft.bytes] at hbytes ⊢
  rw [hbytes, List.length_append, Nat.add_comm, Part.layoutAll_append, Nat.zero_add]
  rfl

theorem tree_appendBytes : (d.appendBytes bs).tree = d.tree.appendBytes bs := by
  have happend := tree_append d ⟨"", [.text bs]⟩ d.name
  have hbytes : bytes ⟨"", [.text bs]⟩ = bs := by simp [bytes, Part.bytesAll, Part.bytes]
  rw [hbytes, Nat.add_comm, ← List.length_append] at happend
  rw [appendBytes, happend, Tree.appendBytes]
  simp [tree, Part.layoutAll, Part.layout, Node.movedAll]

theorem tree_push : (d.push e).tree = d.tree.push e.tree := by
  have happend := tree_append d ⟨"", [.node e.name e.parts]⟩ d.name
  have hbytes : bytes ⟨"", [.node e.name e.parts]⟩ = e.bytes := by
    simp [bytes, Part.bytesAll, Part.bytes]
  rw [hbytes] at happend
  rw [push, happend, Tree.push]
  simp [tree, Part.layoutAll, Part.layout, Node.movedAll, bytes]

theorem tree_merge :
    (d.tree.merge e.tree .concatenate).toOption = (d.merge e).map tree := by
  by_cases hnames : Tree.canMergeNames d.name e.name = true
  · have hroots : Tree.canMergeNames d.tree.rootName e.tree.rootName = true := hnames
    rw [Tree.merge_of_canMerge hroots, merge, if_pos hnames, Option.map_some, tree_append]
    rfl
  · have hroots : ¬ Tree.canMergeNames d.tree.rootName e.tree.rootName = true := hnames
    rw [Tree.merge_of_conflict hroots, merge, if_neg hnames]
    rfl

/-! ### What the tree of a draft shows -/

theorem isValid_tree : d.tree.isValid = true := by
  have hfits := Part.fitsAll_layoutAll d.parts 0
  rw [Nat.zero_add] at hfits
  exact Tree.isValid_iff.2 ⟨rfl, rfl, hfits⟩

/-- **Every node has the name and the text that it was finished with.** -/
theorem labels_tree : d.tree.labels = d.labels := by
  have hlabels := Part.labels_layoutAll d.parts 1 [] []
  rw [List.nil_append, List.append_nil] at hlabels
  have hroot : Node.label d.bytes (0, d.tree.root) = ⟨0, d.name, d.bytes⟩ := by
    simp [Node.label, Node.text, tree]
  show Node.label d.bytes (0, d.tree.root) :: List.map _ _ = _
  rw [hroot, labels, ← hlabels]
  rfl

/-- A finished node, cut out of whatever buffer it lies in, is the tree that it was. -/
theorem cut_layoutAll (root : Node) (ps : List Part) (before after : Bytes) :
    (Part.layoutAll before.length ps).map
        (Tree.cut ⟨root, before ++ (Part.bytesAll ps ++ after)⟩) =
      (finished ps).map tree := by
  induction ps generalizing before with
  | nil => rfl
  | cons p ps ih =>
    have hrest := ih (before ++ p.bytes)
    rw [List.length_append, List.append_assoc] at hrest
    rw [Part.layoutAll, Part.bytesAll, List.map_append, List.append_assoc, hrest]
    cases p with
    | text bs => rfl
    | node name parts =>
      have hmoved := movedAll_children ⟨name, parts⟩ before.length
      have htext : Node.text ⟨name, before.length, before.length + (Part.bytesAll parts).length,
          Part.layoutAll before.length parts⟩
          (before ++ (Part.bytesAll parts ++ (Part.bytesAll ps ++ after))) =
          Part.bytesAll parts := Node.text_between rfl rfl
      have hback : Node.movedBack before.length ⟨name, before.length,
          before.length + (Part.bytesAll parts).length, Part.layoutAll before.length parts⟩ =
          (tree ⟨name, parts⟩).root := by
        rw [← hmoved, Node.movedBack, Node.movedBackAll_movedAll]
        simp [tree, bytes]
      simp only [Part.layout, Part.bytes, List.map_cons, List.map_nil, Tree.cut, htext, hback]
      rfl

/-- **The children of a tree are the trees that were pushed**, each over its own bytes. -/
theorem cut_children : d.tree.root.children.map d.tree.cut = d.children.map tree := by
  have hcut := cut_layoutAll d.tree.root d.parts [] []
  rwa [List.nil_append, List.append_nil] at hcut

end Draft

end SpanTree
