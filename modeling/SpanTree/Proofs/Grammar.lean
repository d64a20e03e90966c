import SpanTree.Bill.Encode
import SpanTree.Proofs.Dictionary
import SpanTree.Proofs.Field
import SpanTree.Proofs.NodeNames

/-!
# The grammar of node blocks

```text
node = [children header] name span [children]
```

`NodeForm levels cursor d bs n d'` derives from the bytes `bs` the node `n`, which takes at most
`levels` levels and whose span counts from `cursor`; the names known before and after it are those
of `d` and of `d'`. `NodesForm` does the same for nodes that follow one another, and `BlockForm` for
the whole block of a tree.

The relations speak of bytes only. They are the common ground of encoding, which writes one of the
derivable blocks, and of decoding, which accepts each of them.
-/

namespace SpanTree.Bill

/-- A name that a node may have, by its index or in full. In full it is learned, if there
is room. -/
inductive NameForm (d : Dictionary) (name : String) : Bytes → Dictionary → Prop
  | index {b : UInt8} (hb : b.toNat < 64) (h : d.name? b.toNat = some name) :
      NameForm d name [b] d
  | full {lo hi : UInt8} (hlo : 64 ≤ lo.toNat) (hlo' : lo.toNat < 128)
      (hlen : (Utf8.encode name).length = fullNameLength lo hi) :
      NameForm d name (lo :: hi :: Utf8.encode name) (d.learn name)

/-- What every node has: its name and its span. -/
inductive HeadForm (cursor : Nat) (d : Dictionary) :
    Bytes → (name : String) → (start stop : Nat) → Dictionary → Prop
  | mk {bs cs : Bytes} {name : String} {skip length : Nat} {d' : Dictionary}
      (hname : NameForm d name bs d') (hvalid : Name.isNode name = true)
      (hspan : SpanForm cs skip length) :
      HeadForm cursor d (bs ++ cs) name (cursor + skip) (cursor + skip + length) d'

mutual

inductive NodeForm : (levels cursor : Nat) → Dictionary → Bytes → Node → Dictionary → Prop
  | leaf {levels cursor start stop : Nat} {d d' : Dictionary} {bs : Bytes} {name : String}
      (hhead : HeadForm cursor d bs name start stop d') :
      NodeForm (levels + 1) cursor d bs ⟨name, start, stop, []⟩ d'
  | inner {levels cursor start stop : Nat} {d d' d'' : Dictionary} {bs cs : Bytes} {name : String}
      {lo hi : UInt8} {children : List Node}
      (hhead : HeadForm cursor d bs name start stop d')
      (hchildren : NodesForm levels start d' cs children d'') (hne : children ≠ [])
      (hlo : 128 ≤ lo.toNat) (hlen : childrenLength lo hi = (bs ++ cs).length) :
      NodeForm (levels + 1) cursor d (lo :: hi :: (bs ++ cs)) ⟨name, start, stop, children⟩ d''

inductive NodesForm : (levels cursor : Nat) → Dictionary → Bytes → List Node → Dictionary → Prop
  | nil {levels cursor : Nat} {d : Dictionary} : NodesForm levels cursor d [] [] d
  | cons {levels cursor : Nat} {d d' d'' : Dictionary} {bs cs : Bytes} {n : Node} {ns : List Node}
      (hnode : NodeForm levels cursor d bs n d') (hrest : NodesForm levels n.stop d' cs ns d'') :
      NodesForm levels cursor d (bs ++ cs) (n :: ns) d''

end

/-- The block of a tree: its root, or the children of a root that is not written. -/
inductive BlockForm (d : Dictionary) (rawSize : Nat) :
    (root? : Option String) → Bytes → Node → Dictionary → Prop
  | written {bs : Bytes} {root : Node} {d' : Dictionary}
      (h : NodeForm (maxDepth + 1) 0 d bs root d') : BlockForm d rawSize none bs root d'
  | omitted {bs : Bytes} {children : List Node} {d' : Dictionary} {name : String}
      (h : NodesForm maxDepth 0 d bs children d') :
      BlockForm d rawSize (some name) bs ⟨name, 0, rawSize, children⟩ d'

variable {levels cursor start stop rawSize : Nat} {d d' : Dictionary} {bs : Bytes} {name : String}
  {n : Node} {ns : List Node} {root? : Option String}

/-! ## Lengths -/

theorem NameForm.length_pos (h : NameForm d name bs d') : 0 < bs.length := by
  cases h <;> simp

theorem HeadForm.two_le_length (h : HeadForm cursor d bs name start stop d') :
    2 ≤ bs.length := by
  cases h with
  | mk hname _ hspan =>
    have := hname.length_pos
    have := hspan.length_pos
    simp
    omega

theorem NodeForm.two_le_length (h : NodeForm levels cursor d bs n d') : 2 ≤ bs.length := by
  cases h with
  | leaf hhead => exact hhead.two_le_length
  | inner hhead => simp

theorem NodesForm.two_mul_le_length :
    ∀ {cursor d bs ns}, NodesForm levels cursor d bs ns d' → 2 * ns.length ≤ bs.length
  | _, _, _, _, .nil => by simp
  | _, _, _, _, .cons hnode hrest => by
    have := hnode.two_le_length
    have := hrest.two_mul_le_length
    simp
    omega

/-! ## Names -/

theorem HeadForm.isNode (h : HeadForm cursor d bs name start stop d') :
    Name.isNode name = true := by
  cases h with
  | mk _ hvalid => exact hvalid

theorem NameForm.learns (h : NameForm d name bs d') : d.Learns d' := by
  cases h with
  | index => exact .refl d
  | full => exact Dictionary.learns_learn d name

theorem HeadForm.learns (h : HeadForm cursor d bs name start stop d') : d.Learns d' := by
  cases h with
  | mk hname => exact hname.learns

mutual

theorem NodeForm.learns : ∀ {levels cursor d bs n d'}, NodeForm levels cursor d bs n d' →
    d.Learns d'
  | _, _, _, _, _, _, .leaf hhead => hhead.learns
  | _, _, _, _, _, _, .inner hhead hchildren _ _ _ => hhead.learns.trans hchildren.learns

theorem NodesForm.learns : ∀ {levels cursor d bs ns d'}, NodesForm levels cursor d bs ns d' →
    d.Learns d'
  | _, _, _, _, _, _, .nil => .refl _
  | _, _, _, _, _, _, .cons hnode hrest => hnode.learns.trans hrest.learns

end

theorem BlockForm.learns (h : BlockForm d rawSize root? bs n d') : d.Learns d' := by
  cases h with
  | written h => exact h.learns
  | omitted h => exact h.learns

mutual

theorem NodeForm.allNames : ∀ {levels cursor d bs n d'}, NodeForm levels cursor d bs n d' →
    n.AllNames (Name.isNode · = true)
  | _, _, _, _, _, _, .leaf hhead => ⟨hhead.isNode, trivial⟩
  | _, _, _, _, _, _, .inner hhead hchildren _ _ _ => ⟨hhead.isNode, hchildren.allNames⟩

theorem NodesForm.allNames : ∀ {levels cursor d bs ns d'}, NodesForm levels cursor d bs ns d' →
    Node.AllNamesIn (Name.isNode · = true) ns
  | _, _, _, _, _, _, .nil => trivial
  | _, _, _, _, _, _, .cons hnode hrest => ⟨hnode.allNames, hrest.allNames⟩

end

theorem BlockForm.allNames (h : BlockForm d rawSize root? bs n d')
    (hroot : ∀ name ∈ root?, Name.isNode name = true) : n.AllNames (Name.isNode · = true) := by
  cases h with
  | written h => exact h.allNames
  | omitted h => exact ⟨hroot _ rfl, h.allNames⟩

/-! ## Depths -/

mutual

theorem NodeForm.depth_lt : ∀ {levels cursor d bs n d'}, NodeForm levels cursor d bs n d' →
    ∀ {depth : Nat}, ∀ x ∈ n.preorder depth, x.1 < depth + levels
  | _, _, _, _, _, _, .leaf hhead, depth => by simp [Node.preorder, Node.preorderAll]
  | _, _, _, _, _, _, .inner hhead hchildren _ _ _, depth => by
    intro x hx
    simp only [Node.preorder, List.mem_cons] at hx
    rcases hx with rfl | hx
    · simp
    · have := hchildren.depth_lt x hx
      omega

theorem NodesForm.depth_lt : ∀ {levels cursor d bs ns d'}, NodesForm levels cursor d bs ns d' →
    ∀ {depth : Nat}, ∀ x ∈ Node.preorderAll depth ns, x.1 < depth + levels
  | _, _, _, _, _, _, .nil, depth => by simp [Node.preorderAll]
  | _, _, _, _, _, _, .cons hnode hrest, depth => by
    intro x hx
    simp only [Node.preorderAll, List.mem_append] at hx
    rcases hx with hx | hx
    · exact hnode.depth_lt x hx
    · exact hrest.depth_lt x hx

end

theorem BlockForm.depth_le (h : BlockForm d rawSize root? bs n d') :
    ∀ x ∈ n.preorder 0, x.1 ≤ maxDepth := by
  intro x hx
  cases h with
  | written h =>
    have := h.depth_lt x hx
    omega
  | omitted h =>
    simp only [Node.preorder, List.mem_cons] at hx
    rcases hx with rfl | hx
    · simp
    · have := h.depth_lt x hx
      omega

end SpanTree.Bill
