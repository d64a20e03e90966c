import SpanTree.Tree.Lookup

/-!
# What a key addresses

A key asks for a chain of names (`Name.address`), and `Tree.chains` lists the nodes in pre-order,
each with the chain of names that leads to it from the root. **A look-up counts among the nodes
whose chain is the one asked for** (`lookupNth_counts`).

A search carries along how many nodes are still to be skipped, from one subtree to the next, and
goes down with what is left of the key. `Search.pick` skips in the same way in a plain list. It
takes up in a second list what the first has left to skip (`pick_append`), so that the search of a
node and the search of its siblings are the picks of their matches, by induction on the tree.
-/

namespace SpanTree

/-! ## Chains of names -/

namespace Name

/-- The chain that the pieces of a key ask for: an empty piece at the end is left out, unless it is
the only one. -/
def address (segs : List (List Char)) : List (List Char) :=
  if 1 < segs.length ∧ segs.getLast? = some [] then segs.dropLast else segs

theorem address_cons (seg : List Char) (segs : List (List Char)) :
    address (seg :: segs) = seg :: if segs = [[]] then [] else address segs := by
  cases segs with
  | nil => simp [address]
  | cons next rest =>
    cases rest with
    | nil =>
      by_cases hnext : next = []
      · simp [address, hnext]
      · simp [address, hnext]
    | cons next' rest => by_cases hlast : (next' :: rest).getLast? = some [] <;> simp_all [address]

theorem address_eq_nil {segs : List (List Char)} : address segs = [] ↔ segs = [] := by
  cases segs with
  | nil => simp [address]
  | cons seg segs => simp [address_cons]

end Name

namespace Node

mutual

/-- The node and all below it in pre-order, each with the names from the first node down to it. -/
def chains : Node → List (List (List Char) × Node)
  | ⟨name, start, stop, children⟩ =>
    ([name.toList], ⟨name, start, stop, children⟩)
      :: (chainsAll children).map fun c => (name.toList :: c.1, c.2)

def chainsAll : List Node → List (List (List Char) × Node)
  | [] => []
  | n :: ns => chains n ++ chainsAll ns

end

mutual

theorem map_snd_chains : ∀ (n : Node) (depth : Nat),
    n.chains.map (·.2) = (n.preorder depth).map (·.2)
  | ⟨_, _, _, children⟩, depth => by
    have hbelow := map_snd_chainsAll children (depth + 1)
    simpa [chains, preorder, Function.comp_def] using hbelow

theorem map_snd_chainsAll : ∀ (ns : List Node) (depth : Nat),
    (chainsAll ns).map (·.2) = (preorderAll depth ns).map (·.2)
  | [], _ => rfl
  | n :: ns, depth => by
    simp [chainsAll, preorderAll, map_snd_chains n depth, map_snd_chainsAll ns depth]

end

theorem chain_ne_nil {ns : List Node} {c : List (List Char) × Node} (h : c ∈ chainsAll ns) :
    c.1 ≠ [] := by
  induction ns with
  | nil => cases h
  | cons n ns ih =>
    obtain ⟨_, _, _, children⟩ := n
    simp only [chainsAll, chains, List.cons_append, List.mem_cons, List.mem_append,
      List.mem_map] at h
    rcases h with rfl | ⟨_, _, rfl⟩ | h
    · simp
    · simp
    · exact ih h

/-- The nodes whose chain is the one asked for. -/
def matching (chain : List (List Char)) (cs : List (List (List Char) × Node)) : List Node :=
  (cs.filter (·.1 = chain)).map (·.2)

variable {seg name : List Char} {rest : List (List Char)}
  {cs ds : List (List (List Char) × Node)} {ns : List Node}

theorem matching_append : matching rest (cs ++ ds) = matching rest cs ++ matching rest ds := by
  simp [matching]

theorem matching_cons (c : List (List Char) × Node) :
    matching rest (c :: cs) = (if c.1 = rest then [c.2] else []) ++ matching rest cs := by
  by_cases hc : c.1 = rest
  · simp [matching, hc]
  · simp [matching, hc]

/-- Below a node whose name is not the one asked for, nothing is. -/
theorem matching_below : matching (seg :: rest) (cs.map fun c => (name :: c.1, c.2)) =
    if name = seg then matching rest cs else [] := by
  by_cases hname : name = seg
  · simp [matching, List.filter_map, Function.comp_def, hname]
  · simp [matching, List.filter_map, Function.comp_def, hname]

theorem matching_nil : matching [] (chainsAll ns) = [] := by
  rw [matching, List.map_eq_nil_iff, List.filter_eq_nil_iff]
  intro c hc
  simpa using chain_ne_nil hc

theorem matching_chains (n : Node) : matching (seg :: rest) n.chains =
    if n.name.toList = seg then
      (if rest = [] then [n] else matching rest (chainsAll n.children))
    else [] := by
  obtain ⟨name, start, stop, children⟩ := n
  have hbelow : matching (seg :: rest)
      ((chainsAll children).map fun c => (name.toList :: c.1, c.2)) = _ := matching_below
  rw [chains, matching_cons, hbelow]
  by_cases hname : name.toList = seg
  · by_cases hrest : rest = []
    · simp [hname, hrest, matching_nil]
    · simp [hname, hrest, Ne.symm hrest]
  · simp [hname]

end Node

/-! ## Searching is picking -/

namespace Search

/-- Skipping in a list of nodes. -/
def pick : List Node → Nat → Search
  | [], k => .skip k
  | n :: _, 0 => .found n
  | _ :: ns, k + 1 => pick ns k

/-- What one list leaves to be skipped is skipped in the next. -/
theorem pick_append (ns ms : List Node) (k : Nat) : pick (ns ++ ms) k =
    match pick ns k with
    | .found n => .found n
    | .skip left => pick ms left := by
  induction ns generalizing k with
  | nil => rfl
  | cons n ns ih =>
    cases k with
    | zero => rfl
    | succ k => exact ih k

theorem pick_eq (ns : List Node) (k : Nat) : pick ns k =
    match ns[k]? with
    | some n => .found n
    | none => .skip (k - ns.length) := by
  induction ns generalizing k with
  | nil => rfl
  | cons n ns ih =>
    cases k with
    | zero => rfl
    | succ k => rw [pick, ih, List.getElem?_cons_succ, List.length_cons, Nat.add_sub_add_right]

end Search

namespace Node

open Search (pick pick_append)

theorem search_cons (n : Node) (seg : List Char) (segs : List (List Char)) (k : Nat) :
    n.search (seg :: segs) k =
      if n.name.toList = seg then
        (if segs = [] ∨ segs = [[]] then settle n k else searchAll segs k n.children)
      else .skip k := by
  obtain ⟨name, start, stop, children⟩ := n
  by_cases hname : name.toList = seg
  · rcases segs with _ | ⟨_ | ⟨c, cs⟩, _ | ⟨next, segs⟩⟩ <;> simp [search, hname]
  · simp [search, hname]

theorem settle_eq_pick (n : Node) (k : Nat) : settle n k = pick [n] k := by
  cases k <;> rfl

mutual

theorem search_eq_pick : ∀ (n : Node) (key : List (List Char)) (k : Nat), key ≠ [] →
    n.search key k = pick (matching (Name.address key) n.chains) k
  | _, [], _, hkey => absurd rfl hkey
  | ⟨name, start, stop, children⟩, seg :: segs, k, _ => by
    rw [search_cons, Name.address_cons, matching_chains]
    by_cases hname : name.toList = seg
    · rw [if_pos hname, if_pos hname, settle_eq_pick]
      by_cases hdot : segs = [[]]
      · simp [hdot]
      · by_cases hlast : segs = []
        · simp [hlast, Name.address]
        · have hbelow := searchAll_eq_pick children segs k hlast
          simpa [hdot, hlast, Name.address_eq_nil] using hbelow
    · rw [if_neg hname, if_neg hname]
      rfl

theorem searchAll_eq_pick : ∀ (ns : List Node) (key : List (List Char)) (k : Nat), key ≠ [] →
    searchAll key k ns = pick (matching (Name.address key) (chainsAll ns)) k
  | [], _, _, _ => rfl
  | n :: ns, key, k, hkey => by
    rw [searchAll, chainsAll, matching_append, pick_append, search_eq_pick n key k hkey]
    cases pick (matching (Name.address key) n.chains) k with
    | found m => rfl
    | skip left => exact searchAll_eq_pick ns key left hkey

end

end Node

namespace Tree

/-- The nodes in pre-order, each with the names from the root down to it. -/
def chains (t : Tree) : List (List (List Char) × Node) := t.root.chains

/-- The nodes in pre-order whose chain of names is the one that a key asks for. -/
def addressed (t : Tree) (key : String) : List Node :=
  Node.matching (Name.address (Name.segments key)) t.chains

/-- A look-up picks among the nodes that the key addresses. -/
theorem lookupNth_eq (t : Tree) (key : String) (n : Nat) :
    t.lookupNth key n = ((t.addressed key)[n]?).map (Node.text · t.raw) := by
  have hkey : Name.segments key ≠ [] := Text.pieces_ne_nil '.' key.toList
  rw [lookupNth, Node.search_eq_pick t.root _ n hkey, Search.pick_eq]
  show _ = ((Node.matching (Name.address (Name.segments key)) t.root.chains)[n]?).map _
  cases (Node.matching (Name.address (Name.segments key)) t.root.chains)[n]? <;> rfl

theorem lookupNth_eq_none (t : Tree) (key : String) (n : Nat) :
    t.lookupNth key n = none ↔ (t.addressed key).length ≤ n := by
  rw [lookupNth_eq, Option.map_eq_none_iff, List.getElem?_eq_none_iff]

/-- **A key addresses the nodes with its chain of names, in pre-order.** Whatever the tree, the key
and the number: the chains are those of the nodes in pre-order, the look-up answers the text of the
node with this number among those whose chain is the key's, and nothing exactly if there are no more
than that many. -/
theorem lookupNth_counts (t : Tree) (key : String) (n : Nat) :
    t.chains.map (·.2) = t.preorder.map (·.2) ∧
    t.lookupNth key n = ((t.addressed key)[n]?).map (Node.text · t.raw) ∧
    (t.lookupNth key n = none ↔ (t.addressed key).length ≤ n) := by
  exact ⟨Node.map_snd_chains t.root 0, lookupNth_eq t key n, lookupNth_eq_none t key n⟩

/-- The second of two nodes with the same chain; a dot at the end of the key changes nothing, and
two dots ask for a nameless node. -/
example :
    let t : Tree := ⟨⟨"$", 0, 3, [⟨"a", 0, 1, []⟩, ⟨"a", 1, 3, [⟨"", 2, 3, []⟩]⟩]⟩, [49, 50, 51]⟩
    t.lookupNth "$.a" 1 = some [50, 51] ∧ t.lookupNth "$.a." 1 = some [50, 51] ∧
      t.lookupNth "$.a.." 0 = some [51] ∧ t.lookupNth "$.a" 2 = none := by decide

end Tree

end SpanTree
