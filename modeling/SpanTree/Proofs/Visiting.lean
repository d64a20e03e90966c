import SpanTree.Proofs.Addressing
import SpanTree.Proofs.Origin
import SpanTree.Proofs.Pieces
import SpanTree.Tree.Walk

/-!
# Whom a walk visits

A walk hands nodes to a visitor until it asks to stop. `Calls` says what this means for nodes in a
row: each call finds the visitor as the one before left it, and the first that answers false is the
last. **A walk calls its visitor on the nodes with a wanted path, in pre-order** (`walk_in_order`),
and ends as these calls end.

Which calls are made is seen by a visitor that keeps a record of its own calls (`recorded`). So the
induction on the tree is done once, for any visitor, and then used for one that records.

Names have no dots. So a path is a key exactly if the chain of names is the pieces of the key, and
the walk for one path visits in turn what look-ups by this key count.
-/

namespace SpanTree

/-! ## Calls in a row -/

section Calls

variable {σ : Type} {visit : σ → Node → σ × Bool} {s s' : σ} {n : Node}
  {ns ms called called' log log' : List Node} {out out' : σ × Bool} {goesOn : Bool}

/-- The calls of a visitor on nodes in a row, and how they end. -/
inductive Calls (visit : σ → Node → σ × Bool) : List Node → σ → List Node → σ × Bool → Prop
  | done {s : σ} : Calls visit [] s [] (s, true)
  | more {n : Node} {ns called : List Node} {s s' : σ} {out : σ × Bool}
      (h : visit s n = (s', true)) (hrest : Calls visit ns s' called out) :
      Calls visit (n :: ns) s (n :: called) out
  | stop {n : Node} {ns : List Node} {s s' : σ} (h : visit s n = (s', false)) :
      Calls visit (n :: ns) s [n] (s', false)

/-- Nodes in front of others: after a call that asks to stop there are no more. -/
theorem Calls.append (h : Calls visit ns s called out)
    (hrest : out.2 = true → Calls visit ms out.1 called' out') :
    ∃ all, Calls visit (ns ++ ms) s all (if out.2 then out' else out) := by
  induction h with
  | done => exact ⟨called', hrest rfl⟩
  | more h _ ih =>
    obtain ⟨all, hall⟩ := ih hrest
    exact ⟨_, .more h hall⟩
  | stop h => exact ⟨_, .stop h⟩

theorem Calls.unique (h : Calls visit ns s called out) (h' : Calls visit ns s called' out') :
    called = called' ∧ out = out' := by
  induction h generalizing called' with
  | done =>
    cases h'
    exact ⟨rfl, rfl⟩
  | more h _ ih =>
    cases h' with
    | more h' hrest' =>
      obtain rfl : _ = _ := congrArg Prod.fst (h.symm.trans h')
      obtain ⟨rfl, rfl⟩ := ih hrest'
      exact ⟨rfl, rfl⟩
    | stop h' => simp [h] at h'
  | stop h =>
    cases h' with
    | more h' => simp [h] at h'
    | stop h' => exact ⟨rfl, h.symm.trans h'⟩

/-- The nodes that are called come first, and they are all if there is no call to stop. -/
theorem Calls.isPrefix (h : Calls visit ns s called out) :
    called <+: ns ∧ (out.2 = true → called = ns) := by
  induction h with
  | done => exact ⟨List.nil_prefix, fun _ => rfl⟩
  | more _ _ ih => exact ⟨(List.prefix_cons_inj _).2 ih.1, fun h => by rw [ih.2 h]⟩
  | stop => exact ⟨by simp, fun h => by cases h⟩

/-- The visitor that also keeps a record of its calls. -/
def recorded (visit : σ → Node → σ × Bool) (s : List Node × σ) (n : Node) :
    (List Node × σ) × Bool :=
  ((s.1 ++ [n], (visit s.2 n).1), (visit s.2 n).2)

/-- The record is the calls, and nothing else is changed by it. -/
theorem Calls.of_recorded (h : Calls (recorded visit) ns (log, s) called ((log', s'), goesOn)) :
    log' = log ++ called ∧ Calls visit ns s called (s', goesOn) := by
  induction ns generalizing log s called with
  | nil =>
    cases h
    exact ⟨(List.append_nil _).symm, .done⟩
  | cons n ns ih =>
    cases hvisit : visit s n with
    | mk s₁ goes =>
      have hrecorded : recorded visit (log, s) n = ((log ++ [n], s₁), goes) := by
        simp [recorded, hvisit]
      cases h with
      | more h hrest =>
        obtain ⟨rfl, rfl⟩ := Prod.mk.inj (hrecorded.symm.trans h)
        obtain ⟨rfl, hcalls⟩ := ih hrest
        exact ⟨by simp, .more hvisit hcalls⟩
      | stop h =>
        obtain ⟨hlog, rfl⟩ := Prod.mk.inj (hrecorded.symm.trans h)
        obtain ⟨rfl, rfl⟩ := Prod.mk.inj hlog
        exact ⟨rfl, .stop hvisit⟩

end Calls

/-! ## Walks -/

namespace Node

variable {σ : Type} (wanted : List Char → Bool) (visit : σ → Node → σ × Bool)

/-- The nodes with a wanted path, of nodes with their chains of names below a path. -/
def wantedOf (above : List Char) (cs : List (List (List Char) × Node)) : List Node :=
  (cs.filter fun c => wanted (above ++ Text.unite '.' c.1)).map (·.2)

theorem wantedOf_append (above : List Char) (cs ds : List (List (List Char) × Node)) :
    wantedOf wanted above (cs ++ ds) = wantedOf wanted above cs ++ wantedOf wanted above ds := by
  simp [wantedOf]

/-- Below a node its name and a dot come in front. -/
theorem wantedOf_below (above name : List Char) (ns : List Node) :
    wantedOf wanted above ((chainsAll ns).map fun c => (name :: c.1, c.2)) =
      wantedOf wanted (above ++ name ++ ['.']) (chainsAll ns) := by
  have hpath : ∀ c ∈ chainsAll ns, wanted (above ++ Text.unite '.' (name :: c.1)) =
      wanted (above ++ name ++ ['.'] ++ Text.unite '.' c.1) := by
    intro c hc
    rw [Text.unite_cons (chain_ne_nil hc)]
    simp
  rw [wantedOf, wantedOf, List.filter_map, List.map_map]
  congr 1
  exact List.filter_congr hpath

mutual

theorem calls_walk : ∀ (n : Node) (above : List Char) (s : σ),
    ∃ called, Calls visit (wantedOf wanted above n.chains) s called (n.walk wanted visit above s)
  | ⟨name, start, stop, children⟩, above, s => by
    have hbelow := fun s => calls_walkAll children (above ++ name.toList ++ ['.']) s
    rw [chains, ← List.singleton_append, wantedOf_append, wantedOf_below, walk]
    by_cases hpath : wanted (above ++ name.toList) = true
    · have hself : wantedOf wanted above [([name.toList], ⟨name, start, stop, children⟩)] =
          [⟨name, start, stop, children⟩] := by simp [wantedOf, Text.unite, hpath]
      rw [hself]
      simp only [hpath, if_true]
      cases hvisit : visit s ⟨name, start, stop, children⟩ with
      | mk s₁ goes =>
        cases goes with
        | true =>
          obtain ⟨called, hcalls⟩ := hbelow s₁
          exact ⟨_, .more hvisit hcalls⟩
        | false => exact ⟨_, .stop hvisit⟩
    · have hself : wantedOf wanted above [([name.toList], ⟨name, start, stop, children⟩)] = [] := by
        simp [wantedOf, Text.unite, hpath]
      rw [hself]
      simp only [hpath]
      exact hbelow s

theorem calls_walkAll : ∀ (ns : List Node) (above : List Char) (s : σ),
    ∃ called, Calls visit (wantedOf wanted above (chainsAll ns)) s called
      (walkAll wanted visit above ns s)
  | [], _, _ => ⟨[], .done⟩
  | n :: ns, above, s => by
    obtain ⟨called, hfirst⟩ := calls_walk n above s
    obtain ⟨called', hrest⟩ := calls_walkAll ns above (n.walk wanted visit above s).1
    rw [chainsAll, wantedOf_append]
    exact hfirst.append fun _ => hrest

end

end Node

/-! ## Paths and keys -/

theorem Name.address_of_no_dot {key : String} (h : key.toList.getLast? ≠ some '.') :
    address (segments key) = segments key := by
  rw [address, if_neg]
  rintro ⟨hlen, hlast⟩
  obtain ⟨segs, hsegs⟩ := List.getLast?_eq_some_iff.1 hlast
  have hne : segs ≠ [] := by
    rintro rfl
    simp [hsegs] at hlen
  have hkey := Text.unite_pieces '.' key.toList
  rw [show Text.pieces '.' key.toList = segs ++ [[]] from hsegs, Text.unite_concat_nil hne] at hkey
  apply h
  rw [← hkey]
  simp

mutual

theorem Node.forall_chains {p : List Char → Prop} : ∀ (n : Node), n.AllNames (p ·.toList) →
    ∀ c ∈ n.chains, c.1 ≠ [] ∧ ∀ name ∈ c.1, p name
  | ⟨name, start, stop, children⟩, hn, c, hc => by
    rw [Node.AllNames] at hn
    rw [Node.chains] at hc
    rcases List.mem_cons.1 hc with rfl | hc
    · simpa using hn.1
    · obtain ⟨c', hc', rfl⟩ := List.mem_map.1 hc
      have hbelow := (Node.forall_chainsAll children hn.2 c' hc').2
      simpa using ⟨hn.1, hbelow⟩

theorem Node.forall_chainsAll {p : List Char → Prop} : ∀ (ns : List Node),
    Node.AllNamesIn (p ·.toList) ns → ∀ c ∈ Node.chainsAll ns, c.1 ≠ [] ∧ ∀ name ∈ c.1, p name
  | n :: ns, hns, c, hc => by
    rw [Node.chainsAll] at hc
    rcases List.mem_append.1 hc with hc | hc
    · exact Node.forall_chains n hns.1 c hc
    · exact Node.forall_chainsAll ns hns.2 c hc

end

namespace Tree

variable {t : Tree} {key : String}

/-- The nodes in pre-order whose path, the names from the root down joined by dots, is wanted. -/
def wantedNodes (t : Tree) (wanted : List Char → Bool) : List Node :=
  (t.chains.filter fun c => wanted (Text.unite '.' c.1)).map (·.2)

/-- The path of a node is a key exactly if the key addresses the node. -/
theorem wantedNodes_key (ht : t.WellFormed) (hkey : key.toList.getLast? ≠ some '.') :
    t.wantedNodes (· == key.toList) = t.addressed key := by
  have hnames : t.root.AllNames fun s => '.' ∉ s.toList :=
    ht.isPlain.mono fun s hs => hs.not_mem (by decide)
  have hsame : ∀ c ∈ t.chains, (Text.unite '.' c.1 == key.toList) =
      decide (c.1 = Name.address (Name.segments key)) := by
    intro c hc
    obtain ⟨hne, hdots⟩ := Node.forall_chains (p := fun name => '.' ∉ name) t.root hnames c hc
    rw [Name.address_of_no_dot hkey, beq_eq_decide, decide_eq_decide]
    exact Text.unite_eq_iff hne hdots
  rw [wantedNodes, addressed, Node.matching, List.filter_congr hsame]

/-- **A walk calls its visitor on the wanted nodes, in pre-order, until it asks to stop.** Whatever
paths are wanted, whatever the visitor does and knows: the calls that it gets, of which it may keep
a record without changing them, are those on the nodes with a wanted path, and they end as the walk
ends. If the one wanted path is a key without a dot at its end, the node of the `i`-th call has the
text that a look-up finds at `i`, and where the visitor never stops look-ups find no more. -/
theorem walk_in_order {σ : Type} (ht : t.Obtained) (wanted : List Char → Bool)
    (visit : σ → Node → σ × Bool) (s : σ) :
    t.chains.map (·.2) = t.preorder.map (·.2) ∧
    ∃ called,
      t.root.walk wanted (recorded visit) [] ([], s) =
        ((called, (t.root.walk wanted visit [] s).1), (t.root.walk wanted visit [] s).2) ∧
      Calls visit (t.wantedNodes wanted) s called (t.root.walk wanted visit [] s) ∧
      ∀ key : String, key.toList.getLast? ≠ some '.' → (∀ path, wanted path = (path == key.toList)) →
        (∀ i n, called[i]? = some n → t.lookupNth key i = some (n.text t.raw)) ∧
        ((t.root.walk wanted visit [] s).2 = true →
          ∀ i, t.lookupNth key i = none ↔ called.length ≤ i) := by
  refine ⟨Node.map_snd_chains t.root 0, ?_⟩
  obtain ⟨called, hcalls⟩ := Node.calls_walk wanted visit t.root [] s
  obtain ⟨log, hlogged⟩ := Node.calls_walk wanted (recorded visit) t.root [] ([], s)
  refine ⟨called, ?_, hcalls, fun key hkey hwanted => ?_⟩
  · generalize t.root.walk wanted (recorded visit) [] ([], s) = out at hlogged
    obtain ⟨⟨record, s'⟩, goesOn⟩ := out
    obtain ⟨rfl, hsame⟩ := hlogged.of_recorded
    obtain ⟨rfl, hout⟩ := hcalls.unique hsame
    rw [hout]
  · obtain rfl : wanted = (· == key.toList) := funext hwanted
    have hnodes : Node.wantedOf (· == key.toList) [] t.root.chains = t.addressed key :=
      wantedNodes_key ht.wellFormed hkey
    rw [hnodes] at hcalls
    obtain ⟨hcalled, hall⟩ := hcalls.isPrefix
    refine ⟨fun i n hi => ?_, fun hend i => ?_⟩
    · obtain ⟨behind, hbehind⟩ := hcalled
      have haddressed : (t.addressed key)[i]? = some n := by
        rw [← hbehind, List.getElem?_append_left (List.getElem?_eq_some_iff.1 hi).1, hi]
      rw [lookupNth_eq, haddressed]
      rfl
    · rw [hall hend]
      exact lookupNth_eq_none t key i

/-- A visitor that stops at the second of three calls, on a root with three children of one name and
a nameless one between them. -/
theorem walk_in_order_stopped :
    let t : Tree := ⟨⟨"$", 0, 4, [⟨"a", 0, 1, []⟩, ⟨"", 1, 2, []⟩, ⟨"a", 2, 3, []⟩,
      ⟨"a", 3, 4, []⟩]⟩, [49, 50, 51, 52]⟩
    let wanted : List Char → Bool := (· == "$.a".toList)
    let visit : Nat → Node → Nat × Bool := fun k _ => (k + 1, k == 0)
    t.Obtained ∧ ∃ called,
      t.root.walk wanted (recorded visit) [] ([], 0) = ((called, 2), false) ∧
      called = [⟨"a", 0, 1, []⟩, ⟨"a", 2, 3, []⟩] ∧ t.lookupNth "$.a" 1 = some [51] := by
  intro t wanted visit
  have hleaf : ∀ b : UInt8, Tree.Made ⟨⟨"a", 0, 1, []⟩, [b]⟩ :=
    fun b => .appendBytes (@Tree.Made.named "a" _ rfl) [b]
  have hmade : t.Made := .push (.push (.push (.push (@Tree.Made.named "$" _ rfl) (hleaf 49))
    (.appendBytes .empty [50])) (hleaf 51)) (hleaf 52)
  obtain ⟨-, called, hrecord, -, hkey⟩ := walk_in_order (.made hmade) wanted visit 0
  have hcalled : called = [⟨"a", 0, 1, []⟩, ⟨"a", 2, 3, []⟩] :=
    (congrArg (·.1.1) hrecord).symm.trans (by decide +kernel)
  refine ⟨.made hmade, called, hrecord.trans ?_, hcalled, ?_⟩
  · rfl
  · exact (hkey "$.a" (by decide) fun _ => rfl).1 1 ⟨"a", 2, 3, []⟩ (by rw [hcalled]; rfl)

end Tree

end SpanTree
