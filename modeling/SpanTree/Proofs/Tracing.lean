import SpanTree.Proofs.Indexed

/-!
# The calls of the decoder

Decoding is a recursion on nodes and a loop over children that call each other. Here the recursion
counts its depth from the root, the loop goes on while it is short of its end, and neither looks at
what bounds it: a number of steps is given that says how many calls and rounds may lie one within
the other, and it is a fault to run out of them. Each call on a node is noted when it is made and
when it has come to a node.

The decoder that is bounded by levels and bytes does the same (`follows_block`), with any number of
steps from a bound on. So the recursion and each loop come to their ends; and every note is in
order: no call is deeper than one level below the limit, and each that succeeds has taken two bytes
of its block.

A call goes to the next level, of which there are `maxDepth + 2`, and a round of the loop leaves
fewer bytes. So two steps for every level and one for every byte are enough.
-/

namespace SpanTree.Bill

/-- What is noted: a call at a depth, and the part of the block that a call has taken. -/
inductive Event
  | called (depth : Nat)
  | answered (start stop : Nat)
deriving DecidableEq, Repr

/-- At most one level too deep, and at least two bytes of the block. -/
def Event.InOrder (size : Nat) : Event → Prop
  | called depth => depth ≤ maxDepth + 1
  | answered start stop => start + 2 ≤ stop ∧ stop ≤ size

structure Trace where
  cursor : Cursor
  events : List Event

/-- Decoding with notes. -/
abbrev Tracing (α : Type) := Checked Trace α

namespace Tracing

open Checked (access)

variable {α β : Type}

def cursor : Tracing Cursor := ExceptT.mk fun s => some (.ok s.cursor, s)

def note (x : Event) : Tracing Unit :=
  ExceptT.mk fun s => some (.ok (), { s with events := s.events ++ [x] })

/-- A step in which no node is called. -/
def step (d : Decoding α) : Tracing α :=
  ExceptT.mk fun s => some ((outcome d s.cursor).1, { s with cursor := (outcome d s.cursor).2 })

/-- The notes around a call on a node. -/
def noting (depth : Nat) (call : Tracing Node) : Tracing Node := do
  note (.called depth)
  let before ← cursor
  let n ← call
  let after ← cursor
  note (.answered before.pos after.pos)
  return n

section

variable (e : Extent)

mutual

/-- The node at a depth. -/
def node : (steps depth start : Nat) → Tracing Node
  | 0, _, _ => access none
  | steps + 1, depth, start => noting depth do
    if maxDepth < depth then throw (e.malformed (← cursor).pos .nestingTooDeep)
    else
      let stop? ← step (decodeChildrenHeader e)
      let name ← step (decodeNodeName e)
      let (skip, length) ← step (decodeNodeSpan e)
      let start := start + skip
      match stop? with
      | none => return ⟨name, start, start + length, []⟩
      | some stop =>
        let children ← children steps depth stop start
        if children.isEmpty then throw (e.malformed (← cursor).pos .headerWithoutChildren)
        else return ⟨name, start, start + length, children⟩

/-- The loop over the children of a node at the given depth, up to the position `stop`. -/
def children : (steps depth stop start : Nat) → Tracing (List Node)
  | 0, _, _, _ => access none
  | steps + 1, depth, stop, start => do
    let c ← cursor
    if c.pos < stop then
      let n ← node steps (depth + 1) start
      let ns ← children steps depth stop n.stop
      return n :: ns
    else if c.pos = stop then return []
    else throw (e.malformed c.pos .childOverrun)

end

/-- The root of a block, or the root over the nodes of a block, if roots are given a name. -/
def block (steps : Nat) (root? : Option String) (rawSize : Nat) : Tracing Node :=
  match root? with
  | none => do
    let root ← node e steps 0 0
    let c ← cursor
    if c.pos = e.size then return root else throw (e.malformed c.pos .trailingBytes)
  | some rootName => do
    let children ← children e steps 0 e.size 0
    return ⟨rootName, 0, rawSize, children⟩

end

/-! ## Following a computation -/

variable {m : Tracing α} {m' : Decoding α} {f : α → Tracing β} {f' : α → Decoding β} {size : Nat}
  {c c' : Cursor}

/-- From the cursor on, the traced computation comes to the same end as the other one, and what it
notes is in order. -/
def Follows (size : Nat) (m : Tracing α) (m' : Decoding α) (c : Cursor) : Prop :=
  ∀ earlier, ∃ events,
    m.run.run ⟨c, earlier⟩ = some ((outcome m' c).1, ⟨(outcome m' c).2, earlier ++ events⟩) ∧
      ∀ x ∈ events, x.InOrder size

theorem follows_pure (a : α) : Follows size (pure a) (pure a) c :=
  fun earlier => ⟨[], by rw [List.append_nil]; rfl, by simp⟩

theorem follows_throw (e : Error) : Follows size (throw e : Tracing α) (throw e) c :=
  fun earlier => ⟨[], by rw [List.append_nil]; rfl, by simp⟩

theorem follows_step (d : Decoding α) : Follows size (step d) d c :=
  fun earlier => ⟨[], by rw [List.append_nil]; rfl, by simp⟩

theorem run_bind (m : Tracing α) (f : α → Tracing β) (s : Trace) :
    (m >>= f).run.run s =
      match m.run.run s with
      | none => none
      | some (.ok a, t) => (f a).run.run t
      | some (.error e, t) => some (.error e, t) := by
  show (m.run.run s).bind _ = _
  rcases m.run.run s with _ | ⟨_ | _, _⟩ <;> rfl

theorem Follows.bind (h : Follows size m m' c)
    (hf : ∀ a c', Answers m' c a c' → Follows size (f a) (f' a) c') :
    Follows size (m >>= f) (m' >>= f') c := by
  intro earlier
  obtain ⟨events, hrun, hevents⟩ := h earlier
  rw [run_bind, hrun, outcome_bind]
  cases hout : outcome m' c with
  | mk result c' =>
    cases result with
    | error e => exact ⟨events, rfl, hevents⟩
    | ok a =>
      obtain ⟨events', hrun', hevents'⟩ := hf a c' hout (earlier ++ events)
      refine ⟨events ++ events', by rw [← List.append_assoc]; exact hrun', ?_⟩
      intro x hx
      exact (List.mem_append.1 hx).elim (hevents x) (hevents' x)

theorem follows_cursor_bind {f : Cursor → Tracing β} {f' : Cursor → Decoding β}
    (h : Follows size (f c) (f' c) c) : Follows size (cursor >>= f) (get >>= f') c := h

theorem follows_ite {p : Prop} [Decidable p] {n : Tracing α} {n' : Decoding α}
    (ht : p → Follows size m m' c) (he : ¬ p → Follows size n n' c) :
    Follows size (if p then m else n) (if p then m' else n') c := by
  by_cases hp : p
  · rw [if_pos hp, if_pos hp]
    exact ht hp
  · rw [if_neg hp, if_neg hp]
    exact he hp

/-! ## The calls are in order -/

variable {e : Extent} {steps levels depth start stop bytesLeft : Nat}

/-- The notes around a call that follows the decoder of a node. -/
theorem follows_noting {call : Tracing Node} (hdepth : depth ≤ maxDepth + 1) (hc : c.Within e)
    (h : Follows e.size call (decodeNode e levels start) c) :
    Follows e.size (noting depth call) (decodeNode e levels start) c := by
  intro earlier
  obtain ⟨events, hrun, hevents⟩ := h (earlier ++ [.called depth])
  have hnoting : (noting depth call).run.run ⟨c, earlier⟩ =
      (call >>= fun n => cursor >>= fun after =>
        note (.answered c.pos after.pos) >>= fun _ => pure n).run.run
          ⟨c, earlier ++ [.called depth]⟩ := rfl
  rw [hnoting, run_bind, hrun]
  cases hout : outcome (decodeNode e levels start) c with
  | mk result c' =>
    cases result with
    | error err =>
      refine ⟨.called depth :: events, by simp, ?_⟩
      simpa using ⟨hdepth, hevents⟩
    | ok n =>
      obtain ⟨bs, hpass, hform⟩ := form_of_decodeNode hout hc
      have htwo := hform.two_le_length
      have hpos := hpass.pos_eq
      have hend : c'.pos + c'.rest.length = e.size := hpass.within hc
      have hanswered : (Event.answered c.pos c'.pos).InOrder e.size :=
        ⟨by omega, by omega⟩
      refine ⟨.called depth :: (events ++ [.answered c.pos c'.pos]), ?_, ?_⟩
      · show some (Except.ok n, (⟨c', _⟩ : Trace)) = _
        simp
      · intro x hx
        simp only [List.mem_cons, List.mem_append, List.not_mem_nil, or_false] at hx
        rcases hx with rfl | hx | rfl
        · exact hdepth
        · exact hevents x hx
        · exact hanswered

/-- Two steps for every level, and one for every byte. -/
def enough (levels : Nat) (c : Cursor) : Nat := 2 * levels + c.rest.length + 1

/-- Each round leaves fewer bytes, so the loop ends before the bytes are counted down. -/
theorem follows_children (hstop : stop ≤ e.size) (hbytes : e.size ≤ bytesLeft + c.pos)
    (hsteps : enough levels c < steps) (hc : c.Within e)
    (hnode : ∀ steps start c, enough levels c ≤ steps → c.Within e →
      Follows e.size (node e steps (depth + 1) start) (decodeNode e levels start) c) :
    Follows e.size (children e steps depth stop start)
      (decodeUntil e (decodeNode e levels) stop bytesLeft start) c := by
  induction bytesLeft generalizing steps start c with
  | zero =>
    obtain ⟨steps, rfl⟩ := Nat.exists_eq_succ_of_ne_zero (Nat.ne_zero_of_lt hsteps)
    rw [children, decodeUntil.eq_def]
    refine follows_cursor_bind (follows_ite (fun hmore => ?_) fun _ => ?_)
    · omega
    · exact follows_ite (fun _ => follows_pure _) fun _ => follows_throw _
  | succ bytesLeft ih =>
    obtain ⟨steps, rfl⟩ := Nat.exists_eq_succ_of_ne_zero (Nat.ne_zero_of_lt hsteps)
    rw [children, decodeUntil.eq_def]
    refine follows_cursor_bind (follows_ite (fun _ => ?_) fun _ => ?_)
    · refine (hnode steps start c (Nat.le_of_lt_succ hsteps) hc).bind fun n c₁ hn => ?_
      obtain ⟨bs, hpass, hform⟩ := form_of_decodeNode hn hc
      have htwo := hform.two_le_length
      have hpos := hpass.pos_eq
      have hleft := congrArg List.length hpass.rest_eq
      rw [List.length_append] at hleft
      have hsteps₁ : enough levels c₁ < steps := by
        unfold enough at hsteps ⊢
        omega
      exact (ih (by omega) hsteps₁ (hpass.within hc)).bind fun ns c₂ _ => follows_pure _
    · exact follows_ite (fun _ => follows_pure _) fun _ => follows_throw _

theorem follows_node (hlevels : depth + levels = maxDepth + 1) (hsteps : enough levels c ≤ steps)
    (hc : c.Within e) : Follows e.size (node e steps depth start) (decodeNode e levels start) c := by
  obtain ⟨steps, rfl⟩ := Nat.exists_eq_succ_of_ne_zero (Nat.ne_zero_of_lt hsteps)
  induction levels generalizing steps depth start c with
  | zero =>
    rw [node]
    refine follows_noting (by omega) hc ?_
    rw [decodeNode, if_pos (by omega)]
    exact follows_cursor_bind (follows_throw _)
  | succ levels ih =>
    rw [node]
    refine follows_noting (by omega) hc ?_
    rw [decodeNode, if_neg (by omega)]
    refine (follows_step _).bind fun stop? c₁ hstop? => ?_
    cases stop? with
    | none =>
      refine (follows_step _).bind fun name c₂ _ => ?_
      exact (follows_step _).bind fun found c₃ _ => follows_pure _
    | some stop =>
      obtain ⟨_, _, _, hhead, _, _, hstop⟩ := form_of_decodeChildrenHeader hstop?
      refine (follows_step _).bind fun name c₂ hname => ?_
      obtain ⟨_, hbs, -⟩ := form_of_decodeNodeName hname (hhead.within hc)
      refine (follows_step _).bind fun found c₃ hspan => ?_
      obtain ⟨_, hcs, -⟩ := form_of_decodeNodeSpan hspan
      have hpass := (hhead.trans hbs).trans hcs
      have hleft := congrArg List.length hpass.rest_eq
      rw [List.length_append] at hleft
      have hsteps₃ : enough levels c₃ < steps := by
        unfold enough at hsteps ⊢
        omega
      refine (follows_children hstop (Nat.le_add_right _ _) hsteps₃ (hpass.within hc)
        fun steps start c hsteps hc => ?_).bind fun children c₄ _ => ?_
      · obtain ⟨steps, rfl⟩ := Nat.exists_eq_succ_of_ne_zero (Nat.ne_zero_of_lt hsteps)
        exact ih (by omega) hc steps hsteps
      · refine follows_ite (fun _ => ?_) fun _ => follows_pure _
        exact follows_cursor_bind (follows_throw _)

/-- On any block, the calls come to an end, to the same one as the bounded decoder, and are in
order. -/
theorem follows_block {root? : Option String} {rawSize : Nat} (hc : c.Within e)
    (hsteps : 2 * (maxDepth + 2) + c.rest.length ≤ steps) :
    Follows e.size (block e steps root? rawSize) (decodeBlock e root? rawSize) c := by
  cases root? with
  | none =>
    have hroot : enough (maxDepth + 1) c ≤ steps := by
      unfold enough
      omega
    refine (follows_node (Nat.zero_add _) hroot hc).bind fun root c₁ _ => ?_
    exact follows_cursor_bind (follows_ite (fun _ => follows_pure _) fun _ => follows_throw _)
  | some rootName =>
    have hloop : enough maxDepth c < steps := by
      unfold enough
      omega
    have hchildren : Follows e.size (children e steps 0 e.size 0)
        (decodeUntil e (decodeNode e maxDepth) e.size e.size 0) c :=
      follows_children (Nat.le_refl _) (Nat.le_add_right _ _) hloop hc
        fun _ _ _ hsteps hc => follows_node (Nat.add_comm _ _) hsteps hc
    exact hchildren.bind fun children c₁ _ => follows_pure _

end Tracing

end SpanTree.Bill
