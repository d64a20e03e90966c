import SpanTree.Proofs.NameTable
import SpanTree.Proofs.Session

/-!
# Refused trees leave no trace

A tree may be refused at any of its nodes, behind names that were added on the way there. A stream
takes these names back.

Here a stream is followed down to the map in which its names are looked up: a `Writer` keeps its
names in a `NameTable`, encodes by the same walk through the tree, and takes names back from the
list and from the map one by one. **Both halves agree in every state that a writer comes to, and the
writer does what the stream does** (`Writer.run_stream`). So a refused tree changes nothing at all,
and calls that were refused can be left out of a run without changing any bytes that are handed out,
or the names in the end (`Writer.refused_leaves_no_trace`).
-/

namespace SpanTree

open Bill

/-! ## The walk through a tree -/

namespace Bill

section Walk

variable {σ : Type} (put : String → ExceptT Error (StateM σ) Bytes)

mutual

/-- Encoding as far as it does not depend on how names are kept: `put` writes a name. -/
def walkNode (cursor depth : Nat) : Node → ExceptT Error (StateM σ) Bytes
  | ⟨name, start, stop, children⟩ => do
    if maxDepth < depth then throw (.nestingTooDeep maxDepth)
    let nameBytes ← put name
    let spanBytes ← liftExcept (encodeSpan (start - cursor) (stop - start))
    let inner ← walkNodes start (depth + 1) children
    let content := nameBytes ++ spanBytes ++ inner
    if children.isEmpty then return content
    else return (← liftExcept (encodeChildrenHeader content.length)) ++ content

def walkNodes (cursor depth : Nat) : List Node → ExceptT Error (StateM σ) Bytes
  | [] => return []
  | n :: ns => do
    let first ← walkNode cursor depth n
    let rest ← walkNodes n.stop depth ns
    return first ++ rest

end

def walkTree (t : Tree) (mode : RootMode) : ExceptT Error (StateM σ) Bytes :=
  match mode with
  | .written =>
    if t.rootName.isEmpty then throw (.invalidNodeName "")
    else walkNode put t.root.start 0 t.root
  | .omitted => walkNodes put t.root.start 1 t.root.children

end Walk

mutual

theorem walkNode_encodeName : ∀ (n : Node) (cursor depth : Nat),
    walkNode encodeName cursor depth n = encodeNode cursor depth n
  | ⟨_, start, _, children⟩, cursor, depth => by
    rw [walkNode, encodeNode, walkNodes_encodeName children start (depth + 1)]

theorem walkNodes_encodeName : ∀ (ns : List Node) (cursor depth : Nat),
    walkNodes encodeName cursor depth ns = encodeNodes cursor depth ns
  | [], _, _ => by rw [walkNodes, encodeNodes]
  | n :: ns, cursor, depth => by
    rw [walkNodes, encodeNodes, walkNode_encodeName n cursor depth,
      walkNodes_encodeName ns n.stop depth]

end

theorem walkTree_encodeName (t : Tree) (mode : RootMode) :
    walkTree encodeName t mode = encodeTree t mode := by
  cases mode with
  | written => rw [walkTree, encodeTree, walkNode_encodeName]
  | omitted => rw [walkTree, encodeTree, walkNodes_encodeName]

end Bill

/-! ## Encoding with a table -/

namespace NameTable

/-- A computation that grows a table, also when it fails. -/
abbrev Encoding (α : Type) := ExceptT Error (StateM NameTable) α

/-- A name that is not found is added to both halves before it is written. -/
def putName (name : String) : Encoding Bytes := do
  match (← get).find name with
  | .index i =>
    if i < dictionarySize then return [UInt8.ofNat i]
    else throw (.indexTooLarge i)
  | .notFound =>
    modify fun t => (t.add name).2
    liftExcept (encodeFullName name)
  | _ => liftExcept (encodeFullName name)

/-- On an agreeing table the second computation does what the first does on the list, and leaves an
agreeing table. -/
def Follows {α : Type} (m : Bill.Encoding α) (m' : Encoding α) : Prop :=
  ∀ t : NameTable, t.Synced →
    outcome m t.dictionary = ((outcome m' t).1, (outcome m' t).2.dictionary) ∧
      (outcome m' t).2.Synced

section Follows

variable {α β : Type} {m : Bill.Encoding α} {m' : Encoding α}

theorem follows_pure (a : α) : Follows (pure a) (pure a) := fun _ ht => ⟨rfl, ht⟩

theorem follows_throw (e : Error) :
    Follows (throw e : Bill.Encoding α) (throw e : Encoding α) := fun _ ht => ⟨rfl, ht⟩

theorem follows_liftExcept (x : Except Error α) :
    Follows (liftExcept x : Bill.Encoding α) (liftExcept x : Encoding α) := by
  cases x with
  | ok a => exact follows_pure a
  | error e => exact follows_throw e

theorem Follows.bind {f : α → Bill.Encoding β} {f' : α → Encoding β} (h : Follows m m')
    (hf : ∀ a, Follows (f a) (f' a)) : Follows (m >>= f) (m' >>= f') := by
  intro t ht
  obtain ⟨heq, hsynced⟩ := h t ht
  rw [outcome_bind, outcome_bind, heq]
  generalize outcome m' t = o at hsynced
  obtain ⟨_ | a, t'⟩ := o
  · exact ⟨rfl, hsynced⟩
  · exact hf a t' hsynced

/-- Behind an error nothing is computed. -/
theorem follows_throw_bind {f : α → Bill.Encoding β} {f' : α → Encoding β} (e : Error) :
    Follows (throw e >>= f) (throw e >>= f') := fun _ ht => ⟨rfl, ht⟩

/-- Both decide alike. -/
theorem follows_ite {p : Prop} [Decidable p] {n : Bill.Encoding α} {n' : Encoding α}
    (h : Follows m m') (h' : Follows n n') :
    Follows (if p then m else n) (if p then m' else n') := by
  by_cases hp : p
  · rw [if_pos hp, if_pos hp]
    exact h
  · rw [if_neg hp, if_neg hp]
    exact h'

end Follows

theorem follows_putName (name : String) : Follows (encodeName name) (putName name) := by
  intro t ht
  rw [encodeName, putName, outcome_bind, outcome_bind, outcome_get, outcome_get]
  dsimp only
  rw [← ht.find_eq name]
  cases t.find name with
  | index i => exact follows_ite (follows_pure _) (follows_throw _) t ht
  | notFound =>
    have hadd : (t.add name).2.dictionary = t.dictionary.learn name :=
      congrArg Prod.snd (ht.add_eq name)
    dsimp only
    rw [outcome_bind, outcome_bind, outcome_modify, outcome_modify]
    dsimp only
    rw [← hadd]
    exact follows_liftExcept _ _ (ht.add name)
  | overflow => exact follows_liftExcept _ t ht
  | duplicate => exact follows_liftExcept _ t ht

mutual

theorem follows_walkNode : ∀ (n : Node) (cursor depth : Nat),
    Follows (walkNode encodeName cursor depth n) (walkNode putName cursor depth n)
  | ⟨name, start, stop, children⟩, cursor, depth => by
    rw [walkNode, walkNode]
    refine follows_ite (follows_throw_bind _) ?_
    refine (follows_putName name).bind fun nameBytes => ?_
    refine (follows_liftExcept _).bind fun spanBytes => ?_
    refine (follows_walkNodes children start (depth + 1)).bind fun inner => ?_
    refine follows_ite (follows_pure _) ?_
    exact (follows_liftExcept _).bind fun header => follows_pure _

theorem follows_walkNodes : ∀ (ns : List Node) (cursor depth : Nat),
    Follows (walkNodes encodeName cursor depth ns) (walkNodes putName cursor depth ns)
  | [], _, _ => by
    rw [walkNodes, walkNodes]
    exact follows_pure []
  | n :: ns, cursor, depth => by
    rw [walkNodes, walkNodes]
    refine (follows_walkNode n cursor depth).bind fun first => ?_
    exact (follows_walkNodes ns n.stop depth).bind fun rest => follows_pure _

end

theorem follows_walkTree (t : Tree) (mode : RootMode) :
    Follows (encodeTree t mode) (walkTree putName t mode) := by
  rw [← walkTree_encodeName]
  cases mode with
  | written => exact follows_ite (follows_throw _) (follows_walkNode _ _ _)
  | omitted => exact follows_walkNodes _ _ _

end NameTable

/-! ## Sessions -/

namespace Stream

variable {s : Stream} {t : Tree} {e : Error}

theorem append_of_error (h : (s.append t).result = .error e) : (s.append t).state = s := by
  cases hrun : outcome (encodeTree t s.mode) s.dict with
  | mk result d' =>
    cases result with
    | ok block =>
      rw [(append_of_answers hrun).1] at h
      cases h
    | error e' => exact (append_of_fails hrun).2

end Stream

namespace Session

open SpanTree.Stream (Action)

variable {s : Session} {t : Tree} {action : Action} {actions : List Action}

theorem step_append_stream (s : Session) (t : Tree) :
    (s.step (.append t)).stream = (s.stream.append t).state := by
  simp only [step]
  split <;> rfl

/-- The action appends a tree that is refused. -/
def refuses (s : Session) : Action → Bool
  | .append t => !(s.stream.append t).result.isOk
  | _ => false

/-- The actions of a run less those that append a tree that is refused. -/
def withoutRefused (s : Session) : List Action → List Action
  | [] => []
  | action :: actions =>
    if s.refuses action then withoutRefused (s.step action) actions
    else action :: withoutRefused (s.step action) actions

/-- What the calls of a run that take bytes hand out, one after the other. -/
def chunks (s : Session) : List Action → List Bytes
  | [] => []
  | .take :: actions => s.stream.takeBytes.1 :: chunks (s.step .take) actions
  | action :: actions => chunks (s.step action) actions

theorem step_of_refuses (h : s.refuses action = true) : s.step action = s := by
  cases action with
  | append t =>
    simp only [refuses] at h
    cases hresult : (s.stream.append t).result with
    | ok u =>
      rw [hresult] at h
      cases h
    | error e => simp only [step, hresult, Stream.append_of_error hresult]
  | header | omitRoots | take | terminator | resetDictionary => cases h

theorem chunks_of_refuses (h : s.refuses action = true) :
    s.chunks (action :: actions) = s.chunks actions := by
  have hstep := step_of_refuses h
  cases action with
  | append t => rw [chunks, hstep]; simp
  | header | omitRoots | take | terminator | resetDictionary => cases h

theorem chunks_cons {others : List Action}
    (h : (s.step action).chunks others = (s.step action).chunks actions) :
    s.chunks (action :: others) = s.chunks (action :: actions) := by
  cases action with
  | take => rw [chunks, chunks, h]
  | header | omitRoots | append | terminator | resetDictionary =>
    rw [chunks, chunks, h] <;> simp

theorem chunks_withoutRefused (s : Session) (actions : List Action) :
    s.chunks (s.withoutRefused actions) = s.chunks actions := by
  induction actions generalizing s with
  | nil => rfl
  | cons action actions ih =>
    rw [withoutRefused]
    split
    · next hrefused =>
      rw [step_of_refuses hrefused, chunks_of_refuses hrefused]
      exact ih s
    · exact chunks_cons (ih _)

theorem run_withoutRefused (s : Session) (actions : List Action) :
    s.run (s.withoutRefused actions) = s.run actions := by
  induction actions generalizing s with
  | nil => rfl
  | cons action actions ih =>
    rw [withoutRefused, run_cons]
    split
    · next hrefused =>
      have hstep := step_of_refuses hrefused
      rw [hstep]
      exact ih s
    · rw [run_cons]
      exact ih _

end Session

/-! ## Writers -/

/-- A stream whose names are kept in a table. -/
structure Writer where
  table : NameTable
  buffer : Bytes
  mode : RootMode

namespace Writer

open SpanTree.Stream (Action)

def fresh : Writer := ⟨NameTable.ofCapacity dictionarySize, [], .written⟩

/-- A tree that cannot be encoded is refused: its names are taken back from both halves. -/
def append (w : Writer) (t : Tree) : Except Error Unit × Writer :=
  match outcome (walkTree NameTable.putName t w.mode) w.table with
  | (.error e, table) => (.error e, { w with table := table.truncate w.table.size })
  | (.ok block, table) =>
    (.ok (), { w with table := table, buffer := w.buffer ++ Stream.frame t.raw block })

def step (w : Writer) : Action → Writer
  | .header => { w with table := w.table.reset, buffer := w.buffer ++ header }
  | .omitRoots => { w with mode := .omitted }
  | .append t => (w.append t).2
  | .take => { w with buffer := [] }
  | .terminator => { w with buffer := w.buffer ++ Varint.encode terminator }
  | .resetDictionary => { w with table := w.table.reset }

def run (w : Writer) (actions : List Action) : Writer := actions.foldl step w

/-- The stream, in which the names are kept in a list only. -/
def stream (w : Writer) : Stream := ⟨w.table.dictionary, w.buffer, w.mode⟩

variable {w w' : Writer} {t : Tree} {e : Error} {s : Session} {action : Action}
  {actions : List Action}

theorem ext_stream (h : w.table.Synced) (h' : w'.table.Synced) (hstream : w.stream = w'.stream) :
    w = w' := by
  obtain ⟨table, buffer, mode⟩ := w
  obtain ⟨table', buffer', mode'⟩ := w'
  simp only [stream, Stream.mk.injEq] at hstream
  obtain ⟨hlist, rfl, rfl⟩ := hstream
  obtain rfl := NameTable.Synced.ext h h' hlist
  rfl

theorem append_stream (h : w.table.Synced) (t : Tree) :
    ((w.append t).1, (w.append t).2.stream) =
        ((w.stream.append t).result, (w.stream.append t).state) ∧
      (w.append t).2.table.Synced := by
  obtain ⟨hrun, hsynced⟩ := NameTable.follows_walkTree t w.mode w.table h
  have hrun' : (encodeTree t w.stream.mode).run.run w.stream.dict =
      outcome (encodeTree t w.mode) w.table.dictionary := rfl
  unfold Writer.append Stream.append
  rw [hrun', hrun]
  generalize outcome (walkTree NameTable.putName t w.mode) w.table = o at hsynced
  obtain ⟨_ | block, table⟩ := o
  · exact ⟨rfl, hsynced.truncate _⟩
  · exact ⟨rfl, hsynced⟩

/-- **A tree that is refused leaves a writer as it was**, in both halves of its names. -/
theorem append_of_error (h : w.table.Synced) (he : (w.append t).1 = .error e) :
    (w.append t).2 = w := by
  obtain ⟨heq, hsynced⟩ := append_stream h t
  obtain ⟨hresult, hstate⟩ := Prod.mk.inj heq
  refine ext_stream hsynced h (hstate.trans ?_)
  exact Stream.append_of_error (hresult.symm.trans he)

theorem synced_fresh : fresh.table.Synced := NameTable.synced_ofCapacity _

/-- One action, on the stream and on the writer. -/
theorem step_stream (h : w.table.Synced) (hs : s.stream = w.stream) (action : Action) :
    (s.step action).stream = (w.step action).stream ∧ (w.step action).table.Synced := by
  cases action with
  | append t =>
    obtain ⟨heq, hsynced⟩ := append_stream h t
    refine ⟨?_, hsynced⟩
    rw [Session.step_append_stream, hs]
    exact (Prod.mk.inj heq).2.symm
  | header =>
    refine ⟨?_, NameTable.synced_reset _⟩
    simp only [Session.step, Stream.insertHeader, hs]
    rfl
  | resetDictionary =>
    refine ⟨?_, NameTable.synced_reset _⟩
    simp only [Session.step, Stream.resetDictionary, hs]
    rfl
  | omitRoots =>
    refine ⟨?_, h⟩
    simp only [Session.step, Stream.omitRoots, hs]
    rfl
  | take =>
    refine ⟨?_, h⟩
    simp only [Session.step, Stream.takeBytes, hs]
    rfl
  | terminator =>
    refine ⟨?_, h⟩
    simp only [Session.step, Stream.insertTerminator, hs]
    rfl

/-- **A writer does what the stream does, and both halves of its names stay in agreement.** -/
theorem run_stream (h : w.table.Synced) (hs : s.stream = w.stream) (actions : List Action) :
    (s.run actions).stream = (w.run actions).stream ∧ (w.run actions).table.Synced := by
  induction actions generalizing s w with
  | nil => exact ⟨hs, h⟩
  | cons action actions ih =>
    obtain ⟨hs', h'⟩ := step_stream h hs action
    exact ih h' hs'

/-- The writer after a run from the beginning. -/
theorem run_fresh (actions : List Action) :
    (fresh.run actions).stream = (Session.fresh.run actions).stream ∧
      (fresh.run actions).table.Synced := by
  obtain ⟨hstream, hsynced⟩ := run_stream synced_fresh (s := Session.fresh) rfl actions
  exact ⟨hstream.symm, hsynced⟩

/-- **A tree that is refused leaves no trace.** In whatever state a stream and its writer are, if a
tree is refused, then both are afterwards what they were before: the bytes that wait, the mode, the
names in their order, and the answer that is found for each name. So the refused trees of a run can
be left out: the same bytes are handed out at each call that takes some, and the stream and the
writer, with all names, are the same in the end. -/
theorem refused_leaves_no_trace (actions : List Action) :
    let s := Session.fresh.run actions
    let w := fresh.run actions
    w.stream = s.stream ∧
    (∀ t e, (s.stream.append t).result = .error e →
      (s.stream.append t).state = s.stream ∧
      (w.append t).1 = .error e ∧ (w.append t).2 = w ∧
      ∀ name, (w.append t).2.table.find name = s.stream.dict.find name) ∧
    let kept := Session.fresh.withoutRefused actions
    Session.fresh.chunks kept = Session.fresh.chunks actions ∧
      Session.fresh.run kept = s ∧ fresh.run kept = w := by
  intro s w
  obtain ⟨hstream, hsynced⟩ := run_fresh actions
  refine ⟨hstream, ?_, ?_⟩
  · intro t e he
    have hresult := (Prod.mk.inj (append_stream hsynced t).1).1
    rw [hstream] at hresult
    have hrefused := append_of_error hsynced (hresult.trans he)
    refine ⟨Stream.append_of_error he, hresult.trans he, hrefused, fun name => ?_⟩
    rw [hrefused]
    exact (hsynced.find_eq name).trans (congrArg (·.dict.find name) hstream)
  · intro kept
    have hrun : Session.fresh.run kept = s := Session.run_withoutRefused _ actions
    obtain ⟨hstream', hsynced'⟩ := run_fresh kept
    refine ⟨Session.chunks_withoutRefused _ actions, hrun, ?_⟩
    rw [hrun, ← hstream] at hstream'
    exact ext_stream hsynced' hsynced hstream'

/-- A tree that is refused at its last node, behind three new names, and the run without it. -/
theorem refused_leaves_no_trace_wide_skip :
    let t : Tree := ⟨⟨"$", 0, 16384, [⟨"a", 0, 0, []⟩, ⟨"b", 16384, 16384, []⟩]⟩,
      List.replicate 16384 120⟩
    let s := Session.fresh.run [.header]
    let w := fresh.run [.header]
    ((outcome (encodeTree t .written) s.stream.dict).2.names = ["$", "a", "b"] ∧
      (s.stream.append t).result = .error (.spanOverflow 16384 0)) ∧
    ((s.stream.append t).state = s.stream ∧ (w.append t).2 = w) ∧
    Session.fresh.withoutRefused [.header, .append t, .take] = [.header, .take] ∧
      Session.fresh.chunks [.header, .take] = Session.fresh.chunks [.header, .append t, .take] := by
  intro t s w
  have hrefused : (s.stream.append t).result = .error (.spanOverflow 16384 0) := by rfl
  have hkept : Session.fresh.withoutRefused [.header, .append t, .take] = [.header, .take] := by
    decide +kernel
  obtain ⟨-, htrace, -⟩ := refused_leaves_no_trace [.header]
  obtain ⟨hstate, -, hwriter, -⟩ := htrace t _ hrefused
  obtain ⟨-, -, hchunks, -⟩ := refused_leaves_no_trace [.header, .append t, .take]
  rw [hkept] at hchunks
  exact ⟨⟨by decide +kernel, hrefused⟩, ⟨hstate, hwriter⟩, hkept, hchunks⟩

end Writer

end SpanTree
