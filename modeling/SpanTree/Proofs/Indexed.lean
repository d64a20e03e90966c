import SpanTree.Proofs.Decoding
import SpanTree.Proofs.Frame

/-!
# Reading by index

A reader carries the rest of its data along. The functions here do the same work on a position: they
hold the data and go to the bytes by index, slice and subtract, and each such access is a fault if
it is out of range (`access`). A loop that runs out of steps is a fault as well.

`Safe` compares such a computation with one that carries the rest along: it runs without a fault to
the same end, from a state with the invariant to one with the invariant, and its error, if it ends
in one, lies inside the data. There is a rule for each way in which computations are put together,
and a lemma for each function, the last of which is `safe_readTree`.
-/

namespace SpanTree

open Bill

/-- A computation that may come to a fault, which is neither a value nor an error. -/
abbrev Checked (σ α : Type) := ExceptT Error (StateT σ Option) α

namespace Checked

variable {σ α : Type}

/-- What comes to nothing is a fault. -/
def access (x : Option α) : Checked σ α := ExceptT.mk fun s => x.map fun a => (.ok a, s)

end Checked

/-- An offset that is reported lies inside the data or at its end. -/
def Error.Inside (bound : Nat) : Error → Prop
  | truncated offset => offset ≤ bound
  | malformed offset _ => offset ≤ bound
  | _ => True

theorem Error.Inside.mono {e : Error} {a b : Nat} (h : e.Inside a) (hab : a ≤ b) : e.Inside b := by
  cases e with
  | truncated offset | malformed offset => exact Nat.le_trans h hab
  | _ => trivial

/-! ## Comparing computations -/

section Safe

variable {σ τ α β : Type} {view : τ → σ} {Inv : τ → Prop} {E : Error → Prop} {s : τ}

/-- The checked computation ends like the other one, in a good state and, if need be, in a good
error. -/
structure Safe (view : τ → σ) (Inv : τ → Prop) (E : Error → Prop) (m : Checked σ α)
    (m' : ExceptT Error (StateM τ) α) (s : τ) : Prop where
  run_eq : m.run.run (view s) = some ((outcome m' s).1, view (outcome m' s).2)
  inv : Inv (outcome m' s).2
  error : ∀ e, (outcome m' s).1 = .error e → E e

variable {m : Checked σ α} {m' : ExceptT Error (StateM τ) α} {f : α → Checked σ β}
  {f' : α → ExceptT Error (StateM τ) β}

theorem safe_pure {a : α} (hs : Inv s) :
    Safe view Inv E (pure a : Checked σ α) (pure a : ExceptT Error (StateM τ) α) s :=
  ⟨rfl, hs, fun _ h => by cases h⟩

theorem safe_throw {e : Error} (hs : Inv s) (he : E e) :
    Safe view Inv E (throw e : Checked σ α) (throw e : ExceptT Error (StateM τ) α) s :=
  ⟨rfl, hs, fun _ h => by cases h; exact he⟩

theorem safe_liftExcept {x : Except Error α} (hs : Inv s) (hx : ∀ e, x = .error e → E e) :
    Safe view Inv E (liftExcept x : Checked σ α) (liftExcept x : ExceptT Error (StateM τ) α) s := by
  cases x with
  | ok a => exact safe_pure hs
  | error e => exact safe_throw hs (hx e rfl)

theorem Safe.bind (h : Safe view Inv E m m' s)
    (hf : ∀ a s', Answers m' s a s' → Inv s' → Safe view Inv E (f a) (f' a) s') :
    Safe view Inv E (m >>= f) (m' >>= f') s := by
  obtain ⟨hrun, hinv, herror⟩ := h
  have hbind : (m >>= f).run.run (view s) =
      match m.run.run (view s) with
      | none => none
      | some (.ok a, t) => (f a).run.run t
      | some (.error e, t) => some (.error e, t) := by
    show (m.run.run (view s)).bind _ = _
    rcases m.run.run (view s) with _ | ⟨_ | _, _⟩ <;> rfl
  cases hout : outcome m' s with
  | mk result t =>
    rw [hout] at hrun hinv herror
    cases result with
    | error e =>
      have hfails : outcome (m' >>= f') s = (.error e, t) := Fails.bind hout
      refine ⟨?_, ?_, ?_⟩
      · rw [hbind, hrun, hfails]
      · rw [hfails]
        exact hinv
      · rw [hfails]
        rintro _ ⟨⟩
        exact herror e rfl
    | ok a =>
      obtain ⟨hrun', hinv', herror'⟩ := hf a t hout hinv
      have hanswers : outcome (m' >>= f') s = outcome (f' a) t := by rw [outcome_bind, hout]
      refine ⟨?_, ?_, ?_⟩
      · rw [hbind, hrun, hanswers]
        exact hrun'
      · rw [hanswers]
        exact hinv'
      · rw [hanswers]
        exact herror'

theorem safe_get_bind {f : σ → Checked σ β} {f' : τ → ExceptT Error (StateM τ) β}
    (h : Safe view Inv E (f (view s)) (f' s) s) :
    Safe view Inv E (get >>= f) (get >>= f') s :=
  ⟨h.run_eq, h.inv, h.error⟩

/-- Both decide alike. -/
theorem safe_ite {p : Prop} [Decidable p] {n : Checked σ α} {n' : ExceptT Error (StateM τ) α}
    (ht : p → Safe view Inv E m m' s) (he : ¬ p → Safe view Inv E n n' s) :
    Safe view Inv E (if p then m else n) (if p then m' else n') s := by
  by_cases hp : p
  · rw [if_pos hp, if_pos hp]
    exact ht hp
  · rw [if_neg hp, if_neg hp]
    exact he hp

/-- An access in range does not show. -/
theorem safe_access_bind {γ : Type} {x : Option γ} {a : γ} {f : γ → Checked σ β}
    {m' : ExceptT Error (StateM τ) β} (hx : x = some a) (h : Safe view Inv E (f a) m' s) :
    Safe view Inv E (Checked.access x >>= f) m' s := by
  subst hx
  exact ⟨h.run_eq, h.inv, h.error⟩

end Safe

/-! ## Decoding by index -/

namespace Indexed

open Checked (access)

/-- The bytes from a position on, which may be the end. -/
def suffix? (bs : Bytes) (i : Nat) : Option Bytes :=
  if i ≤ bs.length then some (bs.drop i) else none

/-- The bytes from one position to another. -/
def slice? (bs : Bytes) (i j : Nat) : Option Bytes :=
  if i ≤ j ∧ j ≤ bs.length then some ((bs.take j).drop i) else none

/-- A difference that is not negative. -/
def difference? (a b : Nat) : Option Nat := if b ≤ a then some (a - b) else none

/-- Where decoding stands in its block. -/
structure Place where
  pos : Nat
  dict : Dictionary

variable (block : Bytes) (offset : Nat)

/-- A byte that may be missing. -/
def byteAt (i : Nat) : Checked Place UInt8 :=
  match block[i]? with
  | some b => return b
  | none => throw (.truncated (offset + i))

def cutOff : Error := .truncated (offset + block.length)

def childrenHeader : Checked Place (Option Nat) := do
  let p ← get
  let lo ← byteAt block offset p.pos
  if lo.toNat < 128 then return none
  else
    let hi ← byteAt block offset (p.pos + 1)
    set { p with pos := p.pos + 2 }
    let stop := p.pos + 2 + childrenLength lo hi
    if block.length < stop then throw (cutOff block offset) else return some stop

def fullName (lo : UInt8) : Checked Place String := do
  let p ← get
  let hi ← byteAt block offset (p.pos + 1)
  let length := fullNameLength lo hi
  if block.length < p.pos + 2 + length then throw (cutOff block offset)
  else
    let bytes ← access (slice? block (p.pos + 2) (p.pos + 2 + length))
    match Utf8.decode? bytes with
    | none => throw (.malformed (offset + p.pos) .nameNotUtf8)
    | some name =>
      set (⟨p.pos + (2 + length), p.dict.learn name⟩ : Place)
      return name

def name : Checked Place String := do
  let p ← get
  let b ← byteAt block offset p.pos
  if b.toNat < 64 then
    match p.dict.name? b.toNat with
    | none => throw (.malformed (offset + p.pos) .unknownIndex)
    | some name =>
      set { p with pos := p.pos + 1 }
      return name
  else if b.toNat < 128 then fullName block offset b
  else throw (.malformed (offset + p.pos) .nameExpected)

def nodeName : Checked Place String := do
  let name ← name block offset
  if Name.isNode name then return name else throw (.invalidNodeName name)

def span : Checked Place (Nat × Nat) := do
  let p ← get
  let bytes ← access (suffix? block p.pos)
  match decodeSpan bytes with
  | none => throw (cutOff block offset)
  | some (skip, length, used) =>
    set { p with pos := p.pos + used }
    return (skip, length)

/-- The loop over the nodes up to `stop`. -/
def nodesUntil (node : Nat → Checked Place Node) (stop : Nat) :
    (stepsLeft cursor : Nat) → Checked Place (List Node)
  | stepsLeft, cursor => do
    let p ← get
    if p.pos < stop then
      match stepsLeft with
      | 0 => access none
      | stepsLeft + 1 =>
        let n ← node cursor
        let ns ← nodesUntil node stop stepsLeft n.stop
        return n :: ns
    else if p.pos = stop then return []
    else throw (.malformed (offset + p.pos) .childOverrun)

def node : (levels cursor : Nat) → Checked Place Node
  | 0, _ => do throw (.malformed (offset + (← get).pos) .nestingTooDeep)
  | levels + 1, cursor => do
    let stop? ← childrenHeader block offset
    let name ← nodeName block offset
    let (skip, length) ← span block offset
    let start := cursor + skip
    match stop? with
    | none => return ⟨name, start, start + length, []⟩
    | some stop =>
      let children ← nodesUntil offset (node levels) stop block.length start
      if children.isEmpty then
        throw (.malformed (offset + (← get).pos) .headerWithoutChildren)
      else return ⟨name, start, start + length, children⟩

/-- The root of a block, or the root over the nodes of a block, if roots are given a name. -/
def root (root? : Option String) (rawSize : Nat) : Checked Place Node :=
  match root? with
  | none => do
    let root ← node block offset (maxDepth + 1) 0
    let p ← get
    if p.pos = block.length then return root
    else throw (.malformed (offset + p.pos) .trailingBytes)
  | some rootName => do
    let children ← nodesUntil offset (node block offset maxDepth) block.length block.length 0
    return ⟨rootName, 0, rawSize, children⟩

/-! ## Decoding by index is safe -/

variable {block : Bytes} {offset : Nat} {α β : Type} {c : Cursor}

/-- The cursor is in the block, and its rest is what the block has from there on. -/
structure In (block : Bytes) (c : Cursor) : Prop where
  pos_le : c.pos ≤ block.length
  rest_eq : c.rest = block.drop c.pos

def place (c : Cursor) : Place := ⟨c.pos, c.dict⟩

theorem In.within (hc : In block c) (offset : Nat) : c.Within ⟨offset, block.length⟩ := by
  have hpos := hc.pos_le
  rw [Cursor.Within, hc.rest_eq, List.length_drop]
  show c.pos + (block.length - c.pos) = block.length
  omega

theorem In.getElem? (hc : In block c) (i : Nat) : block[c.pos + i]? = c.rest[i]? := by
  rw [hc.rest_eq, List.getElem?_drop]

theorem In.advance {k : Nat} {d : Dictionary} (hc : In block c) (hk : c.pos + k ≤ block.length) :
    In block ⟨c.pos + k, c.rest.drop k, d⟩ :=
  ⟨hk, by rw [hc.rest_eq, List.drop_drop]⟩

abbrev SafeIn (block : Bytes) (offset : Nat) (m : Checked Place α) (m' : Decoding α) (c : Cursor) :
    Prop :=
  Safe place (In block) (Error.Inside (offset + block.length)) m m' c

variable {f : UInt8 → Checked Place β} {m' : Decoding β}

theorem safe_byteAt_bind {i : Nat} {b : UInt8} (hb : block[i]? = some b)
    (h : SafeIn block offset (f b) m' c) :
    SafeIn block offset (byteAt block offset i >>= f) m' c := by
  rw [byteAt, hb]
  exact ⟨h.run_eq, h.inv, h.error⟩

/-- A byte that is missing right behind the block, or before. -/
theorem safe_missing_bind {i : Nat} (hb : block[i]? = none) (hi : i ≤ block.length)
    (hc : In block c) :
    SafeIn block offset (byteAt block offset i >>= f) (throw (.truncated (offset + i))) c := by
  rw [byteAt, hb]
  refine ⟨rfl, hc, ?_⟩
  rintro _ ⟨⟩
  exact Nat.add_le_add_left hi offset

theorem safe_advance_bind {k : Nat} {f : PUnit → Checked Place β} {f' : Unit → Decoding β}
    (h : SafeIn block offset (f ⟨⟩) (f' ()) ⟨c.pos + k, c.rest.drop k, c.dict⟩) :
    SafeIn block offset (set ({ place c with pos := c.pos + k } : Place) >>= f)
      (advance k >>= f') c :=
  ⟨h.run_eq, h.inv, h.error⟩

theorem safe_cutOff (hc : In block c) :
    SafeIn block offset (throw (cutOff block offset) : Checked Place β)
      (throw (Extent.cutOff ⟨offset, block.length⟩)) c :=
  safe_throw hc (Nat.le_refl _)

theorem safe_malformed {what : Malformation} (hc : In block c) :
    SafeIn block offset (throw (.malformed (offset + c.pos) what) : Checked Place β)
      (throw (Extent.malformed ⟨offset, block.length⟩ c.pos what)) c :=
  safe_throw hc (Nat.add_le_add_left hc.pos_le offset)

theorem safe_childrenHeader (hc : In block c) :
    SafeIn block offset (childrenHeader block offset)
      (decodeChildrenHeader ⟨offset, block.length⟩) c := by
  refine safe_get_bind ?_
  have hfirst := hc.getElem? 0
  have hsecond := hc.getElem? 1
  have hlen : c.pos + c.rest.length = block.length := hc.within offset
  rcases hrest : c.rest with _ | ⟨lo, _ | ⟨hi, bs⟩⟩
  all_goals rw [hrest] at hfirst hsecond hlen
  · exact safe_missing_bind hfirst hc.pos_le hc
  · refine safe_byteAt_bind hfirst ?_
    apply safe_ite
    · intro _
      exact safe_pure hc
    · intro _
      exact safe_missing_bind hsecond (Nat.le_of_eq hlen) hc
  · refine safe_byteAt_bind hfirst ?_
    simp only [List.length_cons] at hlen
    apply safe_ite
    · intro _
      exact safe_pure hc
    · intro _
      refine safe_byteAt_bind hsecond (safe_advance_bind ?_)
      have hc' : In block ⟨c.pos + 2, c.rest.drop 2, c.dict⟩ := hc.advance (by omega)
      apply safe_ite
      · intro _
        exact safe_cutOff hc'
      · intro _
        exact safe_pure hc'

theorem safe_fullName {lo : UInt8} {bs : Bytes} (hc : In block c) (hrest : c.rest = lo :: bs) :
    SafeIn block offset (fullName block offset lo)
      (decodeFullName ⟨offset, block.length⟩ lo bs) c := by
  have hsecond := hc.getElem? 1
  have hlen : c.pos + c.rest.length = block.length := hc.within offset
  rw [hrest] at hsecond hlen
  cases bs with
  | nil =>
    refine safe_get_bind ?_
    exact safe_missing_bind hsecond (Nat.le_of_eq hlen) hc
  | cons hi bs =>
    refine safe_get_bind (safe_byteAt_bind hsecond ?_)
    apply safe_ite
    · intro _
      exact safe_cutOff hc
    · intro (hfit : ¬ block.length < c.pos + 2 + fullNameLength lo hi)
      have hbytes : slice? block (c.pos + 2) (c.pos + 2 + fullNameLength lo hi) =
          some (bs.take (fullNameLength lo hi)) := by
        have hbs : bs = block.drop (c.pos + 2) := by
          rw [← List.drop_drop, ← hc.rest_eq, hrest]
          rfl
        rw [slice?, if_pos (by omega), List.drop_take, hbs, Nat.add_sub_cancel_left]
      refine safe_access_bind hbytes ?_
      cases hname : Utf8.decode? (bs.take (fullNameLength lo hi)) with
      | none => exact safe_malformed hc
      | some name =>
        exact ⟨rfl, hc.advance (by omega), fun _ h => by cases h⟩

theorem safe_name (hc : In block c) :
    SafeIn block offset (name block offset) (decodeName ⟨offset, block.length⟩) c := by
  refine safe_get_bind ?_
  have hfirst := hc.getElem? 0
  have hlen : c.pos + c.rest.length = block.length := hc.within offset
  rcases hrest : c.rest with _ | ⟨b, bs⟩
  all_goals rw [hrest] at hfirst hlen
  · exact safe_missing_bind hfirst hc.pos_le hc
  · refine safe_byteAt_bind hfirst ?_
    apply safe_ite
    · intro _
      show Safe _ _ _ (match c.dict.name? b.toNat with | none => _ | some name => _) _ c
      cases hname : c.dict.name? b.toNat with
      | none => exact safe_malformed hc
      | some name =>
        simp only [List.length_cons] at hlen
        exact safe_advance_bind (safe_pure (hc.advance (by omega)))
    · intro _
      apply safe_ite
      · intro _
        exact safe_fullName hc hrest
      · intro _
        exact safe_malformed hc

theorem safe_nodeName (hc : In block c) :
    SafeIn block offset (nodeName block offset) (decodeNodeName ⟨offset, block.length⟩) c := by
  refine (safe_name hc).bind fun name c' _ hc' => ?_
  split
  · exact safe_pure hc'
  · exact safe_throw hc' trivial

theorem safe_span (hc : In block c) :
    SafeIn block offset (span block offset) (decodeNodeSpan ⟨offset, block.length⟩) c := by
  refine safe_get_bind ?_
  have hbytes : suffix? block c.pos = some c.rest := by rw [suffix?, if_pos hc.pos_le, hc.rest_eq]
  refine safe_access_bind hbytes ?_
  cases hspan : decodeSpan c.rest with
  | none => exact safe_cutOff hc
  | some found =>
    obtain ⟨skip, length, used⟩ := found
    obtain ⟨bs, rest, hrest, rfl, -⟩ := form_of_decodeSpan hspan
    have hlen : c.pos + c.rest.length = block.length := hc.within offset
    rw [hrest, List.length_append] at hlen
    exact safe_advance_bind (safe_pure (hc.advance (by omega)))

/-- Every node takes some bytes, so the loop ends before its steps do. -/
theorem safe_nodesUntil {levels stop stepsLeft cursor : Nat} {node : Nat → Checked Place Node}
    (hnode : ∀ cursor c, In block c →
      SafeIn block offset (node cursor) (decodeNode ⟨offset, block.length⟩ levels cursor) c)
    (hstop : stop ≤ block.length) (hsteps : block.length ≤ stepsLeft + c.pos) (hc : In block c) :
    SafeIn block offset (nodesUntil offset node stop stepsLeft cursor)
      (decodeUntil ⟨offset, block.length⟩ (decodeNode ⟨offset, block.length⟩ levels) stop stepsLeft
        cursor) c := by
  induction stepsLeft generalizing cursor c with
  | zero =>
    rw [nodesUntil.eq_def, decodeUntil.eq_def]
    refine safe_get_bind ?_
    apply safe_ite
    · intro (hmore : c.pos < stop)
      omega
    · intro _
      apply safe_ite
      · intro _
        exact safe_pure hc
      · intro _
        exact safe_malformed hc
  | succ stepsLeft ih =>
    rw [nodesUntil.eq_def, decodeUntil.eq_def]
    refine safe_get_bind ?_
    apply safe_ite
    · intro _
      refine (hnode cursor c hc).bind fun n c₁ hn hc₁ => ?_
      obtain ⟨bs, hpass, hform⟩ := form_of_decodeNode hn (hc.within offset)
      have hlen := hform.two_le_length
      have hpos := hpass.pos_eq
      refine (ih (by omega) hc₁).bind fun ns c₂ _ hc₂ => ?_
      exact safe_pure hc₂
    · intro _
      apply safe_ite
      · intro _
        exact safe_pure hc
      · intro _
        exact safe_malformed hc

theorem safe_node {levels cursor : Nat} (hc : In block c) :
    SafeIn block offset (node block offset levels cursor)
      (decodeNode ⟨offset, block.length⟩ levels cursor) c := by
  induction levels generalizing cursor c with
  | zero => exact safe_get_bind (safe_malformed hc)
  | succ levels ih =>
    rw [node, decodeNode]
    refine (safe_childrenHeader hc).bind fun stop? c₁ hstop? hc₁ => ?_
    refine (safe_nodeName hc₁).bind fun name c₂ _ hc₂ => ?_
    refine (safe_span hc₂).bind fun found c₃ _ hc₃ => ?_
    obtain ⟨skip, length⟩ := found
    cases stop? with
    | none => exact safe_pure hc₃
    | some stop =>
      obtain ⟨_, _, _, _, _, _, hstop⟩ := form_of_decodeChildrenHeader hstop?
      refine (safe_nodesUntil (fun _ _ => ih) hstop (Nat.le_add_right _ _) hc₃).bind
        fun children c₄ _ hc₄ => ?_
      split
      · exact safe_get_bind (safe_malformed hc₄)
      · exact safe_pure hc₄

theorem safe_root {root? : Option String} {rawSize : Nat} (hc : In block c) :
    SafeIn block offset (root block offset root? rawSize)
      (decodeBlock ⟨offset, block.length⟩ root? rawSize) c := by
  cases root? with
  | none =>
    refine (safe_node hc).bind fun root c₁ _ hc₁ => safe_get_bind ?_
    apply safe_ite
    · intro _
      exact safe_pure hc₁
    · intro _
      exact safe_malformed hc₁
  | some rootName =>
    refine (safe_nodesUntil (fun _ _ => safe_node) (Nat.le_refl _) (Nat.le_add_right _ _) hc).bind
      fun children c₁ _ hc₁ => ?_
    exact safe_pure hc₁

/-! ## Reading by index -/

/-- Where a reader stands in its data. -/
structure Mark where
  pos : Nat
  dict : Dictionary
  rootName : Option String
  isFinished : Bool

section

variable (data : Bytes)

def readLength : Checked Mark Nat := do
  let s ← get
  let bytes ← access (suffix? data s.pos)
  match ← liftExcept (Varint.decode bytes) with
  | none => throw (.truncated data.length)
  | some (v, used) =>
    set { s with pos := s.pos + used }
    return v

def take (n : Nat) : Checked Mark Bytes := do
  let s ← get
  let remaining ← access (difference? data.length s.pos)
  if remaining < n then throw (.truncated data.length)
  else
    set { s with pos := s.pos + n }
    access (slice? data s.pos (s.pos + n))

/-- Decoding a block with the names that are known, which keeps those it learns. -/
def decoding (m : Checked Place Node) : Checked Mark Node :=
  ExceptT.mk fun s =>
    (m.run.run ⟨0, s.dict⟩).map fun (result, p) => (result, { s with dict := p.dict })

def readFrame (rawLength : Nat) : Checked Mark Tree := do
  let raw ← take data rawLength
  let blockLength ← readLength data
  let s ← get
  let block ← take data blockLength
  let root ← decoding (root block s.pos s.rootName rawLength)
  let t : Tree := ⟨root, raw⟩
  if t.isValid then return t else throw (.malformed s.pos .spansOutsideRaw)

/-- Behind the terminator the bytes that are left are counted, if there are any. -/
def readTree : Checked Mark (Option Tree) := do
  let s ← get
  if s.isFinished || s.pos == data.length then return none
  else
    let rawLength ← readLength data
    if rawLength = terminator then
      let s ← get
      set { s with isFinished := true }
      if s.pos = data.length then return none
      else
        let _ ← access (difference? data.length s.pos)
        return none
    else return some (← readFrame data rawLength)

end

/-! ## Reading by index is safe -/

variable {data : Bytes} {start n : Nat} {root? : Option String} {r : Reader}

/-- The reader is in the data, not before a position, and its rest is what the data have from there
on. -/
structure Reads (data : Bytes) (start : Nat) (root? : Option String) (r : Reader) : Prop where
  size_eq : r.size = data.length
  start_le : start ≤ r.position
  position_le : r.position ≤ data.length
  rest_eq : r.rest = data.drop r.position
  rootName_eq : r.rootName = root?

def mark (r : Reader) : Mark := ⟨r.position, r.dict, r.rootName, r.isFinished⟩

theorem Reads.consistent (hr : Reads data start root? r) : r.Consistent := by
  have hpos := hr.position_le
  rw [Reader.Consistent, hr.rest_eq, List.length_drop, hr.size_eq]
  omega

theorem Reads.skip (hr : Reads data start root? r) (hn : r.position + n ≤ data.length) :
    Reads data start root? (r.skip n) :=
  ⟨hr.size_eq, Nat.le_add_right_of_le hr.start_le, hn, by
    rw [Reader.skip, hr.rest_eq, List.drop_drop], hr.rootName_eq⟩

abbrev SafeOn (data : Bytes) (start : Nat) (root? : Option String) (m : Checked Mark α)
    (m' : Reader.Reading α) (r : Reader) : Prop :=
  Safe mark (Reads data start root?) (Error.Inside data.length) m m' r

theorem safe_readLength (hr : Reads data start root? r) :
    SafeOn data start root? (readLength data) Reader.readLength r := by
  refine safe_get_bind ?_
  have hbytes : suffix? data r.position = some r.rest := by
    rw [suffix?, if_pos hr.position_le, hr.rest_eq]
  refine safe_access_bind hbytes ?_
  refine (safe_liftExcept hr fun e he => ?_).bind fun found r' hfound hr' => ?_
  · rw [Varint.error_of_decode he]
    trivial
  · obtain ⟨hdecode, rfl⟩ := answers_liftExcept.1 hfound
    cases found with
    | none =>
      show Safe _ _ _ (throw _) (throw (.truncated r.size)) r
      rw [hr.size_eq]
      exact safe_throw hr (Nat.le_refl _)
    | some found =>
      obtain ⟨v, used⟩ := found
      obtain ⟨bs, rest, hrest, rfl, -⟩ := Varint.form_of_decode hdecode
      have hlen : r.position + r.rest.length = r.size := hr.consistent
      rw [hrest, List.length_append, hr.size_eq] at hlen
      have hskip : Reads data start root? (r.skip bs.length) := hr.skip (by omega)
      exact ⟨rfl, hskip, fun _ h => by cases h⟩

theorem safe_take (hr : Reads data start root? r) :
    SafeOn data start root? (take data n) (Reader.take n) r := by
  refine safe_get_bind ?_
  have hremaining : difference? data.length r.position = some (r.size - r.position) := by
    rw [difference?, if_pos hr.position_le, hr.size_eq]
  refine safe_access_bind hremaining ?_
  have hpos := hr.position_le
  have hsize := hr.size_eq
  apply safe_ite
  · intro _
    rw [hsize]
    exact safe_throw hr (Nat.le_refl _)
  · intro hfit
    have hbytes : slice? data r.position (r.position + n) = some (r.rest.take n) := by
      rw [slice?, if_pos (by omega), List.drop_take, hr.rest_eq, Nat.add_sub_cancel_left]
    have hskip : Reads data start root? (r.skip n) := hr.skip (by omega)
    refine ⟨?_, hskip, fun _ h => by cases h⟩
    show (access (slice? data r.position (r.position + n))).run.run (mark (r.skip n)) = _
    rw [hbytes]
    rfl

theorem safe_decoding {block : Bytes} {m : Checked Place Node} {m' : Decoding Node}
    (h : SafeIn block offset m m' ⟨0, block, r.dict⟩)
    (hoffset : offset + block.length ≤ data.length)
    (hr : Reads data start root? r) :
    SafeOn data start root? (decoding m) (Reader.decoding block m') r := by
  obtain ⟨hrun, -, herror⟩ := h
  have houtcome : outcome (Reader.decoding block m') r =
      ((outcome m' ⟨0, block, r.dict⟩).1,
        { r with dict := (outcome m' ⟨0, block, r.dict⟩).2.dict }) := by
    show outcome (match outcome m' ⟨0, block, r.dict⟩ with
      | (result, c) => set { r with dict := c.dict } >>= fun _ => liftExcept result) r = _
    rcases outcome m' ⟨0, block, r.dict⟩ with ⟨_ | _, c⟩ <;> rfl
  refine ⟨?_, ?_, ?_⟩
  · rw [houtcome]
    show (m.run.run (place ⟨0, block, r.dict⟩)).map _ = _
    rw [hrun]
    rfl
  · rw [houtcome]
    exact ⟨hr.size_eq, hr.start_le, hr.position_le, hr.rest_eq, hr.rootName_eq⟩
  · intro e he
    rw [houtcome] at he
    exact (herror e he).mono hoffset

theorem safe_readFrame {rawLength : Nat} (hr : Reads data start root? r) :
    SafeOn data start root? (readFrame data rawLength) (Reader.readFrame rawLength) r := by
  refine (safe_take hr).bind fun raw r₁ _ hr₁ => ?_
  refine (safe_readLength hr₁).bind fun blockLength r₂ _ hr₂ => safe_get_bind ?_
  refine (safe_take hr₂).bind fun block r₃ hblock hr₃ => ?_
  obtain ⟨rfl, hpass, -⟩ := (Reader.answers_take hr₂.consistent).1 hblock
  have hfit : r₂.position + block.length ≤ data.length := hpass.position_eq ▸ hr₃.position_le
  have hstart : In block ⟨0, block, r₃.dict⟩ := ⟨Nat.zero_le _, rfl⟩
  have hroot : SafeOn data start root?
      (decoding (root block r₂.position r₂.rootName rawLength))
      (Reader.decoding block (decodeBlock ⟨r₂.position, block.length⟩ r₂.rootName rawLength)) r₃ :=
    safe_decoding (safe_root hstart) hfit hr₃
  refine hroot.bind fun root r₄ _ hr₄ => ?_
  apply safe_ite
  · intro _
    exact safe_pure hr₄
  · intro _
    exact safe_throw hr₄ hr₂.position_le

/-- **Reading by index is safe**: no access is out of range, the reader stays in its data and does
not go back, and every offset that is reported lies in them. -/
theorem safe_readTree (hr : Reads data start root? r) :
    SafeOn data start root? (readTree data) Reader.readTree r := by
  refine safe_get_bind ?_
  show Safe _ _ _ (if (r.isFinished || r.position == data.length) = true then _ else _)
    (if (r.isFinished || r.position == r.size) = true then _ else _) r
  rw [hr.size_eq]
  apply safe_ite
  · intro _
    exact safe_pure hr
  · intro _
    refine (safe_readLength hr).bind fun rawLength r₁ _ hr₁ => ?_
    apply safe_ite
    · intro _
      have hdone : Reads data start root? { r₁ with isFinished := true } :=
        ⟨hr₁.size_eq, hr₁.start_le, hr₁.position_le, hr₁.rest_eq, hr₁.rootName_eq⟩
      refine ⟨?_, hdone, fun _ h => by cases h⟩
      show (if r₁.position = data.length then _ else _ : Checked Mark (Option Tree)).run.run
        (mark { r₁ with isFinished := true }) = _
      split
      · rfl
      · have hleft : difference? data.length (mark r₁).pos = some (data.length - r₁.position) :=
          if_pos hr₁.position_le
        rw [hleft]
        rfl
    · intro _
      refine (safe_readFrame hr₁).bind fun t r₂ _ hr₂ => ?_
      exact safe_pure hr₂

end Indexed

end SpanTree
