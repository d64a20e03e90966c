import SpanTree.Proofs.RoundTrip

/-!
# Contexts of streams

A context is called in any order: it is given trees and it is closed, once or more often. What the
calls return, put together, is what one stream writes at once for the trees that were accepted
(`calls_write_batch`): with one header, and one terminator, also if trees were refused, the first or
all of them.

**Invariant** (`Started`). A context that was given a tree has, until it is closed, the state of a
stream that was begun and has accepted the same trees, and the bytes that the calls returned were
taken from it. Whether a tree is accepted depends on the names of that stream alone, so a stream
that is given the accepted trees and no others decides in the same way (`Session.append_result`).
A new context answers like one that has begun its stream already (`call_new`).
-/

namespace SpanTree

open Bill
open SpanTree.Stream (Action)

/-! ## Streams of given trees -/

def BillConfig.mode (config : BillConfig) : RootMode :=
  if config.noRootNode then .omitted else .written

variable {mode : RootMode} {ts : List Tree} {t : Tree} {bytes taken : Bytes} {stream : Stream}
  {c : Context}

namespace Session

/-- The beginning of a stream. -/
def preamble : RootMode → List Action
  | .written => [.header]
  | .omitted => [.omitRoots, .header]

theorem setup_preamble (mode : RootMode) : Setup mode (preamble mode) := by
  cases mode with
  | written => exact setup_header
  | omitted => exact ⟨by simp [preamble], by decide, by simp [preamble]⟩

/-- A stream that was begun. -/
def opened (mode : RootMode) : Session := fresh.run (preamble mode)

/-- A stream that was begun, and then given these trees one after the other. -/
def batch (mode : RootMode) (ts : List Tree) : Session := (opened mode).run (ts.map .append)

/-- The same stream when it is ended and all its bytes are taken. -/
def endedBatch (mode : RootMode) (ts : List Tree) : Session :=
  whole (preamble mode) (ts.map .append)

theorem writes_take (s : Session) : s.Writes [] [] (s.step .take) := by
  refine ⟨(List.append_nil _).symm, ?_, rfl, .nil⟩
  simp [step, Stream.takeBytes, written]

theorem begun_opened (mode : RootMode) : Begun mode (opened mode) := (setup_preamble mode).begun

theorem endedBatch_eq (mode : RootMode) (ts : List Tree) :
    (endedBatch mode ts).taken = (batch mode ts).written ++ Varint.encode terminator ∧
      (endedBatch mode ts).accepted = (batch mode ts).accepted := by
  have hwhole := whole_eq (preamble mode) (ts.map .append)
  rwa [run_append] at hwhole

/-- Trees that some stream accepts are all accepted if they are given to it alone. -/
theorem writes_batch {s : Session} (h : (opened mode).Writes ts bytes s) :
    (opened mode).Writes ts bytes (batch mode ts) := run_frames rfl rfl h.frames

theorem batch_eq {s : Session} (h : (opened mode).Writes ts bytes s) :
    (batch mode ts).accepted = ts ∧
      (endedBatch mode ts).taken = header ++ bytes ++ Varint.encode terminator ∧
      Frames mode (Dictionary.ofCapacity dictionarySize) ts bytes s.stream.dict := by
  have hbegun := begun_opened mode
  have hbatch := writes_batch h
  have hframes := h.frames
  have haccepted := hbatch.accepted
  rw [hbegun.accepted, List.nil_append] at haccepted
  rw [hbegun.mode, hbegun.dict] at hframes
  refine ⟨haccepted, ?_, hframes⟩
  rw [(endedBatch_eq mode ts).1, hbatch.written, hbegun.written]

/-- Whether a stream accepts a tree, and why not, depends on its names only. -/
theorem append_result {s s' : Stream} (hdict : s.dict = s'.dict) (hmode : s.mode = s'.mode) :
    (s.append t).result = (s'.append t).result := by
  unfold Stream.append
  rw [hdict, hmode]
  rcases (encodeTree t s'.mode).run.run s'.dict with ⟨_ | _, _⟩ <;> rfl

/-- A stream that has accepted some trees accepts one more if it does so when it is given these
trees alone, and is left as it was otherwise. -/
theorem append_cases {s : Session} (h : (opened mode).Writes ts bytes s) (t : Tree) :
    (s.stream.append t).result = ((batch mode ts).stream.append t).result ∧
      ((∃ bytes', (s.stream.append t).result = .ok () ∧
          (opened mode).Writes (ts ++ [t]) bytes' (s.step (.append t))) ∨
        ∃ e, (s.stream.append t).result = .error e ∧ (s.stream.append t).state = s.stream) := by
  have hbatch := writes_batch h
  refine ⟨append_result (h.frames.unique hbatch.frames).2 (h.mode.trans hbatch.mode.symm), ?_⟩
  cases hrun : outcome (encodeTree t s.stream.mode) s.stream.dict with
  | mk result d =>
    cases result with
    | error e => exact .inr ⟨e, Stream.append_of_fails hrun⟩
    | ok block =>
      exact .inl ⟨_, (Stream.append_of_answers hrun).1, h.trans (step_append_of_answers hrun)⟩

end Session

namespace Context

open Session (opened batch endedBatch)

/-! ## Calls -/

inductive Call
  | serialize (t : Tree)
  | close
deriving DecidableEq

def call (c : Context) : Call → Except Error Bytes × Context
  | .serialize t => ((c.serialize t).result, (c.serialize t).state)
  | .close => (.ok c.close.1, c.close.2)

def after (c : Context) (calls : List Call) : Context := calls.foldl (fun c x => (c.call x).2) c

/-- The bytes that the calls return, put together. -/
def sent (c : Context) : List Call → Bytes
  | [] => []
  | x :: calls =>
    (match (c.call x).1 with
      | .ok bytes => bytes
      | .error _ => []) ++ sent (c.call x).2 calls

/-- The trees that are given to the context and not refused. -/
def accepted (c : Context) : List Call → List Tree
  | [] => []
  | .serialize t :: calls =>
    match (c.serialize t).result with
    | .ok _ => t :: accepted (c.serialize t).state calls
    | .error _ => accepted (c.serialize t).state calls
  | .close :: calls => accepted c.close.2 calls

namespace Call

/-- The calls up to the first that closes, which is included. -/
def untilClosed : List Call → List Call
  | [] => []
  | serialize t :: calls => serialize t :: untilClosed calls
  | close :: _ => [close]

/-- The trees that are given before anything is closed. -/
def offered : List Call → List Tree
  | [] => []
  | serialize t :: calls => t :: offered calls
  | close :: _ => []

end Call

/-! ## Open contexts -/

/-- An open context that has begun its stream, the bytes that were sent, and the trees that were
accepted. -/
def Started (mode : RootMode) (c : Context) (taken : Bytes) (ts : List Tree) : Prop :=
  ∃ stream bytes, c = bill stream true false ∧
    (opened mode).Writes ts bytes ⟨stream, taken, ts⟩

/-- How a context answers to one more tree, which the stream of the accepted trees accepts or
refuses as well. -/
inductive Answered (mode : RootMode) (taken : Bytes) (ts : List Tree) (t : Tree)
    (o : Outcome Context Bytes) : Prop
  | accepted {bs : Bytes} (hresult : o.result = .ok bs)
      (hbatch : ((batch mode ts).stream.append t).result = .ok ())
      (hstarted : Started mode o.state (taken ++ bs) (ts ++ [t]))
  | refused {e : Error} (hresult : o.result = .error e)
      (hbatch : ((batch mode ts).stream.append t).result = .error e)
      (hstarted : Started mode o.state taken ts)

theorem Started.answered (h : Started mode c taken ts) (t : Tree) :
    Answered mode taken ts t (c.serialize t) := by
  obtain ⟨stream, bytes, rfl, h⟩ := h
  obtain ⟨hsame, ⟨bytes', hresult, hwrites⟩ | ⟨e, hresult, hstate⟩⟩ := Session.append_cases h t
  · have hstep := hwrites.trans (Session.writes_take _)
    simp only [Session.step, hresult, Stream.takeBytes, List.append_nil] at hstep
    refine .accepted ?_ (hsame ▸ hresult) ⟨_, bytes', ?_, hstep⟩
    · simp only [serialize, serializeBill, if_true, hresult, Stream.takeBytes]
    · simp only [serialize, serializeBill, if_true, hresult, Stream.takeBytes]
  · refine .refused ?_ (hsame ▸ hresult) ⟨stream, bytes, ?_, h⟩
    · simp only [serialize, serializeBill, if_true, hresult]
    · simp only [serialize, serializeBill, if_true, hresult, hstate]

/-- The bytes that go out with the close complete the stream of the accepted trees. -/
theorem Started.close (h : Started mode c taken ts) :
    taken ++ c.close.1 = (endedBatch mode ts).taken ∧
      ∃ stream, c.close.2 = bill stream true true := by
  obtain ⟨stream, bytes, rfl, h⟩ := h
  refine ⟨?_, _, rfl⟩
  rw [(Session.batch_eq h).2.1, ← (Session.begun_opened mode).written, ← h.written]
  simp [Context.close, Session.written, Stream.insertTerminator, Stream.takeBytes]

theorem started_opened (mode : RootMode) :
    Started mode (bill (opened mode).stream true false) [] [] := by
  refine ⟨_, [], rfl, ?_⟩
  cases mode <;> exact .refl _

/-- A new context that is given a tree has begun its stream before. -/
theorem call_new (config : BillConfig) (t : Tree) :
    (ofSerializer (.bill config)).call (.serialize t) =
      (bill (opened config.mode).stream true false).call (.serialize t) := by
  obtain ⟨noRootNode, _⟩ := config
  cases noRootNode <;> rfl

/-! ## Closed contexts -/

variable {isStarted : Bool}

theorem call_closed (x : Call) : (bill stream isStarted true).call x =
    (match x with
      | .serialize _ => .error .contextClosed
      | .close => .ok [], bill stream isStarted true) := by
  cases x <;> rfl

theorem after_closed (calls : List Call) :
    (bill stream isStarted true).after calls = bill stream isStarted true := by
  induction calls with
  | nil => rfl
  | cons x calls ih =>
    rw [after, List.foldl_cons, call_closed]
    exact ih

theorem accepted_closed (calls : List Call) : (bill stream isStarted true).accepted calls = [] := by
  induction calls with
  | nil => rfl
  | cons x calls ih => cases x <;> exact ih

/-! ## Whole runs -/

/-- What holds after any calls, from a context with the bytes and the trees of the calls before. -/
structure Run (mode : RootMode) (c : Context) (taken : Bytes) (ts : List Tree) (calls : List Call) :
    Prop where
  writes : ∃ bytes s, (opened mode).Writes (ts ++ c.accepted calls) bytes s
  isOpen : .close ∉ calls →
    Started mode (c.after calls) (taken ++ c.sent calls) (ts ++ c.accepted calls)
  sent : .close ∈ calls →
    taken ++ c.sent (Call.untilClosed calls) = (endedBatch mode (ts ++ c.accepted calls)).taken
  isClosed : .close ∈ calls → ∃ stream isStarted, c.after calls = bill stream isStarted true

/-- A call that gives a tree, in front of the others. -/
theorem Run.serialize {us : List Tree} {sent : Bytes} {calls : List Call}
    (h : Run mode (c.serialize t).state sent us calls)
    (haccepted : ts ++ c.accepted (.serialize t :: calls) =
      us ++ (c.serialize t).state.accepted calls)
    (hsent : ∀ xs, taken ++ c.sent (.serialize t :: xs) = sent ++ (c.serialize t).state.sent xs) :
    Run mode c taken ts (.serialize t :: calls) := by
  have hmem : Call.close ∈ Call.serialize t :: calls ↔ Call.close ∈ calls := by simp
  refine ⟨haccepted ▸ h.writes, fun hne => ?_, fun hclose => ?_,
    fun hclose => h.isClosed (hmem.1 hclose)⟩
  · rw [haccepted, hsent]
    exact h.isOpen (mt hmem.2 hne)
  · rw [haccepted, Call.untilClosed, hsent]
    exact h.sent (hmem.1 hclose)

theorem Started.run (h : Started mode c taken ts) (calls : List Call) :
    Run mode c taken ts calls := by
  induction calls generalizing c taken ts with
  | nil =>
    have hnone : ts ++ c.accepted [] = ts := List.append_nil ts
    refine ⟨?_, fun _ => ?_, by simp, by simp⟩
    · obtain ⟨stream, bytes, -, h⟩ := h
      exact ⟨bytes, _, hnone.symm ▸ h⟩
    · rw [hnone, Context.sent, List.append_nil]
      exact h
  | cons x calls ih =>
    cases x with
    | close =>
      obtain ⟨hsent, stream, hclosed⟩ := h.close
      have hnone : ts ++ c.accepted (.close :: calls) = ts := by
        rw [Context.accepted, hclosed, accepted_closed, List.append_nil]
      refine ⟨?_, by simp, fun _ => ?_, fun _ => ⟨stream, true, ?_⟩⟩
      · obtain ⟨_, bytes, -, h⟩ := h
        exact ⟨bytes, _, hnone.symm ▸ h⟩
      · rw [hnone, ← hsent]
        simp [Call.untilClosed, Context.sent, call]
      · show c.close.2.after calls = _
        rw [hclosed, after_closed]
    | serialize t =>
      cases h.answered t with
      | accepted hresult _ hstarted =>
        refine (ih hstarted).serialize ?_ fun xs => ?_
        · rw [Context.accepted, hresult, List.append_assoc]
          rfl
        · rw [Context.sent, call, hresult, List.append_assoc]
      | refused hresult _ hstarted =>
        refine (ih hstarted).serialize ?_ fun xs => ?_
        · rw [Context.accepted, hresult]
        · rw [Context.sent, call, hresult]
          rfl

/-- What a context of a stream has done after any calls. -/
structure Batches (config : BillConfig) (calls : List Call) (c : Context) : Prop where
  /-- One stream accepts the same trees if it is given no others, -/
  accepts : (batch config.mode (c.accepted calls)).accepted = c.accepted calls
  /-- and what it writes is a header, their frames, and a terminator. -/
  frames : ∃ frames d,
    Frames config.mode (Dictionary.ofCapacity dictionarySize) (c.accepted calls) frames d ∧
      (endedBatch config.mode (c.accepted calls)).taken =
        header ++ frames ++ Varint.encode terminator
  /-- This is what the calls up to the first close return, if any tree was given at all. -/
  sent : .close ∈ calls → c.sent (Call.untilClosed calls) =
    if Call.offered calls = [] then [] else (endedBatch config.mode (c.accepted calls)).taken
  /-- A tree is refused if that stream refuses it at its end, for the same reason, -/
  refuses : .close ∉ calls → ∀ t e, ((c.after calls).serialize t).result = .error e ↔
    ((batch config.mode (c.accepted calls)).stream.append t).result = .error e
  /-- and always if the context is closed, -/
  refusesClosed : .close ∈ calls → ∀ t, ((c.after calls).serialize t).result =
    .error .contextClosed
  /-- which it is since the first close. -/
  isClosed : (c.after calls).isClosed = true ↔ .close ∈ calls
  close : .close ∈ calls → (c.after calls).close.1 = []

theorem Started.batches {config : BillConfig} (h : Started config.mode c [] [])
    {calls : List Call} (hoffered : .close ∈ calls → Call.offered calls ≠ []) :
    Batches config calls c := by
  obtain ⟨⟨bytes, s, hwrites⟩, hopen, hsent, hclosed⟩ := h.run calls
  simp only [List.nil_append] at hwrites hopen hsent
  obtain ⟨haccepts, htaken, hframes⟩ := Session.batch_eq hwrites
  refine ⟨haccepts, ⟨bytes, _, hframes, htaken⟩, fun hmem => ?_, fun hne t e => ?_,
    fun hmem t => ?_, ?_, fun hmem => ?_⟩
  · rw [if_neg (hoffered hmem)]
    exact hsent hmem
  · cases (hopen hne).answered t with
    | accepted hresult hbatch => simp [hresult, hbatch]
    | refused hresult hbatch => simp [hresult, hbatch]
  · obtain ⟨stream, isStarted, hafter⟩ := hclosed hmem
    rw [hafter]
    rfl
  · by_cases hmem : Call.close ∈ calls
    · obtain ⟨stream, isStarted, hafter⟩ := hclosed hmem
      rw [hafter]
      exact iff_of_true rfl hmem
    · obtain ⟨stream, _, hafter, -⟩ := hopen hmem
      rw [hafter]
      exact iff_of_false Bool.false_ne_true hmem
  · obtain ⟨stream, isStarted, hafter⟩ := hclosed hmem
    rw [hafter]
    rfl

/-! ### Contexts that answer alike to the first tree -/

theorem sent_congr {c' : Context} (h : c.call (.serialize t) = c'.call (.serialize t))
    (calls : List Call) : c.sent (.serialize t :: calls) = c'.sent (.serialize t :: calls) := by
  rw [sent, sent, h]

theorem accepted_congr {c' : Context} (h : c.call (.serialize t) = c'.call (.serialize t))
    (calls : List Call) :
    c.accepted (.serialize t :: calls) = c'.accepted (.serialize t :: calls) := by
  have hresult : (c.serialize t).result = (c'.serialize t).result := congrArg Prod.fst h
  have hstate : (c.serialize t).state = (c'.serialize t).state := congrArg Prod.snd h
  rw [accepted, accepted, hresult, hstate]

theorem Batches.of_call {config : BillConfig} {calls : List Call} {c' : Context}
    (h : Batches config (.serialize t :: calls) c')
    (hcall : c.call (.serialize t) = c'.call (.serialize t)) :
    Batches config (.serialize t :: calls) c := by
  have hstate : (c.serialize t).state = (c'.serialize t).state := congrArg Prod.snd hcall
  have hafter : c.after (.serialize t :: calls) = c'.after (.serialize t :: calls) :=
    congrArg (after · calls) hstate
  have haccepted := accepted_congr hcall calls
  have hsent := sent_congr hcall (Call.untilClosed calls)
  obtain ⟨haccepts, hframes, hbytes, hrefuses, hrefusesClosed, hisClosed, hclose⟩ := h
  rw [← haccepted] at haccepts hframes hbytes hrefuses
  rw [Call.untilClosed, ← hsent] at hbytes
  rw [← hafter] at hrefuses hrefusesClosed hisClosed hclose
  exact ⟨haccepts, hframes, hbytes, hrefuses, hrefusesClosed, hisClosed, hclose⟩

/-! ### New contexts -/

/-- Before any call, a new context answers like one that has begun its stream. -/
theorem batches_nil (config : BillConfig) : Batches config [] (ofSerializer (.bill config)) := by
  have hnone := Session.batch_eq (.refl (opened config.mode))
  have hbatches : Batches config [] _ := (started_opened config.mode).batches (by simp)
  have hnew : ∀ t, ((ofSerializer (.bill config)).serialize t).result =
      ((bill (opened config.mode).stream true false).serialize t).result :=
    fun t => congrArg Prod.fst (call_new config t)
  refine ⟨hnone.1, ⟨[], _, hnone.2.2, hnone.2.1⟩, by simp, fun _ t e => ?_, by simp, ?_, by simp⟩
  · show ((ofSerializer (.bill config)).serialize t).result = .error e ↔ _
    rw [hnew]
    exact hbatches.refuses (by simp) t e
  · exact iff_of_false Bool.false_ne_true (by simp)

/-- A new context that is closed has begun no stream, and sends nothing. -/
theorem batches_close (config : BillConfig) (calls : List Call) :
    Batches config (.close :: calls) (ofSerializer (.bill config)) := by
  have hnone := Session.batch_eq (.refl (opened config.mode))
  obtain ⟨stream, hclosed⟩ : ∃ stream,
      (ofSerializer (.bill config)).close = ([], bill stream false true) := by
    obtain ⟨noRootNode, _⟩ := config
    cases noRootNode <;> exact ⟨_, rfl⟩
  have hafter : (ofSerializer (.bill config)).after (.close :: calls) =
      bill stream false true := by
    show (ofSerializer (.bill config)).close.2.after calls = _
    rw [hclosed, after_closed]
  have haccepted : (ofSerializer (.bill config)).accepted (.close :: calls) = [] := by
    rw [accepted, hclosed, accepted_closed]
  refine ⟨?_, ?_, fun _ => ?_, by simp, fun _ t => ?_, ?_, fun _ => ?_⟩
  · rw [haccepted]
    exact hnone.1
  · rw [haccepted]
    exact ⟨[], _, hnone.2.2, hnone.2.1⟩
  · simp [Call.untilClosed, Call.offered, Context.sent, call, hclosed]
  · rw [hafter]
    rfl
  · rw [hafter]
    exact iff_of_true rfl (.head _)
  · rw [hafter]
    rfl

/-- **A context writes what one stream writes at once**, whatever it was called to do and in
whatever order. -/
theorem calls_write_batch (config : BillConfig) (calls : List Call) :
    Batches config calls (ofSerializer (.bill config)) := by
  cases calls with
  | nil => exact batches_nil config
  | cons x calls =>
    cases x with
    | close => exact batches_close config calls
    | serialize t =>
      have hstarted := started_opened config.mode
      exact (hstarted.batches (by simp [Call.offered])).of_call (call_new config t)

end Context

end SpanTree
