import SpanTree.Command.Run
import SpanTree.Proofs.Frame

/-!
# Streams in use

A `Session` is a stream together with the bytes that were taken from it and the trees that it
accepted. It is run by a list of actions: a beginning, which writes the header and says whether
roots are written (`Setup`), and a body, which appends trees and takes bytes (`Action.Grows`).

Whatever a body does, the bytes written are the `Frames` of the accepted trees. A tree that is
refused leaves no trace.
-/

namespace SpanTree

open Bill

namespace Stream

/-- What is done with a stream. -/
inductive Action
  | header
  | omitRoots
  | append (t : Tree)
  | take
  | terminator
  | resetDictionary
deriving DecidableEq, Repr

/-- Actions of a body, which append only trees with the property. -/
def Action.Grows (P : Tree → Prop) : Action → Prop
  | append t => P t
  | take => True
  | _ => False

variable {s : Stream} {t : Tree} {e : Error} {block : Bytes} {d' : Dictionary}

/-- A tree that is refused leaves the stream as it was. -/
theorem append_of_fails (h : Fails (encodeTree t s.mode) s.dict e d') :
    (s.append t).result = .error e ∧ (s.append t).state = s := by
  have hlearns := (ensures_encodeTree t s.mode s.dict).of_fails h
  have hrun : (encodeTree t s.mode).run.run s.dict = (.error e, d') := h
  unfold append
  rw [hrun]
  exact ⟨rfl, by simp [hlearns.extends.truncate]⟩

theorem append_of_answers (h : Answers (encodeTree t s.mode) s.dict block d') :
    (s.append t).result = .ok () ∧
      (s.append t).state = { s with dict := d', buffer := s.buffer ++ frame t.raw block } := by
  have hrun : (encodeTree t s.mode).run.run s.dict = (.ok block, d') := h
  unfold append
  rw [hrun]
  exact ⟨rfl, rfl⟩

end Stream

/-! ## Frames that are written -/

/-- The frames that trees get one after the other. -/
inductive Frames (mode : RootMode) : Dictionary → List Tree → Bytes → Dictionary → Prop
  | nil {d : Dictionary} : Frames mode d [] [] d
  | cons {d d' d'' : Dictionary} {t : Tree} {ts : List Tree} {block bs : Bytes}
      (h : Answers (encodeTree t mode) d block d') (hrest : Frames mode d' ts bs d'') :
      Frames mode d (t :: ts) (Stream.frame t.raw block ++ bs) d''

variable {mode : RootMode} {d d' d'' : Dictionary} {ts us : List Tree} {bs cs block bytes : Bytes}
  {t : Tree} {root? : Option String}

theorem Frames.append (h : Frames mode d ts bs d') (h' : Frames mode d' us cs d'') :
    Frames mode d (ts ++ us) (bs ++ cs) d'' := by
  induction h with
  | nil => exact h'
  | cons h _ ih =>
    rw [List.append_assoc]
    exact .cons h (ih h')

theorem Frames.single (h : Answers (encodeTree t mode) d block d') :
    Frames mode d [t] (Stream.frame t.raw block) d' := by
  rw [← List.append_nil (Stream.frame t.raw block)]
  exact .cons h .nil

/-- The frames of the first trees come first. -/
theorem Frames.split (h : Frames mode d (ts ++ us) bytes d'') :
    ∃ bs cs d', Frames mode d ts bs d' ∧ Frames mode d' us cs d'' ∧ bytes = bs ++ cs := by
  induction ts generalizing d bytes with
  | nil => exact ⟨[], bytes, d, .nil, h, rfl⟩
  | cons t ts ih =>
    cases h with
    | cons h hrest =>
      obtain ⟨bs, cs, d', hbs, hcs, rfl⟩ := ih hrest
      exact ⟨_, cs, d', .cons h hbs, hcs, (List.append_assoc ..).symm⟩

theorem Frames.unique (h : Frames mode d ts bs d') (h' : Frames mode d ts cs d'') :
    bs = cs ∧ d' = d'' := by
  induction h generalizing cs d'' with
  | nil =>
    cases h'
    exact ⟨rfl, rfl⟩
  | cons h _ ih =>
    cases h' with
    | cons h' hrest =>
      obtain ⟨rfl, rfl⟩ := h.unique h'
      obtain ⟨rfl, rfl⟩ := ih hrest
      exact ⟨rfl, rfl⟩

/-- Frames of trees whose roots are renamed, where roots are not written. -/
theorem frames_readAs : Frames (.ofName root?) d (ts.map (·.readAs root?)) bs d' ↔
    Frames (.ofName root?) d ts bs d' := by
  induction ts generalizing d bs with
  | nil =>
    constructor
    · rintro ⟨⟩
      exact .nil
    · rintro ⟨⟩
      exact .nil
  | cons t ts ih =>
    constructor
    · rintro (_ | ⟨h, hrest⟩)
      rw [encodeTree_readAs] at h
      rw [Tree.raw_readAs]
      exact .cons h (ih.1 hrest)
    · rintro (_ | ⟨h, hrest⟩)
      rw [← encodeTree_readAs] at h
      have hcons := Frames.cons h (ih.2 hrest)
      rwa [Tree.raw_readAs] at hcons

theorem Frames.learns (h : Frames mode d ts bs d') : d.Learns d' := by
  induction h with
  | nil => exact .refl _
  | cons h _ ih => exact ((ensures_encodeTree _ _ _).of_answers h).trans ih

/-! ## Runs -/

/-- A stream in use, the bytes taken from it so far, and the trees that it accepted. -/
structure Session where
  stream : Stream
  taken : Bytes
  accepted : List Tree

namespace Session

open SpanTree.Stream (Action)

/-- A new stream. -/
def fresh : Session := ⟨Stream.empty, [], []⟩

def step (s : Session) : Action → Session
  | .header => { s with stream := s.stream.insertHeader }
  | .omitRoots => { s with stream := s.stream.omitRoots }
  | .append t =>
    let o := s.stream.append t
    match o.result with
    | .ok () => { s with stream := o.state, accepted := s.accepted ++ [t] }
    | .error _ => { s with stream := o.state }
  | .take =>
    let (bytes, stream) := s.stream.takeBytes
    { s with stream := stream, taken := s.taken ++ bytes }
  | .terminator => { s with stream := s.stream.insertTerminator }
  | .resetDictionary => { s with stream := s.stream.resetDictionary }

def run (s : Session) (actions : List Action) : Session := actions.foldl step s

/-- All bytes written so far, taken or not. -/
def written (s : Session) : Bytes := s.taken ++ s.stream.buffer

variable {s s' : Session} {action : Action} {actions setup body : List Action} {P : Tree → Prop}

@[simp] theorem run_nil : s.run [] = s := rfl

@[simp] theorem run_cons : s.run (action :: actions) = (s.step action).run actions := rfl

theorem run_append (s : Session) (as bs : List Action) :
    s.run (as ++ bs) = (s.run as).run bs := List.foldl_append

/-- What an action does to the dictionary keeps its names within indices. -/
theorem indexable_step (hs : s.stream.dict.Indexable) (action : Action) :
    (s.step action).stream.dict.Indexable := by
  cases action with
  | header | resetDictionary => exact hs.reset
  | omitRoots | take | terminator => exact hs
  | append t =>
    cases hrun : outcome (encodeTree t s.stream.mode) s.stream.dict with
    | mk result d' =>
      cases result with
      | ok block =>
        obtain ⟨hresult, hstate⟩ := Stream.append_of_answers hrun
        have hd' := ((ensures_encodeTree _ _ _).of_answers hrun).indexable hs
        simpa only [step, hresult, hstate] using hd'
      | error e =>
        obtain ⟨hresult, hstate⟩ := Stream.append_of_fails hrun
        simpa only [step, hresult, hstate] using hs

/-- A stream never knows more names than indices have room for. -/
theorem indexable_run (hs : s.stream.dict.Indexable) (actions : List Action) :
    (s.run actions).stream.dict.Indexable := by
  induction actions generalizing s with
  | nil => exact hs
  | cons action actions ih => exact ih (indexable_step hs action)

theorem indexable_fresh_run (actions : List Action) :
    (fresh.run actions).stream.dict.Indexable :=
  indexable_run (s := fresh) Dictionary.indexable_ofCapacity actions

/-! ### The beginning -/

/-- Actions that begin a stream: one header, and whether roots are written. -/
structure Setup (mode : RootMode) (setup : List Action) : Prop where
  only : ∀ action ∈ setup, action = .header ∨ action = .omitRoots ∨ action = .take
  header : setup.count .header = 1
  mode : mode = .omitted ↔ Action.omitRoots ∈ setup

theorem setup_header : Setup .written [.header] := ⟨by simp, by decide, by simp⟩

/-- What stands at the beginning of a body: a header, and nothing known yet. -/
structure Begun (mode : RootMode) (s : Session) : Prop where
  written : s.written = Bill.header
  dict : s.stream.dict = Dictionary.ofCapacity dictionarySize
  mode : s.stream.mode = mode
  accepted : s.accepted = []

/-- One action of a beginning, whatever went before. -/
theorem step_setup (h : action = .header ∨ action = .omitRoots ∨ action = .take)
    (hdict : s.stream.dict = Dictionary.ofCapacity dictionarySize) :
    (s.step action).stream.dict = Dictionary.ofCapacity dictionarySize ∧
      (s.step action).accepted = s.accepted ∧
      (s.step action).written = s.written ++ (if action = .header then Bill.header else []) ∧
      (s.step action).stream.mode = if action = .omitRoots then .omitted else s.stream.mode := by
  rcases h with rfl | rfl | rfl
  · simp [step, Stream.insertHeader, written, hdict, Dictionary.reset, Dictionary.ofCapacity]
  · simp [step, Stream.omitRoots, written, hdict]
  · simp [step, Stream.takeBytes, written, hdict]

theorem run_setup (h : ∀ action ∈ setup, action = .header ∨ action = .omitRoots ∨ action = .take)
    (hdict : s.stream.dict = Dictionary.ofCapacity dictionarySize) :
    (s.run setup).stream.dict = Dictionary.ofCapacity dictionarySize ∧
      (s.run setup).accepted = s.accepted ∧
      (s.run setup).written =
        s.written ++ (List.replicate (setup.count .header) Bill.header).flatten ∧
      (s.run setup).stream.mode = if Action.omitRoots ∈ setup then .omitted else s.stream.mode := by
  induction setup generalizing s with
  | nil => simp [hdict]
  | cons action setup ih =>
    obtain ⟨hdict', haccepted, hwritten, hmode⟩ := step_setup (h action (.head _)) hdict
    obtain ⟨hdict'', haccepted', hwritten', hmode'⟩ := ih (fun a ha => h a (.tail _ ha)) hdict'
    refine ⟨hdict'', haccepted'.trans haccepted, ?_, ?_⟩
    · rw [run_cons, hwritten', hwritten, List.append_assoc]
      by_cases hheader : action = .header
      · simp [hheader, List.replicate_succ]
      · simp [hheader]
    · rw [run_cons, hmode', hmode]
      by_cases homit : action = .omitRoots
      · simp [homit]
      · simp [homit, Ne.symm homit]

theorem Setup.begun (h : Setup mode setup) : Begun mode (fresh.run setup) := by
  obtain ⟨hdict, haccepted, hwritten, hmode⟩ := run_setup (s := fresh) h.only rfl
  refine ⟨?_, hdict, ?_, haccepted⟩
  · rw [hwritten, h.header]
    simp [written, fresh, Stream.empty]
  · rw [hmode]
    split
    · next homit => exact (h.mode.2 homit).symm
    · next homit =>
      cases mode with
      | written => rfl
      | omitted => exact absurd (h.mode.1 rfl) homit

/-! ### The body -/

/-- From one session to another, these trees were accepted and these frames written. -/
structure Writes (s : Session) (us : List Tree) (bytes : Bytes) (s' : Session) : Prop where
  accepted : s'.accepted = s.accepted ++ us
  written : s'.written = s.written ++ bytes
  mode : s'.stream.mode = s.stream.mode
  frames : Frames s.stream.mode s.stream.dict us bytes s'.stream.dict

theorem Writes.refl (s : Session) : s.Writes [] [] s :=
  ⟨(List.append_nil _).symm, (List.append_nil _).symm, rfl, .nil⟩

theorem Writes.trans {s'' : Session} (h : s.Writes ts bs s') (h' : s'.Writes us cs s'') :
    s.Writes (ts ++ us) (bs ++ cs) s'' := by
  refine ⟨?_, ?_, h'.mode.trans h.mode, ?_⟩
  · rw [h'.accepted, h.accepted, List.append_assoc]
  · rw [h'.written, h.written, List.append_assoc]
  · have hframes := h'.frames
    rw [h.mode] at hframes
    exact h.frames.append hframes

theorem step_append_of_answers
    (h : Answers (encodeTree t s.stream.mode) s.stream.dict block d') :
    s.Writes [t] (Stream.frame t.raw block) (s.step (.append t)) := by
  obtain ⟨hresult, hstate⟩ := Stream.append_of_answers h
  have hstep : s.step (.append t) = ⟨{ s.stream with
      dict := d', buffer := s.stream.buffer ++ Stream.frame t.raw block }, s.taken,
      s.accepted ++ [t]⟩ := by
    simp only [step, hresult, hstate]
  rw [hstep]
  exact ⟨rfl, (List.append_assoc ..).symm, rfl, .single h⟩

/-- One action of a body. -/
theorem step_grows (h : action.Grows P) :
    ∃ us bytes, s.Writes us bytes (s.step action) ∧ ∀ t ∈ us, P t := by
  cases action with
  | append t =>
    cases hrun : outcome (encodeTree t s.stream.mode) s.stream.dict with
    | mk result d' =>
      cases result with
      | ok block =>
        exact ⟨[t], _, step_append_of_answers hrun, fun u hu => List.mem_singleton.1 hu ▸ h⟩
      | error e =>
        obtain ⟨hresult, hstate⟩ := Stream.append_of_fails hrun
        have hstep : s.step (.append t) = s := by simp only [step, hresult, hstate]
        rw [hstep]
        exact ⟨[], [], .refl s, by simp⟩
  | take =>
    refine ⟨[], [], ⟨(List.append_nil _).symm, ?_, rfl, .nil⟩, by simp⟩
    simp [step, Stream.takeBytes, written]
  | header | omitRoots | terminator | resetDictionary => exact h.elim

/-- A whole body. -/
theorem run_grows (h : ∀ action ∈ body, action.Grows P) :
    ∃ us bytes, s.Writes us bytes (s.run body) ∧ ∀ t ∈ us, P t := by
  induction body generalizing s with
  | nil => exact ⟨[], [], .refl s, by simp⟩
  | cons action body ih =>
    obtain ⟨us, bs, hstep, hus⟩ := step_grows (s := s) (h action (.head _))
    obtain ⟨us', cs, hrun, hus'⟩ := ih (s := s.step action) fun a ha => h a (.tail _ ha)
    refine ⟨us ++ us', bs ++ cs, hstep.trans hrun, ?_⟩
    intro t ht
    rcases List.mem_append.1 ht with ht | ht
    · exact hus t ht
    · exact hus' t ht

/-- Trees whose frames there are, appended one after the other. -/
theorem run_frames (hmode : s.stream.mode = mode) (hdict : s.stream.dict = d)
    (h : Frames mode d us bytes d') : s.Writes us bytes (s.run (us.map .append)) := by
  induction h generalizing s with
  | nil => exact .refl s
  | cons h _ ih =>
    rw [← hmode, ← hdict] at h
    have hstep := step_append_of_answers h
    have hdict' := (hstep.frames.unique (.single h)).2
    exact hstep.trans (ih (hstep.mode.trans hmode) hdict')

end Session

end SpanTree
