import SpanTree.Proofs.Growth
import SpanTree.Proofs.Session

/-!
# Reading back what was written

A stream that is begun with a header, to which trees are appended, and which is ended by the
terminator, is read as the trees that it accepted (`reads_back`). The names of reader and writer
grow alike, frame by frame, since both follow `FrameForm`.

Lengths in a stream are numbers of 64 bits, the last of which ends it. So what is written is read
back as long as its own length is such a number.
-/

namespace SpanTree

open Bill
open SpanTree.Stream (Action)

variable {d d' : Dictionary} {root? : Option String} {t : Tree} {ts : List Tree}
  {block bytes data : Bytes} {r r' : Reader}

/-! ## Frames written and frames read -/

theorem length_le_frame (raw block : Bytes) :
    raw.length < (Stream.frame raw block).length ∧
      block.length < (Stream.frame raw block).length := by
  have hraw := Varint.length_encode_mono (Nat.zero_le raw.length)
  have hone : (Varint.encode 0).length = 1 := by rw [Varint.encode]; rfl
  simp only [Stream.frame, List.length_append]
  omega

/-- What is written for a tree without nameless nodes is read as this tree. -/
theorem form_of_frame (h : Answers (encodeTree t (.ofName root?)) d block d')
    (ht : t.WellFormed) (hnamed : t.NamedBelowRoot)
    (hsize : (Stream.frame t.raw block).length ≤ terminator) :
    FrameForm d root? (Stream.frame t.raw block) (t.readAs root?) d' := by
  obtain ⟨hraw, hblock⟩ := length_le_frame t.raw block
  have hform := form_of_encodeTree h ht hnamed
  have hvalid : (t.readAs root?).isValid = true := by rw [Tree.isValid_readAs, ht.isValid]
  have heq : t.readAs root? = ⟨(t.readAs root?).root, t.raw⟩ := by
    cases root? <;> rfl
  rw [heq] at hvalid ⊢
  have hframe := FrameForm.mk (Varint.form_encode_of_le (by omega)) (by omega)
    (Varint.form_encode_of_le (v := block.length) (by omega)) hform hvalid
  simpa [Stream.frame] using hframe

theorem forms_of_frames (h : Frames (.ofName root?) d ts bytes d')
    (hts : ∀ t ∈ ts, t.WellFormed ∧ t.NamedBelowRoot)
    (hsize : bytes.length ≤ terminator) :
    FramesForm root? d bytes (ts.map (·.readAs root?)) d' := by
  induction h with
  | nil => exact .nil
  | @cons d d₁ _ t ts block bs h _ ih =>
    rw [List.length_append] at hsize
    obtain ⟨ht, hnamed⟩ := hts t (.head _)
    refine .cons (form_of_frame h ht hnamed (by omega)) ?_
    exact ih (fun u hu => hts u (.tail _ hu)) (by omega)

/-! ## Opening a stream -/

/-- A reader behind the header. -/
def Reader.opened (data : Bytes) (root? : Option String) : Reader :=
  ⟨data.length, header.length, data.drop header.length, Dictionary.ofCapacity dictionarySize,
    root?, false⟩

theorem checkHeader_eq_ok : checkHeader data = .ok () ↔ ∃ rest, data = header ++ rest := by
  constructor
  · intro h
    unfold checkHeader at h
    split at h
    · next b i l l' hi lo rest =>
      split at h
      · cases h
      · next hmagic =>
        split at h
        · cases h
        · next hversion =>
          have hlo := lo.toNat_lt
          simp only [version] at hversion
          have hhi : hi = 0 := UInt8.toNat_inj.1 (by simp; omega)
          have hlo : lo = 1 := UInt8.toNat_inj.1 (by simp; omega)
          refine ⟨rest, ?_⟩
          rw [header, ← Decidable.not_not.1 hmagic, hhi, hlo]
          rfl
    · cases h
  · rintro ⟨rest, rfl⟩
    rfl

theorem openReader_eq_ok : Command.openReader data root? = .ok r ↔
    (∃ rest, data = header ++ rest) ∧ (∀ name ∈ root?, Name.isNode name = true) ∧
      Reader.opened data root? = r := by
  unfold Command.openReader Reader.ofBytes
  rw [← checkHeader_eq_ok]
  cases checkHeader data with
  | error e => simp [bind, Except.bind]
  | ok _ =>
    cases root? with
    | none => simp [bind, Except.bind, pure, Except.pure, Reader.opened]
    | some name =>
      simp only [bind, Except.bind, Reader.withRootName]
      split
      · next hname => simp [hname, Reader.opened]
      · next hname => simp [hname]

theorem Reader.opened_consistent {rest : Bytes} (h : data = header ++ rest) :
    (opened data root?).Consistent := by
  subst h
  simp [opened, Consistent]

/-! ## Reading to the end -/

/-- Reading gives these trees, without an error, and then comes to nothing. -/
def Reader.ReadsAll (r : Reader) (ts : List Tree) (r' : Reader) : Prop :=
  r.Yields ts r' ∧ r'.next.result = .ok none

/-- Behind its header a stream is read along its frames. -/
theorem yields_of_forms {rest : Bytes} (hroot : ∀ name ∈ root?, Name.isNode name = true)
    (h : FramesForm root? (Dictionary.ofCapacity dictionarySize) bytes ts d')
    (hdata : data = header ++ (bytes ++ rest)) :
    Command.openReader data root? = .ok (.opened data root?) ∧
      (Reader.opened data root?).Yields ts
        ⟨data.length, header.length + bytes.length, rest, d', root?, false⟩ := by
  refine ⟨openReader_eq_ok.2 ⟨⟨_, hdata⟩, hroot, rfl⟩, ?_⟩
  refine (Reader.yields_iff (Reader.opened_consistent hdata) rfl).2
    ⟨bytes, h, ?_, rfl, rfl, rfl, rfl⟩
  rw [Reader.opened, hdata, List.drop_left]

/-- A reader in front of the terminator finishes behind it. -/
theorem Reader.next_at_terminator (hr : r.Consistent) (hfinished : r.isFinished = false)
    (hrest : r.rest = Varint.encode terminator) :
    r.next.result = .ok none ∧ r.next.state.isFinished = true ∧ r.next.state.position = r.size := by
  have hform := Varint.form_encode_of_le (Nat.le_refl terminator)
  rw [← List.append_nil (Varint.encode terminator)] at hrest
  obtain ⟨hresult, hstate⟩ := next_of_terminator hr hfinished hform hrest
  refine ⟨hresult, by rw [hstate], ?_⟩
  rw [hstate, ← hr, hrest, List.append_nil]
  rfl

/-- Frames up to the end of the data or up to the terminator are read to the end. -/
theorem readsAll_of_forms {rest : Bytes} (hroot : ∀ name ∈ root?, Name.isNode name = true)
    (h : FramesForm root? (Dictionary.ofCapacity dictionarySize) bytes ts d')
    (hdata : data = header ++ (bytes ++ rest))
    (hrest : rest = [] ∨ rest = Varint.encode terminator) :
    ∃ r', (Reader.opened data root?).ReadsAll ts r' ∧ r'.next.state.position = data.length ∧
      (rest ≠ [] → r'.next.state.isFinished = true) := by
  have hlen := congrArg List.length hdata
  simp only [List.length_append] at hlen
  have hyields := (yields_of_forms hroot h hdata).2
  have hr : Reader.Consistent
      ⟨data.length, header.length + bytes.length, rest, d', root?, false⟩ := by
    simp only [Reader.Consistent]
    omega
  rcases hrest with rfl | rfl
  · obtain ⟨hresult, hstate⟩ := Reader.next_of_nil hr rfl
    refine ⟨_, ⟨hyields, hresult⟩, ?_, fun hne => absurd rfl hne⟩
    rw [hstate]
    show header.length + bytes.length = data.length
    rw [List.length_nil] at hlen
    omega
  · obtain ⟨hresult, hfinished, hposition⟩ := Reader.next_at_terminator hr rfl rfl
    exact ⟨_, ⟨hyields, hresult⟩, hposition, fun _ => hfinished⟩

namespace Session

variable {s : Session} {setup body : List Action}

/-- A whole stream, ended by the terminator and taken to the last byte. -/
def whole (setup body : List Action) : Session :=
  fresh.run (setup ++ body ++ [.terminator, .take])

theorem whole_eq (setup body : List Action) :
    (whole setup body).taken = (fresh.run (setup ++ body)).written ++ Varint.encode terminator ∧
      (whole setup body).accepted = (fresh.run (setup ++ body)).accepted := by
  rw [whole, run_append]
  simp [step, Stream.insertTerminator, Stream.takeBytes, written]

/-- The bytes and the trees of a body that follows a beginning. -/
theorem run_body {P : Tree → Prop} {mode : RootMode} (hsetup : Setup mode setup)
    (hbody : ∀ action ∈ body, action.Grows P) :
    ∃ bytes, (fresh.run (setup ++ body)).written = header ++ bytes ∧
      Frames mode (Dictionary.ofCapacity dictionarySize) (fresh.run (setup ++ body)).accepted bytes
        (fresh.run (setup ++ body)).stream.dict ∧
      ∀ t ∈ (fresh.run (setup ++ body)).accepted, P t := by
  have hbegun := hsetup.begun
  obtain ⟨us, bytes, hwrites, hus⟩ := run_grows (s := fresh.run setup) hbody
  have haccepted := hwrites.accepted
  have hframes := hwrites.frames
  rw [hbegun.accepted, List.nil_append] at haccepted
  rw [hbegun.mode, hbegun.dict] at hframes
  rw [run_append, haccepted]
  exact ⟨bytes, by rw [hwrites.written, hbegun.written], hframes, hus⟩

/-- The bytes of a whole stream, as they are written and as they are read. -/
theorem forms_of_whole (hsetup : Setup (.ofName root?) setup)
    (hbody : ∀ action ∈ body, action.Grows fun t => t.Made ∧ t.NamedBelowRoot)
    (hsize : (whole setup body).taken.length ≤ terminator) :
    ∃ bytes d', (whole setup body).taken = header ++ (bytes ++ Varint.encode terminator) ∧
      Frames (.ofName root?) (Dictionary.ofCapacity dictionarySize) (whole setup body).accepted
        bytes d' ∧
      FramesForm root? (Dictionary.ofCapacity dictionarySize) bytes
        ((whole setup body).accepted.map (·.readAs root?)) d' := by
  obtain ⟨bytes, hwritten, hframes, hts⟩ := run_body hsetup hbody
  obtain ⟨htaken, haccepted⟩ := whole_eq setup body
  rw [hwritten, List.append_assoc] at htaken
  have hlen := congrArg List.length htaken
  simp only [List.length_append] at hlen
  rw [haccepted]
  refine ⟨bytes, _, htaken, hframes, ?_⟩
  exact forms_of_frames hframes
    (fun t ht => ⟨(hts t ht).1.wellFormed, (hts t ht).2⟩) (by omega)

/-- **What was written is read back.** A stream is begun, trees are appended that can be made and of
which only the root may be nameless, bytes are taken in between, and the stream is ended. Then
reading gives exactly the trees that were accepted, in their order, with the root's name from the
reader where roots are not written; and it ends at the terminator, behind which there is nothing. -/
theorem reads_back (hroot : ∀ name ∈ root?, Name.isNode name = true)
    (hsetup : Setup (.ofName root?) setup)
    (hbody : ∀ action ∈ body, action.Grows fun t => t.Made ∧ t.NamedBelowRoot)
    (hsize : (whole setup body).taken.length ≤ terminator) :
    ∃ r r', Command.openReader (whole setup body).taken root? = .ok r ∧
      r.ReadsAll ((whole setup body).accepted.map (·.readAs root?)) r' ∧
      r'.next.state.isFinished = true ∧
      r'.next.state.position = (whole setup body).taken.length := by
  obtain ⟨bytes, d', htaken, -, hforms⟩ := forms_of_whole hsetup hbody hsize
  obtain ⟨r', hreads, hposition, hfinished⟩ := readsAll_of_forms hroot hforms htaken (.inr rfl)
  refine ⟨_, r', openReader_eq_ok.2 ⟨⟨_, htaken⟩, hroot, rfl⟩, hreads, hfinished ?_, hposition⟩
  decide +kernel

/-- A text with one child, in a stream whose roots are not written and are called `flow`. -/
theorem reads_back_one_child :
    let s := whole [.omitRoots, .header]
      [.append ⟨⟨"$", 0, 2, [⟨"a", 0, 2, []⟩]⟩, [104, 105]⟩, .take]
    s.accepted = [⟨⟨"$", 0, 2, [⟨"a", 0, 2, []⟩]⟩, [104, 105]⟩] ∧
      ∃ r r', Command.openReader s.taken (some "flow") = .ok r ∧
        r.ReadsAll (s.accepted.map (·.readAs (some "flow"))) r' ∧
        r'.next.state.isFinished = true ∧ r'.next.state.position = s.taken.length := by
  have hmade : Tree.Made ⟨⟨"$", 0, 2, [⟨"a", 0, 2, []⟩]⟩, [104, 105]⟩ :=
    .push (@Tree.Made.named "$" _ rfl) (.appendBytes (@Tree.Made.named "a" _ rfl) [104, 105])
  refine ⟨by decide +kernel, reads_back ?_ ?_ ?_ ?_⟩
  · decide
  · exact ⟨by simp, by decide, by simp [RootMode.ofName]⟩
  · intro action haction
    simp only [List.mem_cons, List.not_mem_nil, or_false] at haction
    rcases haction with rfl | rfl
    · exact ⟨hmade, by simp [Tree.NamedBelowRoot, Node.AllNamesIn, Node.AllNames]⟩
    · trivial
  · decide +kernel

end Session

end SpanTree
