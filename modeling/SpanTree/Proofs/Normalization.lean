import SpanTree.Proofs.RoundTrip

/-!
# Writing again what was read

A stream may be written in many ways: its numbers need not be short, its spans need not be narrow,
and a name may be spelled out although it is known. Whoever wrote it, if a reader comes to its end
without an error, then the trees can be written again, in no more bytes, and what is written is read
as the same trees (`reencoding_normalizes`). What a stream itself has written is already in this
form.

The frames that are read and those that are written learn the same names one by one
(`reencode_frames`), so both go on from the same dictionary.
-/

namespace SpanTree

open Bill
open SpanTree.Stream (Action)

variable {d d' : Dictionary} {root? : Option String} {bytes data : Bytes} {t : Tree}
  {ts us : List Tree} {r r' r'' : Reader}

/-! ## Frames -/

theorem ne_empty_of_isNode {name : String} (h : Name.isNode name = true) : name ≠ "" := by
  rintro rfl
  exact absurd h (by decide)

theorem FrameForm.readAs (h : FrameForm d root? bytes t d') : t.readAs root? = t := by
  cases h with
  | mk _ _ _ hform =>
    cases hform with
    | written => rfl
    | omitted => rfl

theorem FrameForm.wellFormed (h : FrameForm d root? bytes t d')
    (hroot : ∀ name ∈ root?, Name.isNode name = true) : t.WellFormed ∧ t.NamedBelowRoot := by
  have hvalid := h.isValid
  cases h with
  | mk _ _ _ hform =>
    have hnames := hform.allNames hroot
    exact ⟨⟨hvalid, hnames.mono fun _ => .inr⟩,
      (Node.allNames_iff.1 hnames).2.mono fun _ => ne_empty_of_isNode⟩

/-- A frame that is read can be written again, no longer, and is read as the same tree. -/
theorem reencode_frame (h : FrameForm d root? bytes t d') (hd : d.Indexable)
    (hroot : ∀ name ∈ root?, Name.isNode name = true) :
    ∃ block, Answers (encodeTree t (.ofName root?)) d block d' ∧
      FrameForm d root? (Stream.frame t.raw block) t d' ∧
      (Stream.frame t.raw block).length ≤ bytes.length := by
  obtain ⟨ht, hnamed⟩ := h.wellFormed hroot
  have hreadAs := h.readAs
  cases h with
  | @mk as bs block raw root _ hraw hend hblock hform hvalid =>
    obtain ⟨block', hencode, hle⟩ := encodeTree_of_form hform hd hvalid
    have hform' := form_of_encodeTree hencode ht hnamed
    rw [hreadAs] at hform'
    have hraw' := Varint.length_encode_le hraw
    have hblock' := Varint.length_encode_le hblock
    have hmono := Varint.length_encode_mono hle
    have hmax := hblock.le_terminator
    refine ⟨block', hencode, ?_, ?_⟩
    · have hframe := FrameForm.mk (Varint.form_encode_of_le hraw.le_terminator) hend
        (Varint.form_encode_of_le (Nat.le_trans hle hmax)) hform' hvalid
      simpa [Stream.frame] using hframe
    · simp only [Stream.frame, List.length_append]
      omega

theorem reencode_frames (h : FramesForm root? d bytes ts d') (hd : d.Indexable)
    (hroot : ∀ name ∈ root?, Name.isNode name = true) :
    ∃ cs, Frames (.ofName root?) d ts cs d' ∧ FramesForm root? d cs ts d' ∧
      cs.length ≤ bytes.length := by
  induction h with
  | nil => exact ⟨[], .nil, .nil, Nat.le_refl _⟩
  | @cons d d₁ _ bs _ t ts hform _ ih =>
    obtain ⟨block, hencode, hframe, hle⟩ := reencode_frame hform hd hroot
    obtain ⟨cs, hframes, hforms, hle'⟩ := ih (hform.learns.indexable hd)
    refine ⟨_, .cons hencode hframes, .cons hframe hforms, ?_⟩
    simp only [List.length_append]
    omega

/-! ## Streams -/

theorem Reader.ReadsAll.unique (h : r.ReadsAll ts r') (h' : r.ReadsAll us r'') :
    ts = us ∧ r' = r'' := by
  obtain ⟨hyields, hend⟩ := h
  obtain ⟨hyields', hend'⟩ := h'
  induction hyields generalizing us with
  | nil =>
    cases hyields' with
    | nil => exact ⟨rfl, rfl⟩
    | cons hsome _ =>
      rw [hend] at hsome
      cases hsome
  | cons hsome _ ih =>
    cases hyields' with
    | nil =>
      rw [hend'] at hsome
      cases hsome
    | cons hsome' hrest =>
      rw [hsome] at hsome'
      cases hsome'
      obtain ⟨rfl, rfl⟩ := ih hend hrest
      exact ⟨rfl, rfl⟩

/-- A stream that is read to the end consists of its header and of frames, up to where the reader
came to nothing. -/
theorem forms_of_readsAll {rest : Bytes} (hdata : data = header ++ rest)
    (h : (Reader.opened data root?).ReadsAll ts r') :
    ∃ bytes d', FramesForm root? (Dictionary.ofCapacity dictionarySize) bytes ts d' ∧
      r'.position = header.length + bytes.length := by
  obtain ⟨bytes, hforms, hpass⟩ := (Reader.yields_iff (Reader.opened_consistent hdata) rfl).1 h.1
  exact ⟨bytes, _, hforms, hpass.position_eq⟩

namespace Session

variable {setup body : List Action}

/-- The stream to which these trees are appended, one after the other. -/
def reencoded (setup : List Action) (ts : List Tree) : Session :=
  fresh.run (setup ++ ts.map .append)

theorem reencoded_of_frames {mode : RootMode} (hsetup : Setup mode setup)
    (h : Frames mode (Dictionary.ofCapacity dictionarySize) ts bytes d') :
    (reencoded setup ts).accepted = ts ∧ (reencoded setup ts).written = header ++ bytes := by
  have hbegun := hsetup.begun
  have hwrites := run_frames hbegun.mode hbegun.dict h
  rw [reencoded, run_append]
  exact ⟨by rw [hwrites.accepted, hbegun.accepted, List.nil_append],
    by rw [hwrites.written, hbegun.written]⟩

/-- **Writing again what was read normalizes it.** Whatever data is opened and read to the end
without an error: appending the trees to a new stream of the same mode never fails; it writes no
more bytes than the header and the frames that were read; what it writes, terminated or not, is read
as the same trees; and writing these again gives the same bytes. What was written by a stream, begun
once and ended, is given back byte for byte. -/
theorem reencoding_normalizes :
    (∀ (data : Bytes) (root? : Option String) (r r' : Reader) (ts : List Tree)
        (setup : List Action),
      Command.openReader data root? = .ok r → r.ReadsAll ts r' → Setup (.ofName root?) setup →
      (reencoded setup ts).accepted = ts ∧
      (reencoded setup ts).written.length ≤ r'.position ∧
      ∀ rest, rest = [] ∨ rest = Varint.encode terminator →
        ∃ q q', Command.openReader ((reencoded setup ts).written ++ rest) root? = .ok q ∧
          q.ReadsAll ts q' ∧
          ∀ us q'' setup', q.ReadsAll us q'' → Setup (.ofName root?) setup' →
            (reencoded setup' us).written = (reencoded setup ts).written) ∧
    ∀ (root? : Option String) (setup body : List Action),
      (∀ name ∈ root?, Name.isNode name = true) → Setup (.ofName root?) setup →
      (∀ action ∈ body, action.Grows fun t => t.Made ∧ t.NamedBelowRoot) →
      (whole setup body).taken.length ≤ terminator →
      ∃ r ts r', Command.openReader (whole setup body).taken root? = .ok r ∧ r.ReadsAll ts r' ∧
        ∀ setup', Setup (.ofName root?) setup' →
          (whole setup' (ts.map .append)).taken = (whole setup body).taken := by
  constructor
  · intro data root? r r' ts setup hopen hreads hsetup
    obtain ⟨⟨rest, hdata⟩, hroot, rfl⟩ := openReader_eq_ok.1 hopen
    obtain ⟨bytes, d', hforms, hposition⟩ := forms_of_readsAll hdata hreads
    obtain ⟨cs, hframes, hforms', hle⟩ := reencode_frames hforms Dictionary.indexable_ofCapacity hroot
    obtain ⟨haccepted, hwritten⟩ := reencoded_of_frames hsetup hframes
    refine ⟨haccepted, ?_, ?_⟩
    · rw [hwritten, hposition, List.length_append]
      omega
    · intro rest' hrest'
      rw [hwritten, List.append_assoc]
      obtain ⟨q', hreads', -, -⟩ := readsAll_of_forms hroot hforms' rfl hrest'
      refine ⟨_, q', openReader_eq_ok.2 ⟨⟨_, rfl⟩, hroot, rfl⟩, hreads', ?_⟩
      intro us q'' setup' hagain hsetup'
      obtain ⟨rfl, -⟩ := hagain.unique hreads'
      exact (reencoded_of_frames hsetup' hframes).2
  · intro root? setup body hroot hsetup hbody hsize
    obtain ⟨bytes, d', htaken, hframes, hforms⟩ := forms_of_whole hsetup hbody hsize
    obtain ⟨r', hreads, -, -⟩ := readsAll_of_forms hroot hforms htaken (.inr rfl)
    refine ⟨_, _, r', openReader_eq_ok.2 ⟨⟨_, htaken⟩, hroot, rfl⟩, hreads, ?_⟩
    intro setup' hsetup'
    have hagain := (reencoded_of_frames hsetup' (frames_readAs.2 hframes)).2
    rw [(whole_eq setup' _).1, htaken, ← List.append_assoc, ← hagain]
    rfl

/-- A frame with a long number, a wide span and nothing in it, and the stream that it becomes. -/
theorem reencoding_normalizes_wide :
    let data := header ++ [0x80, 0x00, 0x07, 0x41, 0x00, 0x24, 0xC0, 0x00, 0x00, 0x00]
    let t : Tree := ⟨⟨"$", 0, 0, []⟩, []⟩
    ((Reader.opened data none).Yields [t] (Reader.opened data none).next.state ∧
      (reencoded [.header] [t]).accepted = [t] ∧
      (reencoded [.header] [t]).written.length ≤ data.length) ∧
    ∃ r ts r', Command.openReader (whole [.header] [.append t]).taken none = .ok r ∧
      r.ReadsAll ts r' ∧
      (whole [.header] (ts.map .append)).taken = (whole [.header] [.append t]).taken := by
  intro data t
  have hsetup : Setup (.ofName none) [.header] := ⟨by simp, by decide, by simp [RootMode.ofName]⟩
  have hyields : (Reader.opened data none).Yields [t] (Reader.opened data none).next.state :=
    .cons rfl .nil
  have hmade : t.Made := @Tree.Made.named "$" _ rfl
  obtain ⟨haccepted, hle, -⟩ := reencoding_normalizes.1 data none (.opened data none) _ [t]
    [.header]
    (openReader_eq_ok.2 ⟨⟨_, rfl⟩, by simp, rfl⟩) ⟨hyields, rfl⟩ hsetup
  refine ⟨⟨hyields, haccepted, Nat.le_trans hle (by decide +kernel)⟩, ?_⟩
  obtain ⟨r, ts, r', hopen, hreads, hagain⟩ := reencoding_normalizes.2 none [.header] [.append t]
    (by simp) hsetup (by simpa [Action.Grows] using ⟨hmade, trivial⟩) (by decide +kernel)
  exact ⟨r, ts, r', hopen, hreads, hagain _ hsetup⟩

end Session

end SpanTree
