import Mathlib.Data.List.Forall2
import Mathlib.Data.List.TakeWhile
import SpanTree.Proofs.Pieces
import SpanTree.Proofs.Records

/-!
# The format of record files

What a text means is said without the reader: `Means` relates a text to its lines, each blank, a
comment or an entry, and `records` cuts the lines into runs at the blank ones. A text has exactly
one such reading (`means_iff`).

**The reader does what the format says** (`parseRecords_outcome`): it fails on the first entry whose
path is no absolute key, with the number of its line, and otherwise gives the tree of each run with
an entry.

The run over the lines carries `Draft.Holds`: the open record is the path to which the entries since
the last blank line were appended. So nothing of a record is left when the next one begins.
-/

namespace SpanTree

namespace Record

variable {cs l p : List Char} {ls : List (List Char)} {m : Line} {ms ms' : List Line}
  {text : String}

/-! ## Lines -/

/-- The line is what is left of a piece without the carriage returns at its end. -/
def Trims (p l : List Char) : Prop :=
  (∃ n, p = l ++ List.replicate n '\r') ∧ l.getLast? ≠ some '\r'

theorem trims_iff : Trims p l ↔ trimReturns p = l := by
  constructor
  · rintro ⟨⟨n, rfl⟩, hlast⟩
    have hreturns : ∀ c ∈ List.replicate n '\r', (c == '\r') = true := by
      intro c hc
      rw [List.eq_of_mem_replicate hc]
      rfl
    rw [List.getLast?_eq_head?_reverse] at hlast
    rw [trimReturns, List.reverse_append, List.reverse_replicate,
      List.dropWhile_append_of_pos hreturns, List.reverse_eq_iff]
    cases hl : l.reverse with
    | nil => rfl
    | cons c cs =>
      have hc : c ≠ '\r' := by simpa [hl] using hlast
      simp [hc]
  · rintro rfl
    constructor
    · have hreturns : ∀ c ∈ p.reverse.takeWhile (· == '\r'), c = '\r' := by
        intro c hc
        simpa using List.mem_takeWhile_imp hc
      refine ⟨(p.reverse.takeWhile (· == '\r')).length, ?_⟩
      calc p = (p.reverse.takeWhile (· == '\r') ++ p.reverse.dropWhile (· == '\r')).reverse := by
            rw [List.takeWhile_append_dropWhile, List.reverse_reverse]
        _ = trimReturns p ++ (p.reverse.takeWhile (· == '\r')).reverse := by
            rw [List.reverse_append, trimReturns]
        _ = _ := by
            conv_lhs => rw [List.eq_replicate_of_mem hreturns, List.reverse_replicate]
    · intro hlast
      have hhead := List.head?_dropWhile_not (· == '\r') p.reverse
      rw [trimReturns, List.getLast?_eq_head?_reverse, List.reverse_reverse] at hlast
      rw [hlast] at hhead
      exact absurd hhead (by decide)

/-- What a line means, in the words of the format. -/
inductive Line.Reads : List Char → Line → Prop
  | blank {cs : List Char} (h : ∀ c ∈ cs, Text.isBlankChar c = true) : Reads cs .blank
  | comment (cs : List Char) : Reads ('#' :: cs) .comment
  | entry {path value : List Char}
      (hblank : ¬ ∀ c ∈ path ++ ' ' :: value, Text.isBlankChar c = true)
      (hcomment : (path ++ ' ' :: value).head? ≠ some '#') (hpath : ' ' ∉ path) :
      Reads (path ++ ' ' :: value) (.entry path value)
  | bare {path : List Char} (hblank : ¬ ∀ c ∈ path, Text.isBlankChar c = true)
      (hcomment : path.head? ≠ some '#') (hpath : ' ' ∉ path) : Reads path (.entry path [])

theorem isBlank_iff : Text.isBlank cs = true ↔ ∀ c ∈ cs, Text.isBlankChar c = true :=
  List.all_eq_true

theorem Line.ofChars_of_reads (h : Reads cs m) : ofChars cs = m := by
  cases h with
  | blank h => rw [ofChars, if_pos (isBlank_iff.2 h)]
  | comment cs =>
    have hblank : ¬ Text.isBlank ('#' :: cs) = true := by
      intro h
      exact absurd (isBlank_iff.1 h '#' (.head _)) (by decide)
    rw [ofChars, if_neg hblank]
    rfl
  | entry hblank hcomment hpath =>
    rw [ofChars, if_neg (mt isBlank_iff.1 hblank), if_neg hcomment, Text.cut_append hpath]
    rfl
  | bare hblank hcomment hpath =>
    rw [ofChars, if_neg (mt isBlank_iff.1 hblank), if_neg hcomment, Text.cut_of_not_mem hpath]
    rfl

theorem Line.reads_ofChars (cs : List Char) : Reads cs (ofChars cs) := by
  by_cases hblank : Text.isBlank cs = true
  · rw [ofChars, if_pos hblank]
    exact .blank (isBlank_iff.1 hblank)
  by_cases hcomment : cs.head? = some '#'
  · rw [ofChars, if_neg hblank, if_pos hcomment]
    obtain ⟨rest, rfl⟩ := List.head?_eq_some_iff.1 hcomment
    exact .comment rest
  rw [ofChars, if_neg hblank, if_neg hcomment]
  by_cases hspace : ' ' ∈ cs
  · obtain ⟨path, value, rfl, hpath⟩ := List.eq_append_cons_of_mem hspace
    rw [Text.cut_append hpath]
    exact .entry (mt isBlank_iff.2 hblank) hcomment hpath
  · rw [Text.cut_of_not_mem hspace]
    exact .bare (mt isBlank_iff.2 hblank) hcomment hspace

theorem Line.reads_iff : Reads cs m ↔ ofChars cs = m := by
  constructor
  · exact ofChars_of_reads
  · rintro rfl
    exact reads_ofChars cs

/-- The lines of a text with what they mean: the text is cut at the line ends, and each piece is
read without the carriage returns at its end. -/
def Means (text : String) (ms : List Line) : Prop :=
  ∃ ps, ps ≠ [] ∧ (∀ p ∈ ps, '\n' ∉ p) ∧ Text.unite '\n' ps = text.toList ∧
    List.Forall₂ (fun p m => ∃ l, Trims p l ∧ Line.Reads l m) ps ms

def meanings (text : String) : List Line :=
  (Text.pieces '\n' text.toList).map fun p => Line.ofChars (trimReturns p)

theorem forall₂_reads_iff {ps : List (List Char)} :
    List.Forall₂ (fun p m => ∃ l, Trims p l ∧ Line.Reads l m) ps ms ↔
      ms = ps.map fun p => Line.ofChars (trimReturns p) := by
  have hline : ∀ p m, (∃ l, Trims p l ∧ Line.Reads l m) ↔ Line.ofChars (trimReturns p) = m := by
    intro p m
    simp only [trims_iff, Line.reads_iff, exists_eq_left']
  simp only [hline]
  rw [← List.forall₂_map_left_iff (f := fun p => Line.ofChars (trimReturns p)),
    List.forall₂_eq_eq_eq, eq_comm]

/-- **A text has one reading.** -/
theorem means_iff : Means text ms ↔ ms = meanings text := by
  constructor
  · rintro ⟨ps, hne, hps, hunite, hlines⟩
    rw [meanings, ← hunite, Text.pieces_unite hne hps]
    exact forall₂_reads_iff.1 hlines
  · rintro rfl
    exact ⟨_, Text.pieces_ne_nil _ _, fun p => Text.not_mem_pieces, Text.unite_pieces _ _,
      forall₂_reads_iff.2 rfl⟩

example : meanings "# flows\n$.a  x\r\n\n$.b" =
    [.comment, .entry ['$', '.', 'a'] [' ', 'x'], .blank, .entry ['$', '.', 'b'] []] := by decide

/-! ## Records -/

/-- The path of an entry and the text to append there. -/
abbrev Entry := String × String

def Line.entry? : Line → Option Entry
  | entry path value => some (String.ofList path, String.ofList value)
  | _ => none

/-- The path of an entry is the root or an absolute path name. -/
def Line.Keyed (m : Line) : Prop := ∀ e ∈ m.entry?, Name.IsAbsoluteKey e.1

/-- The runs of lines between blank lines. -/
def runs (ms : List Line) : List (List Line) := ms.splitOnP (· == .blank)

/-- The entries of a run; comments are ignored. -/
def entriesOf (run : List Line) : List Entry := run.filterMap Line.entry?

/-- The entries of each run that has any. -/
def records (ms : List Line) : List (List Entry) :=
  ((runs ms).map entriesOf).filter (!·.isEmpty)

/-- Appends the text of an entry at its path. -/
def appendEntry (p : Path) (e : Entry) : Except Error Path := do
  p.append ((← Path.named e.1).appendText e.2)

/-- The path of the root, to which each entry was appended in order. -/
def collect (es : List Entry) : Except Error Path := do
  es.foldlM appendEntry (← Path.named Name.root)

/-- The tree of these entries. -/
def IsTreeOf (es : List Entry) (t : Tree) : Prop := collect es >>= Path.toTree = .ok t

/-- What is wrong with a path that is no absolute key. -/
def faultOf (path : String) : RecordFault :=
  if Name.isAbsolute path then .invalidPath path else .notRooted path

/-- The line behind the first `i` ones is the first that is an entry without an absolute key. -/
inductive FirstFault : List Line → Nat → RecordFault → Prop
  | here {path value : List Char} {ms : List Line} (h : ¬ (Line.entry path value).Keyed) :
      FirstFault (.entry path value :: ms) 0 (faultOf (String.ofList path))
  | later {m : Line} {ms : List Line} {i : Nat} {fault : RecordFault} (hm : m.Keyed)
      (h : FirstFault ms i fault) : FirstFault (m :: ms) (i + 1) fault

/-- What reading these lines comes to. -/
structure Outcome (ms : List Line) (result : Except Error (List Tree)) : Prop where
  /-- Reading fails if some entry has no absolute key, and only then, -/
  fails_iff : (∃ e, result = .error e) ↔ ∃ m ∈ ms, ¬ m.Keyed
  /-- with the number of the first such line. -/
  fault : ∀ e, result = .error e →
    ∃ i fault, FirstFault ms i fault ∧ e = .invalidRecord (i + 1) fault
  /-- Otherwise there is one tree for each run with an entry, in order. -/
  trees : ∀ ts, result = .ok ts → List.Forall₂ IsTreeOf (records ms) ts

/-! ### Cutting into runs -/

variable {es : List Entry} {e : Entry} {run : List Line}

@[simp] theorem runs_blank (ms : List Line) : runs (.blank :: ms) = [] :: runs ms := by
  simp [runs, List.splitOnP_cons_eq_if_modifyHead]

/-- A line that is not blank belongs to the first run. -/
theorem runs_cons (hm : m ≠ .blank) (ms : List Line) :
    runs (m :: ms) = (runs ms).modifyHead (m :: ·) := by
  simp [runs, List.splitOnP_cons_eq_if_modifyHead, hm]

theorem entriesOf_cons (m : Line) (run : List Line) :
    entriesOf (m :: run) = m.entry?.toList ++ entriesOf run := by
  cases h : m.entry? <;> simp [entriesOf, h]

/-- The records of the lines if the given entries stand before them. -/
def recordsFrom (es : List Entry) (ms : List Line) : List (List Entry) :=
  (((runs ms).map entriesOf).modifyHead (es ++ ·)).filter (!·.isEmpty)

theorem recordsFrom_nothing (ms : List Line) : recordsFrom [] ms = records ms := by
  rw [recordsFrom, records]
  cases (runs ms).map entriesOf <;> rfl

theorem recordsFrom_nil (es : List Entry) : recordsFrom es [] = [es].filter (!·.isEmpty) := by
  simp [recordsFrom, runs, entriesOf]

theorem recordsFrom_blank (es : List Entry) (ms : List Line) :
    recordsFrom es (.blank :: ms) = [es].filter (!·.isEmpty) ++ records ms := by
  rw [recordsFrom, runs_blank, records, ← List.filter_append]
  simp [entriesOf]

theorem recordsFrom_cons (hm : m ≠ .blank) (es : List Entry) (ms : List Line) :
    recordsFrom es (m :: ms) = recordsFrom (es ++ m.entry?.toList) ms := by
  rw [recordsFrom, recordsFrom, runs_cons hm]
  cases runs ms with
  | nil => rfl
  | cons run rest => simp [entriesOf_cons]

/-! ### The open record -/

/-- The open record of a draft: its path is that to which these entries were appended. -/
structure Draft.Holds (d : Draft) (es : List Entry) : Prop extends d.Sound where
  collected : collect es = .ok d.path
  entries : d.entries = es.length

theorem collect_append (es : List Entry) (e : Entry) :
    collect (es ++ [e]) = collect es >>= fun p => appendEntry p e := by
  simp [collect]

theorem Draft.Holds.empty : ∃ d, Draft.empty = .ok d ∧ d.Holds [] := by
  have hroot := Path.named_of_isAbsoluteKey (.inl (rfl : Name.root = "$"))
  have hempty : Draft.empty = .ok ⟨⟨"$", [("$", Tree.empty)], []⟩, 0⟩ := by
    rw [Draft.empty, hroot]
    rfl
  refine ⟨_, hempty, .empty hempty, ?_, rfl⟩
  rw [collect, hroot]
  rfl

section

variable {d : Draft} {path value : List Char} {n : Nat}

/-- An entry with an absolute key is appended to the open record. -/
theorem Draft.Holds.add (hd : d.Holds es) (hkey : Name.IsAbsoluteKey (String.ofList path)) (n : Nat)
    (value : List Char) : ∃ d', d.add n path value = .ok d' ∧
      d'.Holds (es ++ [(String.ofList path, String.ofList value)]) := by
  have habs := hkey.isAbsolute
  have hentry := Path.named_of_isAbsoluteKey hkey
  obtain ⟨p, happend, -⟩ := hd.made.orderly.append
    (Path.Made.appendText (.named hentry) (String.ofList value)).orderly
  have hadd : d.add n path value = .ok ⟨p, d.entries + 1⟩ := by
    simp [Draft.add, habs, hentry, happend, Except.map]
  refine ⟨_, hadd, hd.toSound.add hadd, ?_, ?_⟩
  · rw [collect_append, hd.collected]
    show appendEntry d.path _ = _
    rw [appendEntry, hentry]
    exact happend
  · simp [hd.entries]

theorem Draft.add_error (d : Draft) (hkey : ¬ Name.IsAbsoluteKey (String.ofList path)) (n : Nat)
    (value : List Char) :
    d.add n path value = .error (.invalidRecord n (faultOf (String.ofList path))) := by
  by_cases habs : Name.isAbsolute (String.ofList path) = true
  · have haddress : ¬ Name.isAddress (String.ofList path) = true := by
      rw [Name.isAddress_iff, if_pos habs]
      exact hkey
    simp [Draft.add, faultOf, habs, Path.named, haddress]
  · simp [Draft.add, faultOf, habs]

/-- The open record gives its tree if it has an entry, and is dropped otherwise. -/
theorem Draft.Holds.finish (hd : d.Holds es) : ∃ t?, d.finish = .ok t? ∧
    List.Forall₂ IsTreeOf ([es].filter (!·.isEmpty)) t?.toList := by
  cases es with
  | nil =>
    have hentries : d.entries = 0 := hd.entries
    refine ⟨none, ?_, .nil⟩
    rw [Draft.finish, if_pos hentries]
  | cons e es =>
    have hentries : d.entries ≠ 0 := by
      rw [hd.entries]
      exact Nat.succ_ne_zero es.length
    obtain ⟨t, -, htree, -⟩ :=
      hd.made.orderly.toTree_ok hd.made.wellFormed hd.textual.relative
    refine ⟨some t, ?_, .cons ?_ .nil⟩
    · rw [Draft.finish, if_neg hentries, htree]
      rfl
    · rw [IsTreeOf, hd.collected]
      exact htree

end

theorem Line.keyed_entry_iff {path value : List Char} :
    (Line.entry path value).Keyed ↔ Name.IsAbsoluteKey (String.ofList path) := by
  simp [Keyed, entry?]

/-- Only an entry can be at fault. -/
theorem Line.eq_entry_of_not_keyed (h : ¬ m.Keyed) :
    ∃ path value, m = .entry path value ∧ ¬ Name.IsAbsoluteKey (String.ofList path) := by
  cases m with
  | blank => exact absurd (by simp [Keyed, entry?]) h
  | comment => exact absurd (by simp [Keyed, entry?]) h
  | entry path value => exact ⟨path, value, rfl, mt keyed_entry_iff.2 h⟩

/-! ### From line to line -/

section

variable {done : List Tree} {d : Draft} {n : Nat}

/-- The open record at a blank line: it is closed, and the next one has no entries. -/
theorem parseLines_blank (hd : d.Holds es) (hline : Line.ofChars l = .blank) :
    ∃ d' ts, d'.Holds [] ∧ List.Forall₂ IsTreeOf ([es].filter (!·.isEmpty)) ts ∧
      parseLines done d n (l :: ls) = parseLines (ts.reverse ++ done) d' (n + 1) ls := by
  obtain ⟨t?, hfinish, htrees⟩ := hd.finish
  obtain ⟨d₀, hempty, hd₀⟩ := Draft.Holds.empty
  simp only [parseLines, hline, hfinish]
  cases t? with
  | none =>
    have hes : es = [] := by
      have hnone := List.forall₂_nil_right_iff.1 htrees
      simpa using hnone
    exact ⟨d, [], hes ▸ hd, htrees, rfl⟩
  | some t =>
    refine ⟨d₀, [t], hd₀, htrees, ?_⟩
    simp only [hempty]
    rfl

/-- One line without a fault. The trees that it completes are those of the records that it ends, and
the open record goes on with the other entries. -/
theorem parseLines_step (hd : d.Holds es) (hkeyed : (Line.ofChars l).Keyed) (done : List Tree)
    (n : Nat) (ls : List (List Char)) :
    ∃ d' es' rs ts, d'.Holds es' ∧ List.Forall₂ IsTreeOf rs ts ∧
      (∀ ms, recordsFrom es (Line.ofChars l :: ms) = rs ++ recordsFrom es' ms) ∧
      parseLines done d n (l :: ls) = parseLines (ts.reverse ++ done) d' (n + 1) ls := by
  cases hline : Line.ofChars l with
  | comment =>
    refine ⟨d, es, [], [], hd, .nil, fun ms => ?_, ?_⟩
    · simp [recordsFrom_cons, Line.entry?]
    · rw [parseLines, hline]
      rfl
  | entry path value =>
    rw [hline, Line.keyed_entry_iff] at hkeyed
    obtain ⟨d', hadd, hd'⟩ := hd.add hkeyed n value
    refine ⟨d', _, [], [], hd', .nil, fun ms => ?_, ?_⟩
    · simp [recordsFrom_cons, Line.entry?]
    · rw [parseLines, hline]
      show (d.add n path value >>= _) = _
      rw [hadd]
      rfl
  | blank =>
    obtain ⟨d', ts, hd', htrees, hstep⟩ := parseLines_blank hd hline
    refine ⟨d', [], _, ts, hd', htrees, fun ms => ?_, hstep⟩
    rw [recordsFrom_blank, recordsFrom_nothing]

/-- The trees of the lines stand behind those that are done. The open record counts as the beginning
of the first run. -/
theorem parseLines_of_keyed (hd : d.Holds es) (hkeyed : ∀ m ∈ ls.map Line.ofChars, m.Keyed)
    (done : List Tree) (n : Nat) :
    ∃ ts, parseLines done d n ls = .ok (done.reverse ++ ts) ∧
      List.Forall₂ IsTreeOf (recordsFrom es (ls.map Line.ofChars)) ts := by
  induction ls generalizing d n es done with
  | nil =>
    obtain ⟨t?, hfinish, htrees⟩ := hd.finish
    refine ⟨t?.toList, ?_, ?_⟩
    · rw [parseLines, hfinish]
      rfl
    · rwa [List.map_nil, recordsFrom_nil]
  | cons l ls ih =>
    obtain ⟨d', es', rs, ts, hd', htrees, hrecords, hstep⟩ :=
      parseLines_step hd (hkeyed _ (.head _)) done n ls
    have hls : ∀ m ∈ ls.map Line.ofChars, m.Keyed := fun m hm => hkeyed m (.tail _ hm)
    obtain ⟨ts', hparse, htrees'⟩ := ih hd' hls (ts.reverse ++ done) (n + 1)
    refine ⟨ts ++ ts', ?_, ?_⟩
    · rw [hstep, hparse]
      simp
    · rw [List.map_cons, hrecords]
      exact List.rel_append htrees htrees'

/-- Reading ends at the first entry without an absolute key. -/
theorem parseLines_of_fault (hd : d.Holds es) (hfault : ∃ m ∈ ls.map Line.ofChars, ¬ m.Keyed)
    (done : List Tree) (n : Nat) :
    ∃ i fault, FirstFault (ls.map Line.ofChars) i fault ∧
      parseLines done d n ls = .error (.invalidRecord (n + i) fault) := by
  induction ls generalizing done d n es with
  | nil =>
    obtain ⟨m, hm, -⟩ := hfault
    cases hm
  | cons l ls ih =>
    by_cases hl : (Line.ofChars l).Keyed
    · -- the line passes, and the first fault is in the lines behind it
      have hlater : ∃ m ∈ ls.map Line.ofChars, ¬ m.Keyed := by
        obtain ⟨m, hm, hbad⟩ := hfault
        rcases List.mem_cons.1 hm with rfl | hm
        · exact absurd hl hbad
        · exact ⟨m, hm, hbad⟩
      obtain ⟨d', es', rs, ts, hd', -, -, hstep⟩ := parseLines_step hd hl done n ls
      obtain ⟨i, fault, hfirst, hparse⟩ := ih hd' hlater (ts.reverse ++ done) (n + 1)
      refine ⟨i + 1, fault, .later hl hfirst, ?_⟩
      rw [hstep, hparse, Nat.add_assoc, Nat.add_comm 1 i]
    · obtain ⟨path, value, hline, hkey⟩ := Line.eq_entry_of_not_keyed hl
      rw [hline] at hl
      refine ⟨0, faultOf (String.ofList path), ?_, ?_⟩
      · rw [List.map_cons, hline]
        exact .here hl
      · rw [parseLines, hline]
        show (d.add n path value >>= _) = _
        rw [Draft.add_error d hkey]
        rfl

/-- An empty line at the very end changes nothing. -/
theorem parseLines_concat_nil : parseLines done d n (ls ++ [[]]) = parseLines done d n ls := by
  induction ls generalizing done d n with
  | nil =>
    have hline : Line.ofChars [] = .blank := rfl
    obtain ⟨d₀, hempty, hd₀⟩ := Draft.Holds.empty
    have hentries : d₀.entries = 0 := hd₀.entries
    rw [List.nil_append]
    simp only [parseLines, hline]
    cases hfinish : d.finish with
    | error e => rfl
    | ok t? =>
      cases t? with
      | none => rfl
      | some t =>
        have hfinish₀ : d₀.finish = .ok none := by rw [Draft.finish, if_pos hentries]
        simp only [hempty]
        simp [bind, Except.bind, pure, Except.pure, hfinish₀]
  | cons l ls ih =>
    rw [List.cons_append]
    simp only [parseLines, ih]

/-- The lines that are read are those of the text, but for an empty one at the very end. -/
theorem parseLines_lines (cs : List Char) : parseLines done d n (lines cs) =
    parseLines done d n ((Text.pieces '\n' cs).map trimReturns) := by
  rw [lines]
  by_cases hlast : (Text.pieces '\n' cs).getLast? = some []
  · have hsplit : (Text.pieces '\n' cs).dropLast ++ [[]] = Text.pieces '\n' cs :=
      List.dropLast_append_getLast? [] hlast
    conv_rhs => rw [← hsplit, List.map_append]
    rw [if_pos hlast]
    exact parseLines_concat_nil.symm
  · rw [if_neg hlast]

end

theorem meanings_eq (text : String) :
    meanings text = ((Text.pieces '\n' text.toList).map trimReturns).map Line.ofChars := by
  rw [meanings, List.map_map]
  rfl

/-- Reading begins with a record without entries. -/
theorem parseRecords_eq (text : String) : ∃ d : Draft, d.Holds [] ∧ parseRecords text =
    parseLines [] d 1 ((Text.pieces '\n' text.toList).map trimReturns) := by
  obtain ⟨d, hempty, hd⟩ := Draft.Holds.empty
  refine ⟨d, hd, ?_⟩
  rw [← parseLines_lines, parseRecords, hempty]
  rfl

theorem parseRecords_of_keyed (hkeyed : ∀ m ∈ meanings text, m.Keyed) :
    ∃ ts, parseRecords text = .ok ts ∧ List.Forall₂ IsTreeOf (records (meanings text)) ts := by
  obtain ⟨d, hd, hparse⟩ := parseRecords_eq text
  rw [meanings_eq] at hkeyed ⊢
  obtain ⟨ts, hlines, htrees⟩ := parseLines_of_keyed hd hkeyed [] 1
  rw [recordsFrom_nothing] at htrees
  exact ⟨ts, hparse.trans hlines, htrees⟩

theorem parseRecords_of_fault (hfault : ∃ m ∈ meanings text, ¬ m.Keyed) :
    ∃ i fault, FirstFault (meanings text) i fault ∧
      parseRecords text = .error (.invalidRecord (i + 1) fault) := by
  obtain ⟨d, hd, hparse⟩ := parseRecords_eq text
  rw [meanings_eq] at hfault ⊢
  obtain ⟨i, fault, hfirst, hlines⟩ := parseLines_of_fault hd hfault [] 1
  refine ⟨i, fault, hfirst, ?_⟩
  rw [hparse, hlines, Nat.add_comm]

/-- **Record files mean what the format says.** -/
theorem parseRecords_outcome (text : String) :
    ∃ ms, (∀ ms', Means text ms' ↔ ms' = ms) ∧ Outcome ms (parseRecords text) := by
  refine ⟨meanings text, fun ms' => means_iff, ?_⟩
  by_cases hfault : ∃ m ∈ meanings text, ¬ m.Keyed
  · obtain ⟨i, fault, hfirst, hparse⟩ := parseRecords_of_fault hfault
    rw [hparse]
    refine ⟨iff_of_true ⟨_, rfl⟩ hfault, fun e he => ?_, fun ts hts => ?_⟩
    · cases he
      exact ⟨i, fault, hfirst, rfl⟩
    · cases hts
  · have hkeyed : ∀ m ∈ meanings text, m.Keyed := by
      intro m hm
      by_contra hbad
      exact hfault ⟨m, hm, hbad⟩
    obtain ⟨ts, hparse, htrees⟩ := parseRecords_of_keyed hkeyed
    rw [hparse]
    refine ⟨iff_of_false ?_ hfault, fun e he => ?_, fun ts' hts => ?_⟩
    · rintro ⟨e, he⟩
      cases he
    · cases he
    · cases hts
      exact htrees

end Record

end SpanTree
