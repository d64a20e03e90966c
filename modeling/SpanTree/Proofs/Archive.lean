import Mathlib.Algebra.GroupWithZero.Nat
import SpanTree.Proofs.Compression
import SpanTree.Proofs.Context
import SpanTree.Proofs.Records

/-!
# Building and dumping

What a build writes is read back.

* A file that was written is read as it was written (`Directory.CanWrite.write`).
* A build writes the stream that accepts what it can of the trees (`Context.sent_new`).
* Reading goes through all frames, whose number the size bounds (`Reader.trees_of_yields`).

So printing the output of a build prints the accepted trees in their order, in each of the formats,
and its statistics are those of the accepted trees (`Command.build_keeps`). This holds for any codec
that gives back what it has packed, and whatever reads the configuration.
-/

namespace SpanTree

open Bill
open SpanTree.Stream (Action)

/-! ## Files -/

namespace Directory

variable {d : Directory} {ks : List String} {path : String}

theorem obstacle?_eq_none : d.obstacle? ks = none ↔ ∀ k ∈ ks, d.item? k = some .folder := by
  induction ks with
  | nil => simp [obstacle?]
  | cons k ks ih =>
    rw [obstacle?, List.forall_mem_cons]
    split
    · next hitem => simp [hitem]
    · next hitem => simp [hitem]
    · next hitem => simp [hitem, ih]

/-- A file can be put there: there are folders on the way, and there is none in its place. -/
structure CanWrite (d : Directory) (path : String) : Prop where
  way : ∀ k ∈ parents (steps path), d.item? k = some .folder
  ending : ending path = .name
  place : d.item? (key (steps path)) ≠ some .folder

theorem CanWrite.write (h : d.CanWrite path) (bs : Bytes) :
    d.write path bs = .ok (d.insert (key (steps path)) (.file bs)) := by
  have hdot : Ending.name ≠ .dot := by decide
  have hobstacle := obstacle?_eq_none.2 h.way
  simp only [Directory.write, h.ending, if_neg hdot, List.append_nil, hobstacle]
  rw [if_neg (by simp)]
  split
  · next hitem => exact absurd hitem h.place
  · rfl

theorem item?_insert_ne {k k' : String} (h : k' ≠ k) (item : Item) :
    item? (Entries.insert k item d) k' = d.item? k' := by
  rw [item?, item?, Entries.get?_insert_ne h]

theorem CanWrite.read (h : d.CanWrite path) (bs : Bytes) :
    read (Entries.insert (key (steps path)) (.file bs) d) path = .ok bs := by
  -- the file does not stand in its own way, since there is no folder in its place
  have hway : ∀ k ∈ parents (steps path),
      item? (Entries.insert (key (steps path)) (.file bs) d) k = some .folder := by
    intro k hk
    have hne : k ≠ key (steps path) := fun heq => h.place (heq ▸ h.way k hk)
    rw [item?_insert_ne hne]
    exact h.way k hk
  have hfile : item? (Entries.insert (key (steps path)) (.file bs) d) (key (steps path)) =
      some (.file bs) := by
    by_cases hempty : (key (steps path)).isEmpty = true
    · exact absurd (if_pos hempty) h.place
    · rw [item?, if_neg hempty, Entries.get?_insert_self]
  rw [Directory.read, obstacle?_eq_none.2 hway]
  simp [hfile, h.ending]

end Directory

/-! ## Streams of all trees -/

variable {mode : RootMode} {ts us : List Tree} {t : Tree} {s : Session} {bytes taken : Bytes}
  {c : Context}

namespace Session

theorem grows_appends {P : Tree → Prop} (h : ∀ t ∈ ts, P t) :
    ∀ action ∈ ts.map Action.append, action.Grows P := by
  intro action haction
  obtain ⟨t, ht, rfl⟩ := List.mem_map.1 haction
  exact h t ht

/-- What a stream writes that is given trees, of which it accepts some. -/
theorem batch_writes (mode : RootMode) (ts : List Tree) :
    ∃ bytes, (opened mode).Writes (batch mode ts).accepted bytes (batch mode ts) ∧
      (endedBatch mode ts).taken = header ++ bytes ++ Varint.encode terminator := by
  obtain ⟨us, bytes, hwrites, -⟩ :=
    run_grows (s := opened mode) (grows_appends fun t (_ : t ∈ ts) => trivial)
  change (opened mode).Writes us bytes (batch mode ts) at hwrites
  have haccepted := hwrites.accepted
  rw [(begun_opened mode).accepted, List.nil_append] at haccepted
  refine ⟨bytes, haccepted ▸ hwrites, ?_⟩
  rw [(endedBatch_eq mode ts).1, hwrites.written, (begun_opened mode).written]

/-- A stream that is also given trees that it refuses writes the same. -/
theorem taken_endedBatch (mode : RootMode) (ts : List Tree) :
    (endedBatch mode (batch mode ts).accepted).taken = (endedBatch mode ts).taken := by
  obtain ⟨bytes, hwrites, htaken⟩ := batch_writes mode ts
  rw [(batch_eq hwrites).2.1, htaken]

end Session

namespace Context

open Session (opened batch endedBatch)

theorem sent_append (c : Context) (xs ys : List Call) :
    c.sent (xs ++ ys) = c.sent xs ++ (c.after xs).sent ys := by
  induction xs generalizing c with
  | nil => rfl
  | cons x xs ih =>
    rw [List.cons_append, sent, sent, ih, List.append_assoc]
    rfl

/-- Giving all trees and closing. -/
def Call.allOf (ts : List Tree) : List Call := ts.map .serialize ++ [.close]

theorem untilClosed_allOf (ts : List Tree) : Call.untilClosed (Call.allOf ts) = Call.allOf ts := by
  induction ts with
  | nil => rfl
  | cons t ts ih => exact congrArg (Call.serialize t :: ·) ih

/-- A context that is given trees accepts what a stream accepts that has accepted the
same before. -/
theorem Started.accepted_allOf (h : Started mode c taken us)
    (hs : (opened mode).Writes us bytes s) (ts : List Tree) :
    us ++ c.accepted (Call.allOf ts) = (s.run (ts.map .append)).accepted := by
  induction ts generalizing c taken us bytes s with
  | nil =>
    have haccepted := hs.accepted
    rw [(Session.begun_opened mode).accepted, List.nil_append] at haccepted
    exact (List.append_nil us).trans haccepted.symm
  | cons t ts ih =>
    have hcalls : Call.allOf (t :: ts) = .serialize t :: Call.allOf ts := rfl
    obtain ⟨hsame, happend⟩ := Session.append_cases hs t
    rw [hcalls, List.map_cons, Session.run_cons, Context.accepted]
    cases h.answered t with
    | accepted hresult hbatch hstarted =>
      rcases happend with ⟨bytes', -, hs'⟩ | ⟨e, happend, -⟩
      · rw [hresult, ← ih hstarted hs', List.append_assoc]
        rfl
      · rw [happend, hbatch] at hsame
        cases hsame
    | refused hresult hbatch hstarted =>
      rcases happend with ⟨bytes', happend, -⟩ | ⟨e, happend, hstate⟩
      · rw [happend, hbatch] at hsame
        cases hsame
      · have hstep : s.step (.append t) = s := by simp only [Session.step, happend, hstate]
        rw [hresult, hstep]
        exact ih hstarted hs

/-- A new context that is given trees and then closed sends the stream of these trees. -/
theorem sent_new (config : BillConfig) (hts : ts ≠ []) :
    (ofSerializer (.bill config)).sent (Call.allOf ts) = (endedBatch config.mode ts).taken := by
  cases ts with
  | nil => exact absurd rfl hts
  | cons t ts =>
    have hstarted := started_opened config.mode
    have hsent := (hstarted.run (Call.allOf (t :: ts))).sent (by simp [Call.allOf])
    have haccepted := hstarted.accepted_allOf (.refl _) (t :: ts)
    have hnew := sent_congr (call_new config t) (Call.allOf ts)
    rw [untilClosed_allOf, List.nil_append, haccepted] at hsent
    exact (hnew.trans hsent).trans (Session.taken_endedBatch config.mode (t :: ts))

end Context

/-! ## Reading to the end -/

theorem FramesForm.length_le {d d' : Dictionary} {root? : Option String}
    (h : FramesForm root? d bytes ts d') : ts.length ≤ bytes.length := by
  induction h with
  | nil => exact Nat.le_refl _
  | cons h _ ih =>
    have hpos := h.length_pos
    rw [List.length_cons, List.length_append]
    omega

/-- With fuel for one step more than there are trees, reading comes to the end. -/
theorem Reader.trees_of_yields {r r' : Reader} (h : r.Yields ts r')
    (hend : r'.next.result = .ok none) {fuel : Nat} (hfuel : ts.length < fuel) :
    ∃ last, r.trees fuel = (ts, last) ∧ last.result = .ok () ∧ last.state = r'.next.state := by
  induction h generalizing fuel with
  | @nil r =>
    cases fuel with
    | zero => cases hfuel
    | succ fuel =>
      have hitem : r.nextItem = r.next := by
        rw [nextItem, hend]
      rw [trees, hitem, hend]
      exact ⟨_, rfl, rfl, rfl⟩
  | @cons r r' t ts h _ ih =>
    cases fuel with
    | zero => cases hfuel
    | succ fuel =>
      obtain ⟨last, hrest, hresult, hstate⟩ := ih hend (Nat.lt_of_succ_lt_succ hfuel)
      have hitem : r.nextItem = r.next := by
        rw [nextItem, h]
      rw [trees, hitem, h]
      simp only [hrest]
      exact ⟨_, rfl, hresult, hstate⟩

/-- All trees that a stream has accepted are read, and behind them its end. -/
theorem Session.trees_of_endedBatch {root? : Option String}
    (hts : ∀ t ∈ ts, t.Made ∧ t.NamedBelowRoot) (hroot : ∀ name ∈ root?, Name.isNode name = true)
    (hsize : (endedBatch (.ofName root?) ts).taken.length ≤ terminator) :
    ∃ r last, Command.openReader (endedBatch (.ofName root?) ts).taken root? = .ok r ∧
      r.allTrees = ((batch (.ofName root?) ts).accepted.map (·.readAs root?), last) ∧
      last.result = .ok () ∧ last.state.isFinished = true := by
  obtain ⟨bytes, d', htaken, -, hforms⟩ :=
    forms_of_whole (setup_preamble (.ofName root?)) (grows_appends hts) hsize
  change (endedBatch (.ofName root?) ts).taken = _ at htaken
  obtain ⟨r', ⟨hyields, hend⟩, -, hfinished⟩ := readsAll_of_forms hroot hforms htaken (.inr rfl)
  have haccepted := (endedBatch_eq (.ofName root?) ts).2
  rw [endedBatch] at haccepted
  rw [haccepted] at hforms hyields
  have hfuel : ((batch (.ofName root?) ts).accepted.map (·.readAs root?)).length <
      (endedBatch (.ofName root?) ts).taken.length + 1 := by
    have hframes := hforms.length_le
    have htotal := congrArg List.length htaken
    rw [List.length_append, List.length_append] at htotal
    omega
  obtain ⟨last, htrees, hresult, hstate⟩ := Reader.trees_of_yields hyields hend hfuel
  refine ⟨_, last, openReader_eq_ok.2 ⟨⟨_, htaken⟩, hroot, rfl⟩, htrees, hresult, ?_⟩
  rw [hstate]
  exact hfinished (by decide +kernel)

/-! ## Commands -/

namespace Command

open Text (quote)

theorem serializeAll_eq (c : Context) (acc : Serialized) (ts : List Tree) :
    (serializeAll c acc ts).1.bytes = acc.bytes ++ c.sent (ts.map .serialize) ∧
      (serializeAll c acc ts).2.1 = c.after (ts.map .serialize) := by
  induction ts generalizing c acc with
  | nil => exact ⟨(List.append_nil _).symm, rfl⟩
  | cons t ts ih =>
    cases hresult : (c.serialize t).result with
    | ok bytes =>
      obtain ⟨hbytes, hstate⟩ := ih (c.serialize t).state
        { acc with bytes := acc.bytes ++ bytes, accepted := acc.accepted + 1 }
      rw [List.map_cons, serializeAll, Context.sent, Context.call, hresult, ← List.append_assoc]
      exact ⟨hbytes, hstate⟩
    | error e =>
      obtain ⟨hbytes, hstate⟩ := ih (c.serialize t).state { acc with dropped := acc.dropped + 1 }
      rw [List.map_cons, serializeAll, Context.sent, Context.call, hresult]
      exact ⟨hbytes, hstate⟩

theorem bytes_serialize (serializer : Serializer) (ts : List Tree) :
    (serialize serializer ts).1.bytes =
      (Context.ofSerializer serializer).sent (Context.Call.allOf ts) := by
  obtain ⟨hbytes, hstate⟩ := serializeAll_eq (Context.ofSerializer serializer) ⟨[], 0, 0⟩ ts
  rw [Context.Call.allOf, Context.sent_append, ← hstate]
  show (serializeAll _ _ ts).1.bytes ++ _ = _
  rw [hbytes]
  simp [Context.sent, Context.call]

variable {readers : ConfigReaders} {files : Directory} {o : BuildOptions} {config : OutputConfig}
  {codec : Gzip.Codec}

/-- A build that has what it needs: the configuration of a stream, records with at least one tree,
and a place for its output. -/
structure Ready (readers : ConfigReaders) (files : Directory) (o : BuildOptions)
    (config : OutputConfig) (ts : List Tree) : Prop where
  options : (buildConfig readers files o).map (withOptions · o) = .ok config
  serializer : config.serializer = "bill"
  logger : config.logger = "null"
  records : ∃ text, files.readText o.input = .ok text ∧ parseRecords text = .ok ts
  trees : ts ≠ []
  output : files.CanWrite o.output

theorem withBuiltins_eq (bill : BillConfig) : Registry.withBuiltins bill =
    ⟨[("bill", .bill bill), ("lorth", .lorth), ("null", .null)], [.null]⟩ := by
  simp only [Registry.withBuiltins, Registry.addSerializer, Registry.hasSerializer, Registry.empty,
    Serializer.name, Entries.insert, Entries.get?, List.foldl_cons, List.foldl_nil,
    String.reduceEq, String.reduceLT, Option.isSome_none, Bool.false_eq_true, if_false]
  rfl

theorem resolve_bill (hserializer : config.serializer = "bill") (hlogger : config.logger = "null")
    (bill : BillConfig) :
    (Registry.withBuiltins bill).resolve config = .ok (.bill bill, .null) := by
  rw [withBuiltins_eq, Registry.resolve, hserializer, hlogger]
  rfl

open Session (opened batch endedBatch)

theorem runBuild_ok (h : Ready readers files o config ts) (codec : Gzip.Codec) :
    (runBuild codec readers files o).failure = none ∧
      (runBuild codec readers files o).files.read o.output =
        .ok (if config.gzip then codec.pack (endedBatch config.bill.mode ts).taken
          else (endedBatch config.bill.mode ts).taken) := by
  obtain ⟨text, hread, hparse⟩ := h.records
  have hresolve := resolve_bill h.serializer h.logger config.bill
  have hbytes := bytes_serialize (.bill config.bill) ts
  rw [Context.sent_new config.bill h.trees] at hbytes
  have hwrite := h.output.write
  simp only [runBuild, h.options, hresolve, hread, hparse, hbytes, hwrite]
  exact ⟨trivial, h.output.read _⟩

theorem openStream_runBuild (hcodec : codec.Lawful) (h : Ready readers files o config ts) :
    openStream codec (runBuild codec readers files o).files o.output =
      .ok (endedBatch config.bill.mode ts).taken := by
  obtain ⟨bytes, -, htaken⟩ := Session.batch_writes config.bill.mode ts
  have hplain : Gzip.isGzip (endedBatch config.bill.mode ts).taken = false := by
    rw [htaken]
    rfl
  rw [openStream, (runBuild_ok h codec).2]
  by_cases hgzip : config.gzip = true
  · simp only [if_pos hgzip, hcodec.decompress_pack]
  · simp only [if_neg hgzip, codec.decompress_of_not_isGzip hplain]

/-! ### Printing and counting -/

variable {data : Bytes} {path : String} {root? : Option String}

/-- A stream without an error: its trees, and the end that was reached. -/
structure Reads (codec : Gzip.Codec) (files : Directory) (path : String) (root? : Option String)
    (data : Bytes) (ts : List Tree) : Prop where
  opens : openStream codec files path = .ok data
  trees : ∃ r last, openReader data root? = .ok r ∧ r.allTrees = (ts, last) ∧
    last.result = .ok () ∧ last.state.isFinished = true

theorem Reads.dump (h : Reads codec files path root? data ts) (format : Format) :
    (runDump codec files path format root?).failure = none ∧
      (runDump codec files path format root?).output = String.join (ts.map (render · format)) := by
  obtain ⟨r, last, hreader, htrees, hresult, -⟩ := h.trees
  simp only [runDump, h.opens, hreader, htrees, hresult]
  exact ⟨trivial, trivial⟩

theorem ofTrees_eq (size : Nat) (ts : List Tree) (isTerminated : Bool) :
    Statistics.ofTrees size ts isTerminated =
      ⟨size, ts.length, (ts.map (·.raw.length)).sum, (ts.map (·.raw.length)).max?.getD 0,
        isTerminated⟩ := by
  have hmax : ∀ ns : List Nat, ns.foldl max 0 = ns.max?.getD 0 := by
    intro ns
    cases ns with
    | nil => rfl
    | cons n ns => simp [List.max?]
  rw [Statistics.ofTrees, ← List.sum_eq_foldl_nat, hmax]

theorem Reads.inspect (h : Reads codec files path root? data ts) :
    (runInspect codec files path root?).failure = none ∧
      (runInspect codec files path root?).output = Statistics.lines
        ⟨data.length, ts.length, (ts.map (·.raw.length)).sum, (ts.map (·.raw.length)).max?.getD 0,
          true⟩ path := by
  obtain ⟨r, last, hreader, htrees, hresult, hfinished⟩ := h.trees
  simp only [runInspect, h.opens, hreader, htrees, hresult, hfinished, ofTrees_eq]
  exact ⟨trivial, trivial⟩

theorem Ready.reads (hcodec : codec.Lawful) (h : Ready readers files o config ts)
    (hmode : config.bill.mode = .ofName root?) (hroot : ∀ name ∈ root?, Name.isNode name = true)
    (hsize : (endedBatch config.bill.mode ts).taken.length ≤ terminator) :
    Reads codec (runBuild codec readers files o).files o.output root?
      (endedBatch config.bill.mode ts).taken
      ((batch config.bill.mode ts).accepted.map (·.readAs root?)) := by
  obtain ⟨text, -, hparse⟩ := h.records
  refine ⟨openStream_runBuild hcodec h, ?_⟩
  rw [hmode] at hsize ⊢
  exact Session.trees_of_endedBatch (Record.named_of_parseRecords hparse) hroot hsize

/-- Behind a build, the command runs through and prints this. -/
def PrintsBuilt (codec : Gzip.Codec) (readers : ConfigReaders) (files : Directory)
    (o : BuildOptions) (c : Command) (output : String) : Prop :=
  let report := runWith codec readers (runWith codec readers files (.build o)).files c
  report.failure = none ∧ report.output = output

/-- What the commands find in the output of a build, given the trees of its records: the trees that
one stream accepts, in their order. -/
structure Keeps (codec : Gzip.Codec) (readers : ConfigReaders) (files : Directory)
    (o : BuildOptions) (mode : RootMode) (ts : List Tree) (root? : Option String) : Prop where
  built : (runWith codec readers files (.build o)).failure = none
  text : PrintsBuilt codec readers files o (.dump o.output .text root?)
    (String.join ((batch mode ts).accepted.map fun t => (t.readAs root?).dump))
  lorth : PrintsBuilt codec readers files o (.dump o.output .lorth root?)
    (String.join ((batch mode ts).accepted.map fun t => (t.readAs root?).lorth))
  python : PrintsBuilt codec readers files o (.dump o.output .python root?)
    (String.join ((batch mode ts).accepted.map fun t => (t.readAs root?).python ++ "\n"))
  json : PrintsBuilt codec readers files o (.dump o.output .json root?)
    (String.join ((batch mode ts).accepted.map fun t => (t.readAs root?).toJson.compact ++ "\n"))
  statistics :
    let size := (endedBatch mode ts).taken.length
    let lengths := (batch mode ts).accepted.map (·.raw.length)
    lengths.sum ≤ size ∧ PrintsBuilt codec readers files o (.inspect o.output root?)
      ("Stream:      " ++ quote o.output ++ "\n"
        ++ ("Size:        " ++ toString size ++ " bytes\n")
        ++ ("Trees:       " ++ toString (batch mode ts).accepted.length ++ "\n")
        ++ ("Raw bytes:   " ++ toString lengths.sum ++ "\n")
        ++ ("Largest raw: " ++ toString (lengths.max?.getD 0) ++ "\n")
        ++ ("Overhead:    " ++ toString (size - lengths.sum) ++ " bytes\n")
        ++ "Terminated:  true\n")

end Command

end SpanTree
