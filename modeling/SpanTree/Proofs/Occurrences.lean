import Mathlib.Data.List.Induction
import SpanTree.Proofs.Encoding
import SpanTree.Proofs.Session

/-!
# How names are written in a stream

The bytes of names are told from the accepted trees alone. Their names, each before those below it,
make one sequence for the whole stream, and **the names known at any place are the first 64 distinct
names met before it**. So a name is a single byte exactly if it comes again and is one of the first
64 distinct names of the sequence, and the byte is its place among them (`names_compressed`).

`NodeLaid` and its kin say where these bytes stand: they are the layout of a node, of a block and of
frames in which the names are written in any way at all.
-/

namespace SpanTree

open Bill
open SpanTree.Stream (Action)

/-! ## Distinct names -/

section

variable {α : Type} [BEq α] [LawfulBEq α] {as bs : List α} {a : α} {i : Nat}

theorem eraseDups_concat_of_mem (h : a ∈ as) : (as ++ [a]).eraseDups = as.eraseDups := by
  simp [List.eraseDups_append, List.removeAll, h]

theorem eraseDups_concat_of_not_mem (h : a ∉ as) :
    (as ++ [a]).eraseDups = as.eraseDups ++ [a] := by
  simp [List.eraseDups_append, List.removeAll, h, List.eraseDups_cons]

theorem nodup_eraseDups (as : List α) : as.eraseDups.Nodup := by
  induction as using List.reverseRecOn with
  | nil => exact List.nodup_nil
  | append_singleton as a ih =>
    by_cases h : a ∈ as
    · rwa [eraseDups_concat_of_mem h]
    · rw [eraseDups_concat_of_not_mem h]
      refine List.nodup_append.2 ⟨ih, by simp, ?_⟩
      intro b hb c hc hbc
      rw [List.mem_singleton] at hc
      exact h (hc ▸ hbc ▸ List.mem_eraseDups.1 hb)

/-- The distinct ones of a part that comes first keep their places. -/
theorem getElem?_eraseDups_append (h : a ∈ as) :
    (as ++ bs).eraseDups[i]? = some a ↔ as.eraseDups[i]? = some a := by
  have happend := @List.eraseDups_append α _ _ as bs
  obtain ⟨j, hj⟩ := List.mem_iff_getElem?.1 (List.mem_eraseDups.2 h)
  have hlt := (List.getElem?_eq_some_iff.1 hj).1
  have hj' : (as ++ bs).eraseDups[j]? = some a := by
    rw [happend, List.getElem?_append_left hlt, hj]
  constructor
  · intro hi
    have hlt' := (List.getElem?_eq_some_iff.1 hi).1
    obtain rfl := (List.getElem?_inj hlt' (nodup_eraseDups _)).1 (hi.trans hj'.symm)
    exact hj
  · intro hi
    rw [happend, List.getElem?_append_left (List.getElem?_eq_some_iff.1 hi).1, hi]

end

namespace Dictionary

variable {capacity i : Nat} {name : String} {names rest : List String}

/-- The names that are known are the first distinct ones, as far as there is room. -/
theorem names_learned (capacity : Nat) (names : List String) :
    (names.foldl learn (ofCapacity capacity)).names = names.eraseDups.take capacity := by
  induction names using List.reverseRecOn with
  | nil => simp [ofCapacity]
  | append_singleton names name ih =>
    have hlearns : (ofCapacity capacity).Learns (names.foldl learn (ofCapacity capacity)) :=
      ⟨names, rfl⟩
    have hcapacity := hlearns.extends.capacity_eq
    rw [List.foldl_append, List.foldl_cons, List.foldl_nil]
    generalize names.foldl learn (ofCapacity capacity) = d at ih hcapacity ⊢
    change d.capacity = capacity at hcapacity
    have hsize : d.size = min capacity names.eraseDups.length := by
      rw [size, ih, List.length_take]
    -- what is new and finds no room comes behind the first `capacity` distinct names
    by_cases hknown : name ∈ d.names
    · have hmem : name ∈ names := by
        rw [ih] at hknown
        exact List.mem_eraseDups.1 (List.mem_of_mem_take hknown)
      rw [learn_of_mem hknown, ih, eraseDups_concat_of_mem hmem]
    · by_cases hfull : d.capacity ≤ d.size
      · rw [learn_of_full hfull, ih, List.eraseDups_append,
          List.take_append_of_le_length (by omega)]
      · have hall : d.names = names.eraseDups := by
          rw [ih]
          exact List.take_of_length_le (by omega)
        have hnew : name ∉ names := by
          rwa [hall, List.mem_eraseDups] at hknown
        rw [learn_of_room hknown (by omega), hall, eraseDups_concat_of_not_mem hnew,
          List.take_of_length_le]
        simp only [List.length_append, List.length_singleton]
        omega

/-- A name has the index `i` if it is the `i`-th distinct one, of all that are ever met, and was met
before. -/
theorem find_learned : (names.foldl learn (ofCapacity capacity)).find name = .index i ↔
    i < capacity ∧ (names ++ rest).eraseDups[i]? = some name ∧ name ∈ names := by
  have hlearns : (ofCapacity capacity).Learns (names.foldl learn (ofCapacity capacity)) :=
    ⟨names, rfl⟩
  have hwf := hlearns.wellFormed (wellFormed_ofCapacity capacity)
  have hfind : (names.foldl learn (ofCapacity capacity)).find name = .index i ↔
      i < capacity ∧ names.eraseDups[i]? = some name := by
    constructor
    · intro h
      have hname := name?_of_find h
      rw [name?, names_learned, List.getElem?_take] at hname
      split at hname
      · next hi => exact ⟨hi, hname⟩
      · cases hname
    · intro h
      obtain ⟨hi, hname⟩ := h
      apply find_of_name? hwf
      rw [name?, names_learned, List.getElem?_take, if_pos hi, hname]
  rw [hfind]
  constructor
  · intro h
    obtain ⟨hi, hname⟩ := h
    have hmem := List.mem_eraseDups.1 (List.mem_of_getElem? hname)
    exact ⟨hi, (getElem?_eraseDups_append hmem).2 hname, hmem⟩
  · intro h
    obtain ⟨hi, hname, hmem⟩ := h
    exact ⟨hi, (getElem?_eraseDups_append hmem).1 hname⟩

end Dictionary

/-! ## Where the names stand -/

section

variable {cursor depth start k : Nat} {d d' : Dictionary} {bs block bytes field : Bytes}
  {fields fields' : List Bytes} {name : String} {names names' : List String} {n : Node}
  {ns : List Node} {t : Tree} {ts : List Tree} {mode : RootMode}

mutual

/-- The bytes of a node in which the names of the subtree, in their order, take these bytes. -/
inductive NodeLaid : (cursor : Nat) → List Bytes → Bytes → Node → Prop
  | leaf {cursor start stop : Nat} {name : String} {field cs : Bytes}
      (hspan : encodeSpan (start - cursor) (stop - start) = .ok cs) :
      NodeLaid cursor [field] (field ++ cs) ⟨name, start, stop, []⟩
  | inner {cursor start stop : Nat} {name : String} {children : List Node}
      {field cs ds header : Bytes} {fields : List Bytes}
      (hspan : encodeSpan (start - cursor) (stop - start) = .ok cs)
      (hchildren : NodesLaid start fields ds children) (hne : children ≠ [])
      (hheader : encodeChildrenHeader (field ++ cs ++ ds).length = .ok header) :
      NodeLaid cursor (field :: fields) (header ++ (field ++ cs ++ ds))
        ⟨name, start, stop, children⟩

inductive NodesLaid : (cursor : Nat) → List Bytes → Bytes → List Node → Prop
  | nil {cursor : Nat} : NodesLaid cursor [] [] []
  | cons {cursor : Nat} {fields fields' : List Bytes} {bs cs : Bytes} {n : Node} {ns : List Node}
      (hnode : NodeLaid cursor fields bs n) (hrest : NodesLaid n.stop fields' cs ns) :
      NodesLaid cursor (fields ++ fields') (bs ++ cs) (n :: ns)

end

inductive BlockLaid : RootMode → List Bytes → Bytes → Tree → Prop
  | written {fields : List Bytes} {block : Bytes} {t : Tree}
      (h : NodeLaid t.root.start fields block t.root) : BlockLaid .written fields block t
  | omitted {fields : List Bytes} {block : Bytes} {t : Tree}
      (h : NodesLaid t.root.start fields block t.root.children) :
      BlockLaid .omitted fields block t

inductive FramesLaid (mode : RootMode) : List Bytes → Bytes → List Tree → Prop
  | nil : FramesLaid mode [] [] []
  | cons {fields fields' : List Bytes} {block bs : Bytes} {t : Tree} {ts : List Tree}
      (hblock : BlockLaid mode fields block t) (hrest : FramesLaid mode fields' bs ts) :
      FramesLaid mode (fields ++ fields') (Stream.frame t.raw block ++ bs) (t :: ts)

/-- Names that are written one after the other, and the bytes of each. -/
inductive Spells : Dictionary → List String → List Bytes → Prop
  | nil {d : Dictionary} : Spells d [] []
  | cons {d : Dictionary} {name : String} {names : List String} {field : Bytes}
      {fields : List Bytes} (h : Answers (encodeName name) d field (d.learn name))
      (hrest : Spells (d.learn name) names fields) : Spells d (name :: names) (field :: fields)

theorem Spells.append (h : Spells d names fields)
    (h' : Spells (names.foldl Dictionary.learn d) names' fields') :
    Spells d (names ++ names') (fields ++ fields') := by
  induction h with
  | nil => exact h'
  | cons h _ ih => exact .cons h (ih h')

theorem Spells.length_eq (h : Spells d names fields) : fields.length = names.length := by
  induction h with
  | nil => rfl
  | cons _ _ ih => simp [ih]

/-- Each name is written with those known that came before it. -/
theorem Spells.at (h : Spells d names fields) (hname : names[k]? = some name)
    (hfield : fields[k]? = some field) :
    ∃ d', Answers (encodeName name) ((names.take k).foldl Dictionary.learn d) field d' := by
  induction h generalizing k with
  | nil => simp at hname
  | cons h _ ih =>
    cases k with
    | zero =>
      rw [List.getElem?_cons_zero, Option.some.injEq] at hname hfield
      subst hname hfield
      exact ⟨_, h⟩
    | succ k => exact ih hname hfield

mutual

theorem laid_encodeNode : ∀ {n : Node} {cursor depth : Nat} {d d' : Dictionary} {bs : Bytes},
    Answers (encodeNode cursor depth n) d bs d' →
    ∃ fields, Spells d n.names fields ∧ NodeLaid cursor fields bs n
  | ⟨name, start, stop, children⟩, cursor, depth, d, d', bs, h => by
    cases answers_encodeNode.1 h with
    | leaf _ hname hspan =>
      obtain rfl := learned_encodeName hname
      exact ⟨_, .cons hname .nil, .leaf hspan⟩
    | inner _ hname hspan hchildren hne hheader =>
      obtain rfl := learned_encodeName hname
      obtain ⟨fields, hspells, hlaid⟩ := laid_encodeNodes hchildren
      exact ⟨_, .cons hname hspells, .inner hspan hlaid hne hheader⟩

theorem laid_encodeNodes : ∀ {ns : List Node} {cursor depth : Nat} {d d' : Dictionary}
    {bs : Bytes}, Answers (encodeNodes cursor depth ns) d bs d' →
    ∃ fields, Spells d (Node.namesAll ns) fields ∧ NodesLaid cursor fields bs ns
  | [], _, _, _, _, _, h => by
    obtain ⟨rfl, -⟩ := answers_encodeNodes_nil.1 h
    exact ⟨[], .nil, .nil⟩
  | n :: ns, cursor, depth, d, d', bs, h => by
    obtain ⟨cs, d₁, ds, hcs, hds, rfl⟩ := answers_encodeNodes_cons.1 h
    obtain rfl := learned_encodeNode hcs
    obtain ⟨fields, hspells, hlaid⟩ := laid_encodeNode hcs
    obtain ⟨fields', hspells', hlaid'⟩ := laid_encodeNodes hds
    exact ⟨_, hspells.append hspells', .cons hlaid hlaid'⟩

end

theorem laid_encodeTree (h : Answers (encodeTree t mode) d block d') :
    ∃ fields, Spells d (t.writtenNames mode) fields ∧ BlockLaid mode fields block t := by
  cases mode with
  | written =>
    simp only [encodeTree] at h
    split at h
    · simp at h
    · obtain ⟨fields, hspells, hlaid⟩ := laid_encodeNode h
      exact ⟨fields, hspells, .written hlaid⟩
  | omitted =>
    obtain ⟨fields, hspells, hlaid⟩ := laid_encodeNodes h
    exact ⟨fields, hspells, .omitted hlaid⟩

/-- The names of trees that are written one after the other. -/
def writtenNamesAll (mode : RootMode) (ts : List Tree) : List String :=
  ts.flatMap (Tree.writtenNames mode)

theorem Frames.laid (h : Frames mode d ts bytes d') :
    d' = (writtenNamesAll mode ts).foldl Dictionary.learn d ∧
      ∃ fields, Spells d (writtenNamesAll mode ts) fields ∧ FramesLaid mode fields bytes ts := by
  induction h with
  | nil => exact ⟨rfl, [], .nil, .nil⟩
  | cons h _ ih =>
    obtain rfl := learned_encodeTree h
    obtain ⟨rfl, fields', hspells', hlaid'⟩ := ih
    obtain ⟨fields, hspells, hlaid⟩ := laid_encodeTree h
    refine ⟨?_, _, hspells.append hspells', .cons hlaid hlaid'⟩
    rw [writtenNamesAll, writtenNamesAll, List.flatMap_cons, List.foldl_append]

/-! ## What the names are -/

/-- How the `k`-th name of a sequence is written. -/
structure Compressed (names : List String) (k : Nat) (name : String) (field : Bytes) : Prop where
  /-- By its place among the distinct names, if it is one of the first 64 and has come before. -/
  reference : ∀ i : UInt8, field = [i] ↔
    i.toNat < dictionarySize ∧ names.eraseDups[i.toNat]? = some name ∧ name ∈ names.take k
  /-- Otherwise in full. -/
  full : (∀ i : UInt8, field ≠ [i]) → ∃ lo hi : UInt8, field = lo :: hi :: Utf8.encode name ∧
    64 ≤ lo.toNat ∧ lo.toNat < 128 ∧ (Utf8.encode name).length = fullNameLength lo hi

/-- A name that is written with the first distinct names known. -/
theorem Spells.compressed (h : Spells (.ofCapacity dictionarySize) names fields)
    (hname : names[k]? = some name) (hfield : fields[k]? = some field) :
    Compressed names k name field := by
  obtain ⟨d', hanswers⟩ := h.at hname hfield
  have hfind (i : Nat) := @Dictionary.find_learned dictionarySize i name (names.take k)
    (names.drop k)
  rw [List.take_append_drop] at hfind
  cases (answers_encodeName.1 hanswers).1 with
  | @index j hj =>
    have hlt : j < dictionarySize := ((hfind j).1 hj).1
    have hbyte : (UInt8.ofNat j).toNat = j := by
      simp only [dictionarySize] at hlt
      simp only [UInt8.toNat_ofNat']
      omega
    refine ⟨?_, fun hne => absurd rfl (hne (UInt8.ofNat j))⟩
    intro i
    rw [← hfind, hj, Dictionary.Answer.index.injEq, List.cons.injEq, ← UInt8.toNat_inj, hbyte]
    simp
  | full hne hfull =>
    obtain ⟨lo, hi, rfl, hlo, hlo', hlen⟩ := encodeFullName_eq_ok hfull
    refine ⟨?_, fun _ => ⟨lo, hi, rfl, hlo, hlo', hlen⟩⟩
    intro i
    rw [← hfind]
    constructor
    · intro hsingle
      simp at hsingle
    · intro hi
      exact absurd hi (hne _)

end

/-! ## Runs -/

namespace Session

variable {s : Session} {before setup body : List Action}

theorem capacity_step (s : Session) (action : Action) :
    (s.step action).stream.dict.capacity = s.stream.dict.capacity := by
  cases action with
  | append t =>
    obtain ⟨us, bytes, hwrites, -⟩ := @step_grows s (.append t) (fun _ => True) trivial
    exact hwrites.frames.learns.extends.capacity_eq
  | header | omitRoots | take | terminator | resetDictionary => rfl

theorem capacity_run (s : Session) (actions : List Action) :
    (s.run actions).stream.dict.capacity = s.stream.dict.capacity := by
  induction actions generalizing s with
  | nil => rfl
  | cons action actions ih => rw [run_cons, ih, capacity_step]

/-- Behind a header no name is known, whatever went before. -/
theorem dict_of_header (before : List Action)
    (hsetup : ∀ action ∈ setup, action = .header ∨ action = .omitRoots ∨ action = .take) :
    (fresh.run (before ++ .header :: setup)).stream.dict = .ofCapacity dictionarySize := by
  rw [run_append, run_cons]
  refine (run_setup hsetup ?_).1
  have hcapacity := capacity_run fresh before
  simp only [step, Stream.insertHeader, Dictionary.reset, hcapacity]
  rfl

/-- **How names are written.** Behind a header, which may come after anything, trees are appended
and bytes are taken; trees that are refused may be among them. The bytes written are the frames of
the trees that were accepted, in which each name takes some bytes. The `k`-th name of all these
trees is the single byte `i` exactly if it is the `i`-th distinct one, if `i` is below 64 and if it
has come before; otherwise it is written in full. In the end the first 64 distinct names
are known. -/
theorem names_compressed
    (hsetup : ∀ action ∈ setup, action = .header ∨ action = .omitRoots ∨ action = .take)
    (hbody : ∀ action ∈ body, action.Grows fun _ => True) :
    let s := fresh.run (before ++ .header :: setup)
    ∃ ts bytes fields,
      (s.run body).accepted = s.accepted ++ ts ∧ (s.run body).written = s.written ++ bytes ∧
      FramesLaid s.stream.mode fields bytes ts ∧
      fields.length = (writtenNamesAll s.stream.mode ts).length ∧
      (∀ k name field, (writtenNamesAll s.stream.mode ts)[k]? = some name →
        fields[k]? = some field →
        Compressed (writtenNamesAll s.stream.mode ts) k name field) ∧
      (s.run body).stream.dict.names =
        (writtenNamesAll s.stream.mode ts).eraseDups.take dictionarySize := by
  intro s
  have hdict : s.stream.dict = .ofCapacity dictionarySize := dict_of_header before hsetup
  obtain ⟨ts, bytes, hwrites, -⟩ := run_grows (s := s) hbody
  have hframes := hwrites.frames
  rw [hdict] at hframes
  obtain ⟨hlearned, fields, hspells, hlaid⟩ := hframes.laid
  refine ⟨ts, bytes, fields, hwrites.accepted, hwrites.written, hlaid, hspells.length_eq, ?_, ?_⟩
  · intro k name field hname hfield
    exact hspells.compressed hname hfield
  · rw [hlearned, Dictionary.names_learned]

/-- A tree that comes again behind a header and a tree that is refused: its second name, met before
as the second distinct one, is the byte 1. -/
theorem names_compressed_again :
    let a : Tree := ⟨⟨"a", 0, 0, [⟨"b", 0, 0, []⟩]⟩, []⟩
    let s := fresh.run ([.append a] ++ .header :: [])
    ∃ bytes fields, (s.run [.append a, .append .empty, .append a]).written = s.written ++ bytes ∧
      FramesLaid .written fields bytes [a, a] ∧ fields[3]? = some [1] := by
  intro a s
  have hbody : ∀ action ∈ [Action.append a, .append .empty, .append a],
      action.Grows fun _ => True := by simp [Action.Grows]
  obtain ⟨ts, bytes, fields, haccepted, hwritten, hlaid, hlength, hfields, -⟩ :=
    @names_compressed [.append a] [] _ (by simp) hbody
  have hts : ts = [a, a] := by
    have hboth : (s.run [.append a, .append .empty, .append a]).accepted = s.accepted ++ [a, a] :=
      by decide +kernel
    exact (List.append_cancel_left (hboth.symm.trans haccepted)).symm
  subst hts
  have hnames : writtenNamesAll (fresh.run ([.append a] ++ .header :: [])).stream.mode [a, a] =
      ["a", "b", "a", "b"] := by decide +kernel
  simp only [hnames] at hlength hfields
  have hlt : 3 < fields.length := by rw [hlength]; decide
  have hfield : fields[3]? = some fields[3] := List.getElem?_eq_getElem hlt
  have hthird := (hfields 3 "b" fields[3] rfl hfield).reference 1
  refine ⟨bytes, fields, hwritten, hlaid, ?_⟩
  rw [hfield, hthird.2 (by decide)]

end Session

end SpanTree
