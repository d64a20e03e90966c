import SpanTree.Proofs.Growth
import SpanTree.Proofs.Session

/-!
# Which trees a stream refuses

Each number in a block has a limited width. `Tree.limits` lists what a tree asks of the format, in
the order of the encoding: for each node its depth, its name and its span, then what its children
ask, then the size of its own block. The sizes are counted, without an encoder, under the dictionary
as it stands where a name is met (`Node.known`).

**A stream accepts a tree exactly if all its limits are kept, and otherwise the error is that of the
first one that is broken** (`Session.run_judges`).

The proof follows the encoder with `Checks`, which has a rule for each way in which computations are
put together, as `Answers` and `Fails` have; lists of limits are concatenated along the way. What it
rests on is an invariant of streams in use: a name in the dictionary was spelled out before, and so
it is not too long (`Dictionary.Spelled`).
-/

namespace SpanTree

open Bill

/-! ## Limits -/

/-- What a tree asks of the format. -/
inductive Limit
  /-- A root that is written has a name. -/
  | rootName (root : String)
  | depth (level : Nat)
  /-- A name of so many bytes. -/
  | name (length : Nat)
  /-- The stretch from `start` to `stop`. The previous sibling ends at `cursor`; for a first child,
  the parent starts there. -/
  | span (cursor start stop : Nat)
  /-- The name, the span and the children of a node with children, in so many bytes. -/
  | block (length : Nat)
deriving DecidableEq, Repr

namespace Limit

def Kept : Limit → Prop
  | rootName root => root ≠ ""
  | depth level => level ≤ 512
  | name length => length ≤ 16383
  | span cursor start stop => start - cursor ≤ 16383 ∧ stop - start ≤ 65535
  | block length => length ≤ 32767

def error : Limit → Error
  | rootName _ => .invalidNodeName ""
  | depth _ => .nestingTooDeep 512
  | name length => .nameTooLong length
  | span cursor start stop => .spanOverflow (start - cursor) (stop - start)
  | block length => .childrenBlockTooLarge length

/-- The first limit that is not kept. -/
inductive FirstBroken : List Limit → Limit → Prop
  | here {l : Limit} {ls : List Limit} (h : ¬ l.Kept) : FirstBroken (l :: ls) l
  | later {k l : Limit} {ls : List Limit} (hk : k.Kept) (h : FirstBroken ls l) :
      FirstBroken (k :: ls) l

variable {l l' : Limit} {ls ks : List Limit}

theorem FirstBroken.append_right (h : FirstBroken ls l) (ks : List Limit) :
    FirstBroken (ls ++ ks) l := by
  induction h with
  | here h => exact .here h
  | later hk _ ih => exact .later hk ih

theorem FirstBroken.append_left (hls : ∀ l ∈ ls, l.Kept) (h : FirstBroken ks l) :
    FirstBroken (ls ++ ks) l := by
  induction ls with
  | nil => exact h
  | cons k ls ih => exact .later (hls k (.head _)) (ih fun l hl => hls l (.tail _ hl))

theorem FirstBroken.not_kept (h : FirstBroken ls l) : ¬ ∀ l ∈ ls, l.Kept := by
  intro hls
  induction h with
  | here h => exact h (hls _ (.head _))
  | later _ _ ih => exact ih fun l hl => hls l (.tail _ hl)

theorem FirstBroken.unique (h : FirstBroken ls l) (h' : FirstBroken ls l') : l' = l := by
  induction h with
  | here h =>
    cases h' with
    | here _ => rfl
    | later hk _ => exact absurd hk h
  | later hk _ ih =>
    cases h' with
    | here h => exact absurd hk h
    | later _ h' => exact ih h'

end Limit

/-! ## Sizes -/

/-- A known name takes one byte. -/
def Dictionary.nameSize (d : Dictionary) (name : String) : Nat :=
  if name ∈ d.names then 1 else 2 + (Utf8.encode name).length

def spanSize (skip length : Nat) : Nat :=
  if skip < 8 ∧ length < 16 then 1 else if skip < 64 ∧ length < 256 then 2 else 4

namespace Node

mutual

/-- The dictionary behind a node: its name was met, then those below it. -/
def known (d : Dictionary) : Node → Dictionary
  | ⟨name, _, _, children⟩ => knownAll (d.learn name) children

def knownAll (d : Dictionary) : List Node → Dictionary
  | [] => d
  | n :: ns => knownAll (known d n) ns

end

mutual

/-- How many bytes a node takes. A node with children has a header of two bytes. -/
def size (d : Dictionary) (cursor : Nat) : Node → Nat
  | ⟨name, start, stop, children⟩ =>
    d.nameSize name + spanSize (start - cursor) (stop - start) +
      sizeAll (d.learn name) start children + if children.isEmpty then 0 else 2

def sizeAll (d : Dictionary) (cursor : Nat) : List Node → Nat
  | [] => 0
  | n :: ns => size d cursor n + sizeAll (known d n) n.stop ns

end

mutual

def limits (d : Dictionary) (cursor depth : Nat) : Node → List Limit
  | ⟨name, start, stop, children⟩ =>
    .depth depth :: .name (Utf8.encode name).length :: .span cursor start stop ::
      (limitsAll (d.learn name) start (depth + 1) children ++
        if children.isEmpty then []
        else [.block (d.nameSize name + spanSize (start - cursor) (stop - start) +
          sizeAll (d.learn name) start children)])

def limitsAll (d : Dictionary) (cursor depth : Nat) : List Node → List Limit
  | [] => []
  | n :: ns => limits d cursor depth n ++ limitsAll (known d n) n.stop depth ns

end

end Node

/-- What a tree asks. Where roots are not written, only what lies below counts. -/
def Tree.limits (mode : RootMode) (d : Dictionary) (t : Tree) : List Limit :=
  match mode with
  | .written => .rootName t.rootName :: t.root.limits d t.root.start 0
  | .omitted => Node.limitsAll d t.root.start 1 t.root.children

/-! ## Computations that check limits -/

section Checks

variable {α β : Type} {m : Encoding α} {f : α → Encoding β} {d : Dictionary} {l : Limit}
  {ls ks : List Limit} {Q : α → Dictionary → Prop} {R : β → Dictionary → Prop}

/-- The computation checks the limits one after the other. It answers if all are kept, and otherwise
fails with the error of the first that is broken. -/
inductive Checks (m : Encoding α) (d : Dictionary) (ls : List Limit)
    (Q : α → Dictionary → Prop) : Prop
  | kept {a : α} {d' : Dictionary} (hls : ∀ l ∈ ls, l.Kept) (h : Answers m d a d') (hQ : Q a d')
  | broken {l : Limit} {d' : Dictionary} (hl : l.FirstBroken ls) (h : Fails m d l.error d')

theorem checks_pure {a : α} (h : Q a d) : Checks (pure a) d [] Q :=
  .kept (by simp) (answers_pure.2 ⟨rfl, rfl⟩) h

theorem Checks.bind (h : Checks m d ls Q) (hf : ∀ a d', Q a d' → Checks (f a) d' ks R) :
    Checks (m >>= f) d (ls ++ ks) R := by
  cases h with
  | kept hls h hQ =>
    cases hf _ _ hQ with
    | kept hks h' hR =>
      refine .kept (fun l hl => ?_) (h.bind h') hR
      rcases List.mem_append.1 hl with hl | hl
      · exact hls l hl
      · exact hks l hl
    | broken hl h' => exact .broken (hl.append_left hls) (h.bind_fails h')
  | broken hl h => exact .broken (hl.append_right ks) h.bind

theorem Checks.bind_cons (h : Checks m d [l] Q) (hf : ∀ a d', Q a d' → Checks (f a) d' ls R) :
    Checks (m >>= f) d (l :: ls) R := h.bind hf

/-- Only what comes out counts, wherever the computation began. -/
theorem Checks.of_outcome_eq {m' : Encoding α} {d' : Dictionary} (h : Checks m' d' ls Q)
    (heq : outcome m d = outcome m' d') : Checks m d ls Q := by
  cases h with
  | kept hls h hQ => exact .kept hls (heq.trans h) hQ
  | broken hl h => exact .broken hl (heq.trans h)

theorem Checks.mono {Q' : α → Dictionary → Prop} (h : Checks m d ls Q)
    (hQ : ∀ a d', Q a d' → Q' a d') : Checks m d ls Q' := by
  cases h with
  | kept hls h hQa => exact .kept hls h (hQ _ _ hQa)
  | broken hl h => exact .broken hl h

/-- A limit that is checked before the others. -/
theorem Checks.cons (hkept : l.Kept → Checks m d ls Q)
    (hbroken : ¬ l.Kept → ∃ d', Fails m d l.error d') : Checks m d (l :: ls) Q := by
  by_cases hl : l.Kept
  · cases hkept hl with
    | kept hls h hQ =>
      refine .kept (fun k hk => ?_) h hQ
      rcases List.mem_cons.1 hk with rfl | hk
      · exact hl
      · exact hls k hk
    | broken hk h => exact .broken (.later hl hk) h
  · obtain ⟨d', h⟩ := hbroken hl
    exact .broken (.here hl) h

theorem checks_liftExcept {x : Except Error α} (hkept : l.Kept → ∃ a, x = .ok a ∧ Q a d)
    (hbroken : ¬ l.Kept → x = .error l.error) : Checks (liftExcept x) d [l] Q := by
  refine .cons (fun hl => ?_) fun hl => ⟨d, fails_liftExcept.2 ⟨hbroken hl, rfl⟩⟩
  obtain ⟨a, hx, hQ⟩ := hkept hl
  exact .kept (by simp) (answers_liftExcept.2 ⟨hx, rfl⟩) hQ

end Checks

/-! ## The fields of a node -/

/-- The dictionary of a stream, in which no name is too long to be spelled out. -/
structure Dictionary.Spelled (d : Dictionary) : Prop extends Indexable d where
  length_le : ∀ name ∈ d.names, (Utf8.encode name).length ≤ 16383

namespace Dictionary

variable {d : Dictionary} {name : String}

theorem Spelled.reset (hd : d.Spelled) : d.reset.Spelled :=
  ⟨hd.toIndexable.reset, by simp [Dictionary.reset]⟩

theorem Spelled.learn (hd : d.Spelled) (hname : (Utf8.encode name).length ≤ 16383) :
    (d.learn name).Spelled := by
  refine ⟨(learns_learn d name).indexable hd.toIndexable, ?_⟩
  intro known hknown
  rw [names_learn] at hknown
  split at hknown
  · exact hd.length_le known hknown
  · rcases List.mem_append.1 hknown with hknown | hknown
    · exact hd.length_le known hknown
    · rwa [List.mem_singleton.1 hknown]

theorem find_of_not_mem (h : name ∉ d.names) :
    d.find name = .notFound ∨ d.find name = .overflow := by
  simp only [find, List.idxOf?_eq_none_iff.2 h]
  by_cases hfull : d.isFull = true
  · exact .inr (if_pos hfull)
  · exact .inl (if_neg hfull)

end Dictionary

namespace Bill

variable {d : Dictionary} {name : String} {cursor depth : Nat}

theorem checks_fullName (name : String) (d : Dictionary) :
    Checks (liftExcept (encodeFullName name)) d [.name (Utf8.encode name).length] fun bs d' =>
      (Utf8.encode name).length ≤ 16383 ∧ bs.length = 2 + (Utf8.encode name).length ∧ d' = d := by
  refine checks_liftExcept (fun hkept => ?_) fun hbroken => ?_
  · obtain ⟨bs, hbs, hlen⟩ := encodeFullName_of_le hkept
    exact ⟨bs, hbs, hkept, by omega, rfl⟩
  · have hlong : maxNameLength < (Utf8.encode name).length := Nat.lt_of_not_le hbroken
    simp only [encodeFullName, if_pos hlong]
    rfl

theorem checks_name (hd : d.Spelled) (name : String) :
    Checks (encodeName name) d [.name (Utf8.encode name).length] fun bs d' =>
      bs.length = d.nameSize name ∧ d' = d.learn name ∧ d'.Spelled := by
  by_cases hname : name ∈ d.names
  · -- a known name is not looked at again: it was short enough when it was spelled out
    obtain ⟨i, hfind⟩ := Dictionary.mem_names_iff.1 hname
    have hsame := (Dictionary.learn_of_mem hname).symm
    have hanswers := answers_encodeName.2 ⟨.index hfind (hd.find_lt hfind), hsame⟩
    refine .kept ?_ hanswers ⟨?_, hsame, hd⟩
    · intro l hl
      rw [List.mem_singleton.1 hl]
      exact hd.length_le name hname
    · simp [Dictionary.nameSize, hname]
  · have hsize : d.nameSize name = 2 + (Utf8.encode name).length := if_neg hname
    rcases Dictionary.find_of_not_mem hname with hfind | hfind
    · have hrun : outcome (encodeName name) d =
          outcome (liftExcept (encodeFullName name)) (d.learn name) := by
        rw [encodeName, outcome_bind, outcome_get]
        simp only [hfind]
        rfl
      refine ((checks_fullName name _).of_outcome_eq hrun).mono ?_
      rintro bs d' ⟨hle, hlen, rfl⟩
      exact ⟨hlen.trans hsize.symm, rfl, hd.learn hle⟩
    · have hrun : outcome (encodeName name) d =
          outcome (liftExcept (encodeFullName name)) d := by
        rw [encodeName, outcome_bind, outcome_get]
        simp only [hfind]
      refine ((checks_fullName name _).of_outcome_eq hrun).mono ?_
      rintro bs d' ⟨-, hlen, rfl⟩
      exact ⟨hlen.trans hsize.symm, (Dictionary.learn_of_find_overflow hfind).symm, hd⟩

theorem checks_span (cursor start stop : Nat) (d : Dictionary) :
    Checks (liftExcept (encodeSpan (start - cursor) (stop - start))) d [.span cursor start stop]
      fun bs d' => bs.length = spanSize (start - cursor) (stop - start) ∧ d' = d := by
  refine checks_liftExcept (fun hkept => ?_) fun hbroken => ?_
  · have hwide : start - cursor ≤ maxSkip ∧ stop - start ≤ maxSpanLength := hkept
    unfold encodeSpan spanSize
    by_cases hshort : start - cursor < 8 ∧ stop - start < 16
    · simp [hshort]
    · by_cases hmedium : start - cursor < 64 ∧ stop - start < 256
      · simp [hshort, hmedium]
      · simp [hshort, hmedium, hwide]
  · have hwide : ¬ (start - cursor ≤ maxSkip ∧ stop - start ≤ maxSpanLength) := hbroken
    have hshort : ¬ (start - cursor < 8 ∧ stop - start < 16) := by
      simp only [maxSkip, maxSpanLength] at hwide
      omega
    have hmedium : ¬ (start - cursor < 64 ∧ stop - start < 256) := by
      simp only [maxSkip, maxSpanLength] at hwide
      omega
    rw [encodeSpan, if_neg hshort, if_neg hmedium, if_neg hwide]
    rfl

theorem checks_header (length : Nat) (d : Dictionary) :
    Checks (liftExcept (encodeChildrenHeader length)) d [.block length]
      fun bs d' => bs.length = 2 ∧ d' = d := by
  refine checks_liftExcept (fun hkept => ?_) fun hbroken => ?_
  · obtain ⟨bs, hbs, hlen⟩ := encodeChildrenHeader_of_le hkept
    exact ⟨bs, hbs, hlen, rfl⟩
  · have hlong : maxBlockLength < length := Nat.lt_of_not_le hbroken
    rw [encodeChildrenHeader, if_pos hlong]
    rfl

/-! ## Nodes -/

mutual

theorem checks_node : ∀ (n : Node) (d : Dictionary) (cursor depth : Nat), d.Spelled →
    Checks (encodeNode cursor depth n) d (n.limits d cursor depth) fun bs d' =>
      bs.length = n.size d cursor ∧ d' = n.known d ∧ d'.Spelled
  | ⟨name, start, stop, children⟩, d, cursor, depth, hd => by
    rw [encodeNode, Node.limits]
    refine .cons (fun hdepth => ?_) fun hdepth => ?_
    · have hle : ¬ maxDepth < depth := Nat.not_lt.2 hdepth
      rw [if_neg hle]
      refine (checks_name hd name).bind_cons ?_
      rintro nameBytes d₁ ⟨hname, rfl, hd₁⟩
      refine (checks_span cursor start stop _).bind_cons ?_
      rintro spanBytes d₂ ⟨hspan, rfl⟩
      refine (checks_nodes children _ start (depth + 1) hd₁).bind ?_
      rintro inner d₃ ⟨hinner, rfl, hd₃⟩
      have hcontent : (nameBytes ++ spanBytes ++ inner).length = d.nameSize name +
          spanSize (start - cursor) (stop - start) +
            Node.sizeAll (d.learn name) start children := by
        rw [List.length_append, List.length_append, hname, hspan, hinner]
      by_cases hleaf : children.isEmpty = true
      · simp only [if_pos hleaf]
        refine checks_pure ⟨?_, rfl, hd₃⟩
        rw [hcontent, Node.size, if_pos hleaf, Nat.add_zero]
      · simp only [if_neg hleaf, ← hcontent]
        refine (checks_header _ _).bind_cons ?_
        rintro header d₄ ⟨hheader, rfl⟩
        refine checks_pure ⟨?_, rfl, hd₃⟩
        rw [List.length_append, hheader, hcontent, Node.size, if_neg hleaf, Nat.add_comm]
    · have hlt : maxDepth < depth := Nat.lt_of_not_le hdepth
      rw [if_pos hlt]
      exact ⟨d, Fails.bind (fails_throw.2 ⟨rfl, rfl⟩)⟩

theorem checks_nodes : ∀ (ns : List Node) (d : Dictionary) (cursor depth : Nat), d.Spelled →
    Checks (encodeNodes cursor depth ns) d (Node.limitsAll d cursor depth ns) fun bs d' =>
      bs.length = Node.sizeAll d cursor ns ∧ d' = Node.knownAll d ns ∧ d'.Spelled
  | [], d, _, _, hd => checks_pure ⟨rfl, rfl, hd⟩
  | n :: ns, d, cursor, depth, hd => by
    rw [encodeNodes, Node.limitsAll]
    refine (checks_node n d cursor depth hd).bind ?_
    rintro first d₁ ⟨hfirst, rfl, hd₁⟩
    rw [← List.append_nil (Node.limitsAll _ _ _ _)]
    refine (checks_nodes ns _ n.stop depth hd₁).bind ?_
    rintro rest d₂ ⟨hrest, rfl, hd₂⟩
    refine checks_pure ⟨?_, rfl, hd₂⟩
    rw [List.length_append, hfirst, hrest, Node.sizeAll]

end

/-- **A block is written if all limits of the tree are kept**, and otherwise the first one that is
broken stops it. -/
theorem checks_tree (t : Tree) (mode : RootMode) {d : Dictionary} (hd : d.Spelled) :
    Checks (encodeTree t mode) d (t.limits mode d) fun _ d' => d'.Spelled := by
  cases mode with
  | written =>
    refine .cons (fun hname => ?_) fun hname => ?_
    · have hne : ¬ t.rootName.isEmpty = true := by simpa [Limit.Kept] using hname
      rw [encodeTree, if_neg hne]
      exact (checks_node t.root d t.root.start 0 hd).mono fun _ _ h => h.2.2
    · have hempty : t.rootName.isEmpty = true := by simpa [Limit.Kept] using hname
      rw [encodeTree, if_pos hempty]
      exact ⟨d, fails_throw.2 ⟨rfl, rfl⟩⟩
  | omitted => exact (checks_nodes t.root.children d t.root.start 1 hd).mono fun _ _ h => h.2.2

end Bill

/-! ## Spans in place -/

/-- Skip and length are true differences. -/
def Limit.InPlace : Limit → Prop
  | span cursor start stop => cursor ≤ start ∧ start ≤ stop
  | _ => True

namespace Node

mutual

theorem inPlace_limits : ∀ {n : Node} {cursor hi : Nat}, n.fits cursor hi = true →
    ∀ (d : Dictionary) (depth : Nat), ∀ l ∈ n.limits d cursor depth, l.InPlace
  | ⟨name, start, stop, children⟩, cursor, hi, h, d, depth => by
    obtain ⟨hstart, -, hstop, hchildren⟩ := fits_iff.1 h
    intro l hl
    rw [limits] at hl
    simp only [List.mem_cons, List.mem_append] at hl
    rcases hl with rfl | rfl | rfl | hl | hl
    · trivial
    · trivial
    · exact ⟨hstart, hstop⟩
    · exact inPlace_limitsAll hchildren _ _ l hl
    · split at hl
      · cases hl
      · rw [List.mem_singleton.1 hl]
        trivial

theorem inPlace_limitsAll : ∀ {ns : List Node} {cursor hi : Nat}, fitsAll cursor hi ns = true →
    ∀ (d : Dictionary) (depth : Nat), ∀ l ∈ limitsAll d cursor depth ns, l.InPlace
  | [], _, _, _, _, _ => by simp [limitsAll]
  | n :: ns, cursor, hi, h, d, depth => by
    simp only [fitsAll, Bool.and_eq_true] at h
    intro l hl
    rw [limitsAll] at hl
    rcases List.mem_append.1 hl with hl | hl
    · exact inPlace_limits h.1 d depth l hl
    · exact inPlace_limitsAll h.2 _ depth l hl

end

end Node

theorem Tree.inPlace_limits {t : Tree} (ht : t.isValid = true) (mode : RootMode) (d : Dictionary) :
    ∀ l ∈ t.limits mode d, l.InPlace := by
  obtain ⟨hstart, hstop, hchildren⟩ := isValid_iff.1 ht
  have hfits := fits_of_isValid ht
  intro l hl
  cases mode with
  | written =>
    rw [Tree.limits, hstart] at hl
    rcases List.mem_cons.1 hl with rfl | hl
    · trivial
    · exact Node.inPlace_limits hfits d 0 l hl
  | omitted =>
    rw [Tree.limits, hstart] at hl
    exact Node.inPlace_limitsAll hchildren d 1 l hl

/-! ## Streams -/

namespace Stream

variable {s : Stream} {t : Tree}

/-- What a stream makes of a tree. -/
structure Judges (s : Stream) (t : Tree) : Prop where
  /-- It accepts the tree if all limits are kept, and only then. -/
  accepts_iff : (s.append t).result = .ok () ↔ ∀ l ∈ t.limits s.mode s.dict, l.Kept
  /-- The error is that of the first limit that is broken. -/
  refuses_iff : ∀ e, (s.append t).result = .error e ↔
    ∃ l, Limit.FirstBroken (t.limits s.mode s.dict) l ∧ e = l.error
  /-- Skips and lengths are true differences. -/
  inPlace : ∀ l ∈ t.limits s.mode s.dict, l.InPlace

theorem judges (hs : s.dict.Spelled) (ht : t.isValid = true) : s.Judges t := by
  have hchecks := checks_tree t s.mode hs
  have hplaced := t.inPlace_limits ht s.mode s.dict
  cases hchecks with
  | kept hls h hQ =>
    have hresult := (append_of_answers h).1
    refine ⟨iff_of_true hresult hls, fun e => iff_of_false ?_ ?_, hplaced⟩
    · simp [hresult]
    · rintro ⟨l, hl, -⟩
      exact hl.not_kept hls
  | @broken l d' hl h =>
    have hresult := (append_of_fails h).1
    refine ⟨iff_of_false ?_ hl.not_kept, fun e => ?_, hplaced⟩
    · simp [hresult]
    · rw [hresult]
      constructor
      · intro he
        exact ⟨l, hl, (Except.error.inj he).symm⟩
      · rintro ⟨l', hl', rfl⟩
        rw [hl.unique hl']

theorem spelled_append (hs : s.dict.Spelled) (t : Tree) : (s.append t).state.dict.Spelled := by
  cases checks_tree t s.mode hs with
  | kept _ h hQ =>
    rw [(append_of_answers h).2]
    exact hQ
  | broken _ h => rwa [(append_of_fails h).2]

end Stream

namespace Session

open SpanTree.Stream (Action)

variable {s : Session}

theorem spelled_step (hs : s.stream.dict.Spelled) (action : Action) :
    (s.step action).stream.dict.Spelled := by
  cases action with
  | header => exact hs.reset
  | resetDictionary => exact hs.reset
  | omitRoots => exact hs
  | terminator => exact hs
  | take => exact hs
  | append t =>
    have happend := Stream.spelled_append hs t
    simp only [step]
    split
    · exact happend
    · exact happend

/-- In every stream in use, the names of the dictionary were spelled out. -/
theorem spelled_run (hs : s.stream.dict.Spelled) (actions : List Action) :
    (s.run actions).stream.dict.Spelled := by
  induction actions generalizing s with
  | nil => exact hs
  | cons action actions ih => exact ih (spelled_step hs action)

/-- **Exactly which trees a stream refuses, and why.** -/
theorem run_judges {t : Tree} (ht : t.Made) (actions : List Action) :
    (fresh.run actions).stream.Judges t := by
  have hfresh : fresh.stream.dict.Spelled :=
    ⟨Dictionary.indexable_ofCapacity, by simp [fresh, Stream.empty, Dictionary.ofCapacity]⟩
  exact Stream.judges (spelled_run hfresh actions) ht.wellFormed.isValid

/-- A tree with one child, which is accepted, and a nameless one. -/
theorem run_judges_one_child :
    let s := (fresh.run [.header]).stream
    let t : Tree := ⟨⟨"$", 0, 2, [⟨"a", 0, 2, []⟩]⟩, [104, 105]⟩
    t.Made ∧ t.limits s.mode s.dict = [.rootName "$", .depth 0, .name 1, .span 0 0 2, .depth 1,
      .name 1, .span 0 0 2, .block 8] ∧
    (s.append t).result = .ok () ∧
      (s.append Tree.empty).result = .error (.invalidNodeName "") := by
  intro s t
  have hmade : t.Made :=
    .push (@Tree.Made.named "$" _ rfl) (.appendBytes (@Tree.Made.named "a" _ rfl) [104, 105])
  have hlimits : t.limits s.mode s.dict = [.rootName "$", .depth 0, .name 1, .span 0 0 2,
      .depth 1, .name 1, .span 0 0 2, .block 8] := by decide
  refine ⟨hmade, hlimits, (run_judges hmade [.header]).accepts_iff.2 ?_,
    ((run_judges .empty [.header]).refuses_iff _).2 ⟨.rootName "", .here ?_, rfl⟩⟩
  · rw [hlimits]
    simp [Limit.Kept]
  · intro hname
    exact hname rfl

end Session

end SpanTree
