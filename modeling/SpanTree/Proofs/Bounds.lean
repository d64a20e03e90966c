import SpanTree.Proofs.Growth
import SpanTree.Proofs.Indexed
import SpanTree.Tree.Lorth
import SpanTree.Tree.Python

/-!
# Rendering and encoding by index

Rendering takes slices of the buffer at the spans of the nodes, and encoding subtracts the ends of
spans from each other. The functions here do this with checks: a slice that does not lie in the
buffer and a difference that is negative come to nothing. The encoder moreover has one buffer for
the whole block: the header of a node is left open until all that it counts is written, and is then
filled in at its place.

**On a valid tree no check fails** (`Tree.inRange`): everything comes to what the functions without
checks answer. Nodes are taken with the stretch that they have at their disposal, and the induction
follows `Node.fits`.
-/

namespace SpanTree

open Bill

namespace Indexed

open Checked (access)

variable {raw : Bytes} {level lo hi cursor i j : Nat}

/-! ## Slices -/

/-- The bytes that a node names. -/
def text? (raw : Bytes) (n : Node) : Option Bytes := slice? raw n.start n.stop

theorem slice?_of_le (hij : i ≤ j) (hj : j ≤ raw.length) :
    slice? raw i j = some (raw.extract i j) := by
  rw [slice?, if_pos ⟨hij, hj⟩, List.extract_eq_take_drop, List.drop_take]

theorem difference?_of_le (h : j ≤ i) : difference? i j = some (i - j) := if_pos h

/-! ## Rendering -/

/-- The text between two children. Where they touch, nothing is looked at. -/
def gap? (raw : Bytes) (level cursor stop : Nat) : Option (List (Nat × Lorth.Line)) :=
  if cursor = stop then some []
  else (slice? raw cursor stop).map fun bs => [(level, .literal bs)]

mutual

def lorthLines? (raw : Bytes) (level : Nat) : Node → Option (List (Nat × Lorth.Line))
  | ⟨name, start, stop, []⟩ => do
    let bs ← slice? raw start stop
    return [(level, .word name bs)]
  | ⟨name, start, stop, child :: children⟩ => do
    let body ← lorthBody? raw level start stop (child :: children)
    return (level, .opening name) :: (body ++ [(level, .closing)])

def lorthBody? (raw : Bytes) (level cursor stop : Nat) :
    List Node → Option (List (Nat × Lorth.Line))
  | [] => gap? raw level cursor stop
  | n :: ns => do
    let before ← gap? raw level cursor n.start
    let inner ← lorthLines? raw (level + 1) n
    let behind ← lorthBody? raw level n.stop stop ns
    return before ++ inner ++ behind

end

def ownText? (raw : Bytes) (cursor stop : Nat) : List Node → Option Bytes
  | [] => slice? raw cursor stop
  | n :: ns => do
    let before ← slice? raw cursor n.start
    let behind ← ownText? raw n.stop stop ns
    return before ++ behind

def pythonHead? (raw : Bytes) (isItem : Bool) (n : Node) : Option Python.Head := do
  let own ← ownText? raw n.start n.stop n.children
  return ⟨if isItem then none else some n.name, own, Name.isArray n.name⟩

mutual

def pythonLines? (raw : Bytes) (level : Nat) (isItem : Bool) :
    Node → Option (List (Nat × Python.Line))
  | ⟨name, start, stop, []⟩ => do
    let head ← pythonHead? raw isItem ⟨name, start, stop, []⟩
    return [(level, .leaf head)]
  | ⟨name, start, stop, child :: children⟩ => do
    let head ← pythonHead? raw isItem ⟨name, start, stop, child :: children⟩
    let inner ← pythonLinesAll? raw (level + 1) (Name.isArray name) (child :: children)
    return (level, .opening head)
      :: (inner ++ [(level, .closingItems (Name.isArray name)), (level, .closing)])

def pythonLinesAll? (raw : Bytes) (level : Nat) (areItems : Bool) :
    List Node → Option (List (Nat × Python.Line))
  | [] => some []
  | n :: ns => do
    let first ← pythonLines? raw level areItems n
    let rest ← pythonLinesAll? raw level areItems ns
    return first ++ rest

end

theorem gap?_of_le (hij : i ≤ j) (hj : j ≤ raw.length) :
    gap? raw level i j = some (Lorth.gap level (raw.extract i j)) := by
  unfold gap?
  by_cases heq : i = j
  · rw [if_pos heq, List.extract_eq_take_drop, heq, Nat.sub_self]
    rfl
  · rw [if_neg heq, slice?_of_le hij hj]
    have hlen : 0 < (raw.extract i j).length := by
      rw [List.extract_eq_take_drop, List.length_take, List.length_drop]
      omega
    cases hbs : raw.extract i j with
    | nil => simp [hbs] at hlen
    | cons b bs => rfl

mutual

theorem lorthLines?_of_fits : ∀ (n : Node) (level lo hi : Nat), n.fits lo hi = true →
    hi ≤ raw.length → lorthLines? raw level n = some (Lorth.lines raw level n)
  | ⟨name, start, stop, []⟩, level, lo, hi, hfits, hhi => by
    obtain ⟨-, hstop, hle, -⟩ := Node.fits_iff.1 hfits
    have hbs := slice?_of_le hle (Nat.le_trans hstop hhi)
    rw [lorthLines?, Lorth.lines, hbs]
    rfl
  | ⟨name, start, stop, child :: children⟩, level, lo, hi, hfits, hhi => by
    obtain ⟨-, hstop, hle, hkids⟩ := Node.fits_iff.1 hfits
    have hbody := lorthBody?_of_fitsAll (child :: children) level start stop hkids hle
      (Nat.le_trans hstop hhi)
    rw [lorthLines?, Lorth.lines, hbody]
    rfl

theorem lorthBody?_of_fitsAll : ∀ (ns : List Node) (level cursor hi : Nat),
    Node.fitsAll cursor hi ns = true → cursor ≤ hi → hi ≤ raw.length →
    lorthBody? raw level cursor hi ns = some (Lorth.body raw level cursor hi ns)
  | [], level, cursor, hi, _, hle, hhi => by
    rw [lorthBody?, Lorth.body, gap?_of_le hle hhi]
  | n :: ns, level, cursor, hi, hfits, hle, hhi => by
    simp only [Node.fitsAll, Bool.and_eq_true] at hfits
    obtain ⟨hstart, hstop, hspan, -⟩ := Node.fits_iff.1 hfits.1
    have hgap : gap? raw level cursor n.start = _ := gap?_of_le hstart (by omega)
    have hn := lorthLines?_of_fits n (level + 1) cursor hi hfits.1 hhi
    have hns := lorthBody?_of_fitsAll ns level n.stop hi hfits.2 hstop hhi
    rw [lorthBody?, Lorth.body, hgap, hn, hns]
    rfl

end

theorem ownText?_of_fitsAll {ns : List Node} (hfits : Node.fitsAll cursor hi ns = true)
    (hle : cursor ≤ hi) (hhi : hi ≤ raw.length) :
    ownText? raw cursor hi ns = some (Python.ownText raw cursor hi ns) := by
  induction ns generalizing cursor with
  | nil => rw [ownText?, Python.ownText, slice?_of_le hle hhi]
  | cons n ns ih =>
    simp only [Node.fitsAll, Bool.and_eq_true] at hfits
    obtain ⟨hstart, hstop, hspan, -⟩ := Node.fits_iff.1 hfits.1
    have hbefore : slice? raw cursor n.start = _ := slice?_of_le hstart (by omega)
    rw [ownText?, Python.ownText, hbefore, ih hfits.2 hstop]
    rfl

theorem pythonHead?_of_fits {n : Node} {isItem : Bool} (hfits : n.fits lo hi = true)
    (hhi : hi ≤ raw.length) :
    pythonHead? raw isItem n = some (Python.head raw isItem n) := by
  obtain ⟨-, hstop, hle, hkids⟩ := Node.fits_iff.1 hfits
  rw [pythonHead?, Python.head, ownText?_of_fitsAll hkids hle (Nat.le_trans hstop hhi)]
  rfl

mutual

theorem pythonLines?_of_fits : ∀ (n : Node) (level lo hi : Nat) (isItem : Bool),
    n.fits lo hi = true → hi ≤ raw.length →
    pythonLines? raw level isItem n = some (Python.lines raw level isItem n)
  | ⟨name, start, stop, []⟩, level, lo, hi, isItem, hfits, hhi => by
    rw [pythonLines?, Python.lines, pythonHead?_of_fits hfits hhi]
    rfl
  | ⟨name, start, stop, child :: children⟩, level, lo, hi, isItem, hfits, hhi => by
    obtain ⟨-, hstop, -, hkids⟩ := Node.fits_iff.1 hfits
    have hinner := pythonLinesAll?_of_fitsAll (child :: children) (level + 1) start stop
      (Name.isArray name) hkids (Nat.le_trans hstop hhi)
    rw [pythonLines?, Python.lines, pythonHead?_of_fits hfits hhi, hinner]
    rfl

theorem pythonLinesAll?_of_fitsAll : ∀ (ns : List Node) (level lo hi : Nat) (areItems : Bool),
    Node.fitsAll lo hi ns = true → hi ≤ raw.length →
    pythonLinesAll? raw level areItems ns = some (Python.linesAll raw level areItems ns)
  | [], _, _, _, _, _, _ => rfl
  | n :: ns, level, lo, hi, areItems, hfits, hhi => by
    simp only [Node.fitsAll, Bool.and_eq_true] at hfits
    have hn := pythonLines?_of_fits n level lo hi areItems hfits.1 hhi
    have hns := pythonLinesAll?_of_fitsAll ns level n.stop hi areItems hfits.2 hhi
    rw [pythonLinesAll?, Python.linesAll, hn, hns]
    rfl

end

mutual

theorem text?_of_fits : ∀ (n : Node) (depth lo hi : Nat), n.fits lo hi = true →
    hi ≤ raw.length → ∀ x ∈ n.preorder depth, text? raw x.2 = some (x.2.text raw)
  | ⟨name, start, stop, children⟩, depth, lo, hi, hfits, hhi, x, hx => by
    obtain ⟨-, hstop, hle, hkids⟩ := Node.fits_iff.1 hfits
    rw [Node.preorder] at hx
    rcases List.mem_cons.1 hx with rfl | hx
    · exact slice?_of_le hle (Nat.le_trans hstop hhi)
    · exact text?_of_fitsAll children (depth + 1) start stop hkids (Nat.le_trans hstop hhi) x hx

theorem text?_of_fitsAll : ∀ (ns : List Node) (depth lo hi : Nat),
    Node.fitsAll lo hi ns = true → hi ≤ raw.length →
    ∀ x ∈ Node.preorderAll depth ns, text? raw x.2 = some (x.2.text raw)
  | [], _, _, _, _, _, x, hx => by cases hx
  | n :: ns, depth, lo, hi, hfits, hhi, x, hx => by
    simp only [Node.fitsAll, Bool.and_eq_true] at hfits
    rw [Node.preorderAll] at hx
    rcases List.mem_append.1 hx with hx | hx
    · exact text?_of_fits n depth lo hi hfits.1 hhi x hx
    · exact text?_of_fitsAll ns depth n.stop hi hfits.2 hhi x hx

end

/-! ## Encoding into one buffer -/

/-- What the encoder holds: the names, and the bytes of the block so far. -/
structure Sheet where
  dict : Dictionary
  out : Bytes

def write (bs : Bytes) : Checked Sheet Unit := modify fun s => { s with out := s.out ++ bs }

/-- An encoding is done with the names and put behind the bytes. -/
def writing (m : Encoding Bytes) : Checked Sheet Unit := ExceptT.mk fun s =>
  match outcome m s.dict with
  | (.ok bs, dict) => some (.ok (), ⟨dict, s.out ++ bs⟩)
  | (.error e, dict) => some (.error e, ⟨dict, s.out⟩)

/-- Bytes in the place of those at the position. -/
def patch (i : Nat) (bs : Bytes) : Checked Sheet Unit := do
  let s ← get
  let before ← access (slice? s.out 0 i)
  let behind ← access (slice? s.out (i + bs.length) s.out.length)
  set { s with out := before ++ bs ++ behind }

/-- The header counts the bytes behind it, and is filled in when they are written. -/
def underHeader (content : Checked Sheet Unit) : Checked Sheet Unit := do
  let headerAt := (← get).out.length
  write [0, 0]
  content
  let fromHeader ← access (difference? (← get).out.length headerAt)
  let length ← access (difference? fromHeader 2)
  let header ← liftExcept (encodeChildrenHeader length)
  patch headerAt header

def writeHead (name : String) (cursor start stop : Nat) : Checked Sheet Unit := do
  writing (encodeName name)
  let skip ← access (difference? start cursor)
  let length ← access (difference? stop start)
  writing (liftExcept (encodeSpan skip length))

mutual

def writeNode (cursor depth : Nat) : Node → Checked Sheet Unit
  | ⟨name, start, stop, children⟩ =>
    let content := do
      writeHead name cursor start stop
      writeNodes start (depth + 1) children
    if maxDepth < depth then throw (.nestingTooDeep maxDepth)
    else if children.isEmpty then content
    else underHeader content

def writeNodes (cursor depth : Nat) : List Node → Checked Sheet Unit
  | [] => return
  | n :: ns => do
    writeNode cursor depth n
    writeNodes n.stop depth ns

end

def writeTree (t : Tree) (mode : RootMode) : Checked Sheet Unit :=
  match mode with
  | .written =>
    if t.rootName.isEmpty then throw (.invalidNodeName "") else writeNode t.root.start 0 t.root
  | .omitted => writeNodes t.root.start 1 t.root.children

/-! ## Writing is encoding -/

variable {w w' : Checked Sheet Unit} {m m' : Encoding Bytes} {s : Sheet} {out : Bytes}
  {d : Dictionary}

/-- The writer puts behind the bytes what the encoding answers, and fails where it fails. -/
structure Puts (w : Checked Sheet Unit) (m : Encoding Bytes) (s : Sheet) : Prop where
  answers : ∀ {bs d}, Answers m s.dict bs d → w.run.run s = some (.ok (), ⟨d, s.out ++ bs⟩)
  fails : ∀ {e d}, Fails m s.dict e d → ∃ out, w.run.run s = some (.error e, ⟨d, out⟩)

theorem run_bind {α β : Type} (w : Checked Sheet α) (f : α → Checked Sheet β) (s : Sheet) :
    (w >>= f).run.run s =
      match w.run.run s with
      | none => none
      | some (.ok a, s') => (f a).run.run s'
      | some (.error e, s') => some (.error e, s') := by
  show (w.run.run s).bind _ = _
  rcases w.run.run s with _ | ⟨_ | _, _⟩ <;> rfl

theorem run_access_bind {α β : Type} {x : Option α} {a : α} {f : α → Checked Sheet β}
    (hx : x = some a) : (access x >>= f).run.run s = (f a).run.run s := by
  subst hx
  rfl

theorem puts_writing : Puts (writing m) m s := by
  have hrun : (writing m).run.run s =
      match outcome m s.dict with
      | (.ok bs, dict) => some (.ok (), ⟨dict, s.out ++ bs⟩)
      | (.error e, dict) => some (.error e, ⟨dict, s.out⟩) := rfl
  constructor
  · intro bs d h
    rw [hrun, h]
  · intro e d h
    exact ⟨s.out, by rw [hrun, h]⟩

theorem puts_throw {e : Error} : Puts (throw e) (throw e) s := by
  constructor
  · intro bs d h
    exact absurd h answers_throw
  · intro e' d h
    obtain ⟨rfl, rfl⟩ := fails_throw.1 h
    exact ⟨s.out, rfl⟩

theorem puts_nothing : Puts (pure ()) (pure []) s := by
  constructor
  · intro bs d h
    obtain ⟨rfl, rfl⟩ := answers_pure.1 h
    rw [List.append_nil]
    rfl
  · intro e d h
    cases h

/-- One writer after the other puts down both encodings. -/
theorem Puts.append (h : Puts w m s)
    (h' : ∀ bs d, Answers m s.dict bs d → Puts w' m' ⟨d, s.out ++ bs⟩) :
    Puts (w >>= fun _ => w') (do let bs ← m; let cs ← m'; return bs ++ cs) s := by
  constructor
  · intro bs d hboth
    obtain ⟨bs, d₁, hfirst, hboth⟩ := answers_bind.1 hboth
    obtain ⟨cs, d₂, hsecond, hboth⟩ := answers_bind.1 hboth
    obtain ⟨rfl, rfl⟩ := answers_pure.1 hboth
    rw [run_bind, h.answers hfirst, ← List.append_assoc]
    exact (h' bs d₁ hfirst).answers hsecond
  · intro e d hboth
    rcases fails_bind.1 hboth with hfirst | ⟨bs, d₁, hfirst, hboth⟩
    · obtain ⟨out, hrun⟩ := h.fails hfirst
      exact ⟨out, by rw [run_bind, hrun]⟩
    · rcases fails_bind.1 hboth with hsecond | ⟨cs, d₂, hsecond, hboth⟩
      · obtain ⟨out, hrun⟩ := (h' bs d₁ hfirst).fails hsecond
        exact ⟨out, by rw [run_bind, h.answers hfirst, ← hrun]⟩
      · cases hboth

theorem run_patch {header old content : Bytes} (hlen : header.length = old.length) :
    (patch out.length header).run.run ⟨d, out ++ (old ++ content)⟩ =
      some (.ok (), ⟨d, out ++ (header ++ content)⟩) := by
  have hbefore : slice? (out ++ (old ++ content)) 0 out.length = some out := by
    rw [slice?_of_le (Nat.zero_le _) (by simp), List.extract_eq_take_drop]
    simp
  have hbehind : slice? (out ++ (old ++ content)) (out.length + header.length)
      (out ++ (old ++ content)).length = some content := by
    rw [slice?, if_pos (by simp; omega), List.take_length, hlen, ← List.append_assoc,
      ← List.length_append, List.drop_left]
  show ((do
    let before ← access (slice? (out ++ (old ++ content)) 0 out.length)
    let behind ← access (slice? (out ++ (old ++ content)) (out.length + header.length)
      (out ++ (old ++ content)).length)
    set (⟨d, before ++ header ++ behind⟩ : Sheet)) : Checked Sheet Unit).run.run _ = _
  rw [run_access_bind hbefore, run_access_bind hbehind, List.append_assoc]
  rfl

/-- What is written under a header lies behind it, and the header counts it. -/
theorem Puts.underHeader (h : Puts w m ⟨s.dict, s.out ++ [0, 0]⟩) :
    Puts (underHeader w)
      (do let content ← m
          return (← liftExcept (encodeChildrenHeader content.length)) ++ content) s := by
  have hopen : (Indexed.underHeader w).run.run s =
      (w >>= fun _ => do
        let fromHeader ← access (difference? (← get).out.length s.out.length)
        let length ← access (difference? fromHeader 2)
        let header ← liftExcept (encodeChildrenHeader length)
        patch s.out.length header).run.run ⟨s.dict, s.out ++ [0, 0]⟩ := rfl
  -- when the content is written, the bytes from the header on are the header and the content
  have hclose : ∀ {content d}, Answers m s.dict content d →
      (Indexed.underHeader w).run.run s =
        (liftExcept (encodeChildrenHeader content.length) >>= patch s.out.length :
          Checked Sheet Unit).run.run ⟨d, s.out ++ ([0, 0] ++ content)⟩ := by
    intro content d hm
    rw [hopen, run_bind, h.answers hm, List.append_assoc]
    have hfrom : difference? (s.out ++ ([0, 0] ++ content)).length s.out.length =
        some (2 + content.length) := by
      rw [difference?_of_le (by simp)]
      simp
      omega
    have hlength : difference? (2 + content.length) 2 = some content.length := by
      rw [difference?_of_le (by omega), Nat.add_sub_cancel_left]
    show (access (difference? (s.out ++ ([0, 0] ++ content)).length s.out.length)
      >>= _).run.run _ = _
    rw [run_access_bind hfrom, run_access_bind hlength]
  constructor
  · intro bs d hboth
    obtain ⟨content, d₁, hm, hboth⟩ := answers_bind.1 hboth
    obtain ⟨header, d₂, hlift, hboth⟩ := answers_bind.1 hboth
    obtain ⟨hheader, rfl⟩ := answers_liftExcept.1 hlift
    obtain ⟨rfl, rfl⟩ := answers_pure.1 hboth
    have hlen : header.length = [(0 : UInt8), 0].length := by
      unfold encodeChildrenHeader at hheader
      split at hheader <;> cases hheader
      rfl
    rw [hclose hm, hheader]
    exact run_patch hlen
  · intro e d hboth
    rcases fails_bind.1 hboth with hm | ⟨content, d₁, hm, hboth⟩
    · obtain ⟨out, hrun⟩ := h.fails hm
      exact ⟨out, by rw [hopen, run_bind, hrun]⟩
    · rcases fails_bind.1 hboth with hlift | ⟨header, d₂, -, hboth⟩
      · obtain ⟨hheader, rfl⟩ := fails_liftExcept.1 hlift
        exact ⟨s.out ++ ([0, 0] ++ content), by rw [hclose hm, hheader]; rfl⟩
      · cases hboth

/-! ### Nodes -/

def encodeHead (name : String) (cursor start stop : Nat) : Encoding Bytes := do
  let nameBytes ← encodeName name
  let spanBytes ← liftExcept (encodeSpan (start - cursor) (stop - start))
  return nameBytes ++ spanBytes

def encodeContent (name : String) (cursor start stop depth : Nat) (children : List Node) :
    Encoding Bytes := do
  let head ← encodeHead name cursor start stop
  let inner ← encodeNodes start (depth + 1) children
  return head ++ inner

theorem encodeNode_eq (name : String) (cursor start stop depth : Nat) (children : List Node) :
    encodeNode cursor depth ⟨name, start, stop, children⟩ =
      if maxDepth < depth then throw (.nestingTooDeep maxDepth)
      else if children.isEmpty then encodeContent name cursor start stop depth children
      else do
        let content ← encodeContent name cursor start stop depth children
        return (← liftExcept (encodeChildrenHeader content.length)) ++ content := by
  rw [encodeNode, encodeContent, encodeHead]
  by_cases hdepth : maxDepth < depth
  · rw [if_pos hdepth, if_pos hdepth]
    rfl
  · rw [if_neg hdepth, if_neg hdepth]
    by_cases hchildren : children.isEmpty = true
    · simp only [hchildren, if_true, bind_assoc, pure_bind, List.append_assoc]
    · simp only [hchildren, bind_assoc, pure_bind, List.append_assoc]
      rfl

theorem puts_writeHead {name : String} {start stop : Nat} (hstart : cursor ≤ start)
    (hstop : start ≤ stop) :
    Puts (writeHead name cursor start stop) (encodeHead name cursor start stop) s := by
  have hskip := difference?_of_le hstart
  have hlength := difference?_of_le hstop
  have hwrite : writeHead name cursor start stop = (do
      writing (encodeName name)
      writing (liftExcept (encodeSpan (start - cursor) (stop - start)))) := by
    unfold writeHead
    rw [hskip, hlength]
    rfl
  rw [hwrite]
  exact puts_writing.append fun _ _ _ => puts_writing

mutual

theorem puts_writeNode : ∀ (n : Node) (depth cursor hi : Nat) (s : Sheet),
    n.fits cursor hi = true → Puts (writeNode cursor depth n) (encodeNode cursor depth n) s
  | ⟨name, start, stop, children⟩, depth, cursor, hi, s, hfits => by
    obtain ⟨hstart, -, hle, hkids⟩ := Node.fits_iff.1 hfits
    have hcontent : ∀ s : Sheet, Puts
        (writeHead name cursor start stop >>= fun _ => writeNodes start (depth + 1) children)
        (encodeContent name cursor start stop depth children) s :=
      fun s => (puts_writeHead hstart hle).append fun bs d _ =>
        puts_writeNodes children (depth + 1) start stop ⟨d, s.out ++ bs⟩ hkids
    rw [writeNode, encodeNode_eq]
    by_cases hdepth : maxDepth < depth
    · rw [if_pos hdepth, if_pos hdepth]
      exact puts_throw
    · rw [if_neg hdepth, if_neg hdepth]
      by_cases hchildren : children.isEmpty = true
      · rw [if_pos hchildren, if_pos hchildren]
        exact hcontent s
      · rw [if_neg hchildren, if_neg hchildren]
        exact (hcontent _).underHeader

theorem puts_writeNodes : ∀ (ns : List Node) (depth cursor hi : Nat) (s : Sheet),
    Node.fitsAll cursor hi ns = true →
    Puts (writeNodes cursor depth ns) (encodeNodes cursor depth ns) s
  | [], depth, cursor, hi, s, _ => by
    rw [writeNodes, encodeNodes]
    exact puts_nothing
  | n :: ns, depth, cursor, hi, s, hfits => by
    simp only [Node.fitsAll, Bool.and_eq_true] at hfits
    rw [writeNodes, encodeNodes]
    exact (puts_writeNode n depth cursor hi s hfits.1).append fun bs d _ =>
      puts_writeNodes ns depth n.stop hi ⟨d, s.out ++ bs⟩ hfits.2

end

end Indexed

open Indexed

/-- No slice of the buffer and no difference of offsets is out of range, neither when the text of a
node is taken nor when the tree is rendered or encoded. -/
structure Tree.InRange (t : Tree) : Prop where
  text : ∀ x ∈ t.preorder, text? t.raw x.2 = some (x.2.text t.raw)
  lorth : lorthLines? t.raw 0 t.root = some (Lorth.lines t.raw 0 t.root)
  python : pythonLines? t.raw 1 false t.root = some (Python.lines t.raw 1 false t.root)
  encode : ∀ mode s, Puts (writeTree t mode) (encodeTree t mode) s

/-- **A valid tree is in range.** -/
theorem Tree.inRange {t : Tree} (h : t.isValid = true) : t.InRange := by
  have hfits := fits_of_isValid h
  obtain ⟨hstart, hstop, hkids⟩ := isValid_iff.1 h
  refine ⟨text?_of_fits t.root 0 0 _ hfits (Nat.le_refl _),
    lorthLines?_of_fits t.root 0 0 _ hfits (Nat.le_refl _),
    pythonLines?_of_fits t.root 1 0 _ false hfits (Nat.le_refl _), fun mode s => ?_⟩
  cases mode with
  | written =>
    rw [writeTree, encodeTree]
    by_cases hname : t.rootName.isEmpty = true
    · rw [if_pos hname, if_pos hname]
      exact puts_throw
    · rw [if_neg hname, if_neg hname, hstart]
      exact puts_writeNode t.root 0 0 _ s hfits
  | omitted =>
    rw [writeTree, encodeTree, hstart]
    exact puts_writeNodes t.root.children 1 0 _ s hkids

end SpanTree
