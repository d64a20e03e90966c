import SpanTree.Proofs.Literal
import SpanTree.Proofs.Origin
import SpanTree.Proofs.OwnText
import SpanTree.Text.Blank

/-!
# What Python literals show

A literal shows the **view** of the root: the own text of a node, whether its children form an
array, and the views of the children, which have names in a dict and none in an array. **Trees have
the same literal exactly if the roots have the same name and the same view**
(`Tree.python_shows_view`).

Entries and their items are read by a grammar with blanks between the tokens (`Phrase.Written`). The
grammar is unambiguous, whatever follows (`Written.unique`): a bracket that closes, behind blanks,
begins no item. One direction of the theorem is that a rendering is written in this grammar, the
other that its lines are made of the view alone (`lines_of_view`).
-/

namespace SpanTree

/-! ## Views -/

/-- What is shown of a node. -/
structure View where
  text : Bytes
  isArray : Bool
  /-- The views of the children with their names, which are missing in an array. -/
  items : List (Option String × View)

namespace Node

/-- The name of a node among its siblings. -/
def key (inArray : Bool) (n : Node) : Option String := if inArray then none else some n.name

mutual

/-- The own text of the node, whether its name makes it an array, and the views of its children. -/
def view (raw : Bytes) : Node → View
  | ⟨name, start, stop, children⟩ =>
    ⟨ownText raw ⟨name, start, stop, children⟩, Name.isArray name,
      viewAll raw (Name.isArray name) children⟩

def viewAll (raw : Bytes) (inArray : Bool) : List Node → List (Option String × View)
  | [] => []
  | n :: ns => (n.key inArray, view raw n) :: viewAll raw inArray ns

end

theorem view_eq (raw : Bytes) (n : Node) : n.view raw =
    ⟨n.ownText raw, Name.isArray n.name, viewAll raw (Name.isArray n.name) n.children⟩ := by
  cases n
  rfl

end Node

/-! ## The grammar -/

namespace Python

open Text (escape isBlank isBlankChar cut_inj escape_quote_inj outside)

/-- What is written: a view with its key, or the items of a dict or an array. -/
inductive Phrase
  | entry (key : Option String) (view : View)
  | items (inArray : Bool) (items : List (Option String × View))

def keyChars : Option String → List Char
  | some name => '"' :: (name.toList ++ ['"', ' ', ':', ' '])
  | none => []

/-- A pair of a text and children. -/
def pairChars (text : Bytes) (isArray : Bool) (children behind : List Char) : List Char :=
  '(' :: '"' :: (escape text ++ '"' :: ',' :: openBracket isArray ::
    (children ++ closeBracket isArray :: (behind ++ [')'])))

/-- An entry is `"name" : ("text",children)` with an optional comma behind the children, which stand
in braces, or in parentheses if they form an array. The items of a dict have names, those of an
array have none, and a comma comes behind each of them. Blanks may stand around the brackets. -/
inductive Phrase.Written : Phrase → List Char → Prop
  | entry {key : Option String} {text : Bytes} {isArray : Bool}
      {items : List (Option String × View)} {before inner gap comma after : List Char}
      (hbefore : isBlank before = true) (hkey : ∀ name ∈ key, Name.IsPlain name)
      (hitems : Written (.items isArray items) inner) (hgap : isBlank gap = true)
      (hcomma : comma = [] ∨ comma = [',']) (hafter : isBlank after = true) :
      Written (.entry key ⟨text, isArray, items⟩)
        (before ++ (keyChars key ++ pairChars text isArray (inner ++ gap) (comma ++ after)))
  | nil {inArray : Bool} : Written (.items inArray []) []
  | cons {inArray : Bool} {key : Option String} {view : View} {items : List (Option String × View)}
      {cs ds : List Char} (hkey : key.isNone = inArray) (hentry : Written (.entry key view) cs)
      (hrest : Written (.items inArray items) ds) :
      Written (.items inArray ((key, view) :: items)) (cs ++ ',' :: ds)

namespace Phrase

variable {p q : Phrase} {key key' : Option String} {view : View} {isArray isArray' : Bool}
  {before before' cs ds rest rest' : List Char}

/-! ### Reading phrases back -/

/-- Two entries, or the items of two dicts or of two arrays. -/
def SameSort : Phrase → Phrase → Prop
  | entry _ _, entry _ _ => True
  | items inArray _, items inArray' _ => inArray = inArray'
  | _, _ => False

/-- Behind items comes a bracket that closes. -/
def EndsBefore : Phrase → List Char → Prop
  | entry _ _, _ => True
  | items _ _, rest => ∃ gap isArray after,
      isBlank gap = true ∧ rest = gap ++ closeBracket isArray :: after

theorem blank_inj {c d : Char} (hbefore : isBlank before = true) (hbefore' : isBlank before' = true)
    (hc : isBlankChar c = false) (hd : isBlankChar d = false)
    (h : before ++ c :: cs = before' ++ d :: ds) : c = d ∧ cs = ds := by
  rw [isBlank, List.all_eq_true] at hbefore hbefore'
  exact (cut_inj hbefore hbefore' (by simp [hc]) (by simp [hd]) h).2

theorem key_inj (hkey : ∀ name ∈ key, Name.IsPlain name) (hkey' : ∀ name ∈ key', Name.IsPlain name)
    (hbefore : isBlank before = true) (hbefore' : isBlank before' = true)
    (h : before ++ (keyChars key ++ '(' :: cs) = before' ++ (keyChars key' ++ '(' :: ds)) :
    key = key' ∧ cs = ds := by
  have hquote : isBlankChar '"' = false := by decide
  have hparen : isBlankChar '(' = false := by decide
  cases key with
  | none =>
    cases key' with
    | none => exact ⟨rfl, (blank_inj hbefore hbefore' hparen hparen h).2⟩
    | some name' => exact absurd (blank_inj hbefore hbefore' hparen hquote h).1 (by decide)
  | some name =>
    cases key' with
    | none => exact absurd (blank_inj hbefore hbefore' hquote hparen h).1 (by decide)
    | some name' =>
      have hend : ¬ Name.isNameChar '"' = true := by decide
      simp only [keyChars, List.append_assoc, List.cons_append, List.nil_append] at h
      obtain ⟨-, hnames⟩ := blank_inj hbefore hbefore' hquote hquote h
      obtain ⟨hname, -, hrest⟩ := cut_inj (hkey name rfl) (hkey' name' rfl) hend hend hnames
      obtain rfl := String.toList_inj.1 hname
      simpa using hrest

theorem text_inj {text text' : Bytes}
    (h : '"' :: (escape text ++ '"' :: ',' :: openBracket isArray :: cs) =
      '"' :: (escape text' ++ '"' :: ',' :: openBracket isArray' :: ds)) :
    text = text' ∧ isArray = isArray' ∧ cs = ds := by
  obtain ⟨htext, hrest⟩ := escape_quote_inj (List.cons.inj h).2
  have hbracket := List.cons.inj (List.cons.inj hrest).2
  refine ⟨htext, ?_, hbracket.2⟩
  have hopen := hbracket.1
  revert hopen
  cases isArray <;> cases isArray' <;> decide

/-- An entry ends at the parenthesis that closes it. -/
theorem end_inj {gap gap' comma comma' after after' : List Char} (hgap : isBlank gap = true)
    (hgap' : isBlank gap' = true) (hcomma : comma = [] ∨ comma = [','])
    (hcomma' : comma' = [] ∨ comma' = [',']) (hafter : isBlank after = true)
    (hafter' : isBlank after' = true)
    (h : gap ++ closeBracket isArray :: (comma ++ (after ++ ')' :: rest)) =
      gap' ++ closeBracket isArray :: (comma' ++ (after' ++ ')' :: rest'))) : rest = rest' := by
  have hclose : isBlankChar (closeBracket isArray) = false := by
    cases isArray <;> decide
  have hmiddle : ∀ {comma after : List Char}, comma = [] ∨ comma = [','] → isBlank after = true →
      ∀ c ∈ comma ++ after, c ≠ ')' := by
    intro comma after hcomma hafter c hc
    rw [isBlank, List.all_eq_true] at hafter
    rcases List.mem_append.1 hc with hc | hc
    · rcases hcomma with rfl | rfl
      · cases hc
      · rw [List.mem_singleton.1 hc]
        decide
    · rintro rfl
      exact absurd (hafter _ hc) (by decide)
  have hrest := (blank_inj hgap hgap' hclose hclose h).2
  rw [← List.append_assoc, ← List.append_assoc] at hrest
  exact (cut_inj (p := (· ≠ ')')) (hmiddle hcomma hafter) (hmiddle hcomma' hafter') (by simp)
    (by simp) hrest).2.2

/-- What an entry begins with is no bracket that closes. -/
theorem Written.ne_closing (h : Written (.entry key view) cs)
    (hend : EndsBefore (.items isArray []) rest) : rest ≠ cs ++ rest' := by
  obtain ⟨gap, isArray, after, hgap, rfl⟩ := hend
  intro heq
  have hclose : isBlankChar (closeBracket isArray) = false := by
    cases isArray <;> decide
  cases h with
  | @entry _ _ _ _ before _ _ _ _ hbefore =>
    rw [List.append_assoc, List.append_assoc] at heq
    cases key with
    | none =>
      have hfirst := (blank_inj hgap hbefore hclose (by decide) heq).1
      revert hfirst
      cases isArray <;> decide
    | some name =>
      have hfirst := (blank_inj hgap hbefore hclose (by decide) heq).1
      revert hfirst
      cases isArray <;> decide

/-- **The grammar is unambiguous.** What is written tells the phrase and where it ends. -/
theorem Written.unique (h : Written p cs) : ∀ {q ds rest rest'}, Written q ds → p.SameSort q →
    p.EndsBefore rest → q.EndsBefore rest' → cs ++ rest = ds ++ rest' → p = q ∧ rest = rest' := by
  induction h with
  | entry hbefore hkey hitems hgap hcomma hafter ih =>
    intro q ds rest rest' hq hsort _ _ heq
    cases hq with
    | entry hbefore' hkey' hitems' hgap' hcomma' hafter' =>
      simp only [pairChars, List.append_assoc, List.cons_append, List.nil_append] at heq
      obtain ⟨rfl, hpair⟩ := key_inj hkey hkey' hbefore hbefore' heq
      obtain ⟨rfl, rfl, hchildren⟩ := text_inj hpair
      obtain ⟨hsame, hend⟩ := ih hitems' rfl ⟨_, _, _, hgap, rfl⟩ ⟨_, _, _, hgap', rfl⟩ hchildren
      obtain rfl := (Phrase.items.inj hsame).2
      exact ⟨rfl, end_inj hgap hgap' hcomma hcomma' hafter hafter' hend⟩
    | nil => exact hsort.elim
    | cons => exact hsort.elim
  | nil =>
    intro q ds rest rest' hq hsort hend _ heq
    cases hq with
    | entry => exact hsort.elim
    | nil =>
      obtain rfl := hsort
      exact ⟨rfl, heq⟩
    | cons _ hentry =>
      rw [List.nil_append, List.append_assoc] at heq
      exact absurd heq (hentry.ne_closing hend)
  | cons hkey hentry hrest ihentry ihrest =>
    intro q ds rest rest' hq hsort hend hend' heq
    cases hq with
    | entry => exact hsort.elim
    | nil =>
      rw [List.nil_append, List.append_assoc] at heq
      exact absurd heq.symm (hentry.ne_closing hend')
    | cons hkey' hentry' hrest' =>
      obtain rfl := hsort
      rw [List.append_assoc, List.append_assoc] at heq
      obtain ⟨hfirst, hcomma⟩ := ihentry hentry' trivial trivial trivial heq
      obtain ⟨rfl, rfl⟩ := Phrase.entry.inj hfirst
      obtain ⟨hothers, hafter⟩ := ihrest hrest' rfl hend hend' (List.cons.inj hcomma).2
      obtain rfl := (Phrase.items.inj hothers).2
      exact ⟨rfl, hafter⟩

end Phrase

/-! ## Brackets -/

/-- Reads brackets, with those that wait to be closed, and says which wait in the end. A bracket
that closes must be the one that is waited for. -/
def scan : List Char → List Char → Option (List Char)
  | waiting, [] => some waiting
  | waiting, c :: cs =>
    if c = '(' then scan (')' :: waiting) cs
    else if c = '\x7b' then scan ('\x7d' :: waiting) cs
    else if c = ')' ∨ c = '\x7d' then
      if waiting.head? = some c then scan waiting.tail cs else none
    else scan waiting cs

/-- The brackets outside literals balance. -/
def Balanced (cs : List Char) : Prop := scan [] (outside cs) = some []

/-- The text leaves the brackets that wait as they were, whatever follows. -/
def Neutral (cs : List Char) : Prop :=
  ∀ waiting rest, scan waiting (outside (cs ++ rest)) = scan waiting (outside rest)

variable {cs ds : List Char}

theorem Neutral.balanced (h : Neutral cs) : Balanced cs := by
  have hscan := h [] []
  rw [List.append_nil] at hscan
  rw [Balanced, hscan, outside, Text.marks]
  rfl

theorem Neutral.append (hcs : Neutral cs) (hds : Neutral ds) : Neutral (cs ++ ds) := by
  intro waiting rest
  rw [List.append_assoc, hcs, hds]

def isBracketOrQuote (c : Char) : Bool :=
  c == '(' || c == ')' || c == '\x7b' || c == '\x7d' || c == '"'

theorem neutral_of_plain (h : ∀ c ∈ cs, isBracketOrQuote c = false) : Neutral cs := by
  intro waiting rest
  have hquote : '"' ∉ cs := by
    intro hmem
    exact absurd (h '"' hmem) (by decide)
  rw [Text.outside_append hquote]
  induction cs with
  | nil => rfl
  | cons c cs ih =>
    have hc := h c (.head _)
    simp only [isBracketOrQuote, Bool.or_eq_false_iff, beq_eq_false_iff_ne] at hc
    rw [List.cons_append, scan, if_neg hc.1.1.1.1, if_neg hc.1.1.2,
      if_neg (not_or.2 ⟨hc.1.1.1.2, hc.1.2⟩)]
    exact ih (fun d hd => h d (.tail _ hd)) fun hmem => hquote (.tail _ hmem)

theorem neutral_of_blank (h : Text.isBlank cs = true) : Neutral cs := by
  rw [Text.isBlank, List.all_eq_true] at h
  refine neutral_of_plain fun c hc => ?_
  have hblank := h c hc
  cases hbracket : isBracketOrQuote c with
  | false => rfl
  | true =>
    simp only [isBracketOrQuote, Bool.or_eq_true, beq_iff_eq] at hbracket
    rcases hbracket with (((rfl | rfl) | rfl) | rfl) | rfl <;> exact absurd hblank (by decide)

theorem neutral_text (text : Bytes) : Neutral ('"' :: (escape text ++ ['"'])) := by
  intro waiting rest
  have houtside := Text.outside_quote text rest
  rw [List.cons_append, List.append_assoc]
  exact congrArg (scan waiting) houtside

theorem neutral_name {name : String} (h : Name.IsPlain name) :
    Neutral ('"' :: (name.toList ++ ['"'])) := by
  intro waiting rest
  have hplain : ∀ c ∈ name.toList, c ≠ '\\' ∧ c ≠ '"' := by
    intro c hc
    constructor
    · rintro rfl
      exact h.not_mem (by decide) hc
    · rintro rfl
      exact h.not_mem (by decide) hc
  rw [List.cons_append, List.append_assoc]
  exact congrArg (scan waiting) (Text.outside_quote_plain hplain rest)

theorem Neutral.bracketed (h : Neutral cs) (isArray : Bool) :
    Neutral (openBracket isArray :: (cs ++ [closeBracket isArray])) := by
  intro waiting rest
  have hopen : '"' ∉ [openBracket isArray] := by
    cases isArray <;> decide
  have hclose : '"' ∉ [closeBracket isArray] := by
    cases isArray <;> decide
  have hscan : ∀ cs, scan waiting (openBracket isArray :: cs) =
      scan (closeBracket isArray :: waiting) cs := by
    intro cs
    cases isArray <;> rfl
  have hscan' : ∀ cs, scan (closeBracket isArray :: waiting) (closeBracket isArray :: cs) =
      scan waiting cs := by
    intro cs
    cases isArray <;> simp [scan, closeBracket]
  calc scan waiting (outside (openBracket isArray :: (cs ++ [closeBracket isArray]) ++ rest))
      = scan waiting (openBracket isArray :: outside (cs ++ ([closeBracket isArray] ++ rest))) := by
        rw [← List.append_assoc]
        exact congrArg (scan waiting) (Text.outside_append hopen _)
    _ = scan (closeBracket isArray :: waiting) (outside ([closeBracket isArray] ++ rest)) := by
        rw [hscan, h]
    _ = scan waiting (outside rest) := by
        rw [Text.outside_append hclose]
        exact hscan' _

theorem neutral_keyChars {key : Option String} (h : ∀ name ∈ key, Name.IsPlain name) :
    Neutral (keyChars key) := by
  cases key with
  | none => exact fun _ _ => rfl
  | some name =>
    have hcolon : Neutral [' ', ':', ' '] := neutral_of_plain (by simp [isBracketOrQuote])
    have hboth := (neutral_name (h name rfl)).append hcolon
    simpa [keyChars] using hboth

/-- **What is written in the grammar balances.** -/
theorem Phrase.Written.neutral {p : Phrase} (h : p.Written cs) : Neutral cs := by
  have hcomma : Neutral [','] := neutral_of_plain (by simp [isBracketOrQuote])
  induction h with
  | @entry key text isArray items before inner gap comma after hbefore hkey _ hgap hcommas hafter
      ih =>
    have hcommas : Neutral comma := by
      rcases hcommas with rfl | rfl
      · exact fun _ _ => rfl
      · exact hcomma
    have hchildren := (ih.append (neutral_of_blank hgap)).bracketed isArray
    have hpair := (((neutral_text text).append hcomma).append
      (hchildren.append (hcommas.append (neutral_of_blank hafter)))).bracketed true
    have hentry := (neutral_of_blank hbefore).append ((neutral_keyChars hkey).append hpair)
    simpa [pairChars, openBracket, closeBracket] using hentry
  | nil => exact fun _ _ => rfl
  | cons _ _ _ ihentry ihrest =>
    have hboth := ihentry.append (hcomma.append ihrest)
    simpa using hboth

/-! ## Renderings -/

variable {raw raw' : Bytes}

/-- The characters of the lines. -/
def charsOf (ls : List (Nat × Line)) : List Char := ls.flatMap fun x => x.2.chars x.1

theorem charsOf_append (ls ls' : List (Nat × Line)) :
    charsOf (ls ++ ls') = charsOf ls ++ charsOf ls' := List.flatMap_append

theorem head_eq {n : Node} {lo hi : Nat} (isItem : Bool) (h : n.fits lo hi = true) :
    head raw isItem n = ⟨n.key isItem, n.ownText raw, Name.isArray n.name⟩ := by
  rw [head, Node.ownText_eq h]
  rfl

theorem Head.chars_eq (h : Head) : h.chars =
    keyChars h.key ++ ('(' :: '"' :: (escape h.text ++ ['"', ','])) := by
  obtain ⟨_ | _, _, _⟩ := h <;> simp [Head.chars, keyChars]

theorem isBlank_replicate (k : Nat) : isBlank (List.replicate k ' ') = true := by
  have hspace : isBlankChar ' ' = true := by decide
  simp [isBlank, hspace]

theorem isBlank_indent {before : List Char} (level : Nat) (h : isBlank before = true) :
    isBlank (before ++ List.replicate (2 * level) ' ') = true := by
  rw [Text.isBlank_append, h, isBlank_replicate]
  rfl

/-- Behind the children of an array comes a comma. -/
def commaBehind (isArray : Bool) : List Char := if isArray then [','] else []

theorem commaBehind_cases (isArray : Bool) :
    commaBehind isArray = [] ∨ commaBehind isArray = [','] := by
  cases isArray
  · exact .inl rfl
  · exact .inr rfl

theorem written_node (raw : Bytes) (isItem : Bool) {n : Node} {before inner gap after : List Char}
    (hname : Name.IsPlain n.name) (hbefore : isBlank before = true)
    (hitems : (Phrase.items (Name.isArray n.name)
      (Node.viewAll raw (Name.isArray n.name) n.children)).Written inner)
    (hgap : isBlank gap = true) (hafter : isBlank after = true) :
    (Phrase.entry (n.key isItem) (n.view raw)).Written
      (before ++ (keyChars (n.key isItem) ++ pairChars (n.ownText raw) (Name.isArray n.name)
        (inner ++ gap) (commaBehind (Name.isArray n.name) ++ after))) := by
  have hkey : ∀ name ∈ n.key isItem, Name.IsPlain name := by
    cases isItem <;> simp [Node.key, hname]
  rw [Node.view_eq]
  exact .entry hbefore hkey hitems hgap (commaBehind_cases _) hafter

theorem charsOf_leaf (h : Head) (level : Nat) : charsOf [(level, .leaf h)] =
    List.replicate (2 * level) ' ' ++
      (keyChars h.key ++ pairChars h.text h.isArray [] (commaBehind h.isArray)) ++ [',', '\n'] := by
  rw [charsOf, List.flatMap_singleton, Line.chars, Head.chars_eq, pairChars]
  cases h.isArray <;> simp [commaBehind]

theorem charsOf_block (h : Head) (level : Nat) (ls : List (Nat × Line)) :
    charsOf ((level, .opening h) :: (ls ++ [(level, .closingItems h.isArray), (level, .closing)])) =
      List.replicate (2 * level) ' ' ++ (keyChars h.key ++ pairChars h.text h.isArray
        ('\n' :: (charsOf ls ++ (List.replicate (2 * level) ' ' ++ [' '])))
        (commaBehind h.isArray ++ '\n' :: List.replicate (2 * level) ' ')) ++ [',', '\n'] := by
  rw [← List.singleton_append, charsOf_append, charsOf_append, pairChars]
  cases harray : h.isArray <;>
    simp [charsOf, Line.chars, Head.chars_eq, harray, commaBehind]

mutual

/-- **The lines of a node are an entry with the view of the node**, a comma and a line end. -/
theorem written_lines : ∀ (n : Node) (level : Nat) (isItem : Bool) (lo hi : Nat),
    n.AllNames Name.IsPlain → n.fits lo hi = true →
    ∃ cs, charsOf (lines raw level isItem n) = cs ++ [',', '\n'] ∧
      ∀ before, isBlank before = true →
        (Phrase.entry (n.key isItem) (n.view raw)).Written (before ++ cs)
  | ⟨name, start, stop, []⟩, level, isItem, lo, hi, hn, hfits => by
    have hname := (Node.allNames_iff.1 hn).1
    have hnone : isBlank [] = true := rfl
    rw [lines, head_eq isItem hfits, charsOf_leaf]
    refine ⟨_, rfl, fun before hbefore => ?_⟩
    have hentry := written_node raw isItem hname (isBlank_indent level hbefore) .nil hnone hnone
    rwa [List.append_nil, List.append_nil, List.append_assoc] at hentry
  | ⟨name, start, stop, child :: children⟩, level, isItem, lo, hi, hn, hfits => by
    obtain ⟨hname, hkids⟩ := Node.allNames_iff.1 hn
    obtain ⟨inner, gap, hgap, hchars, hitems⟩ := written_linesAll (child :: children) (level + 1)
      (Name.isArray name) start stop hkids (Node.fits_iff.1 hfits).2.2.2 ['\n'] rfl
    have hindent := isBlank_replicate (2 * level)
    have hbehind : isBlank ('\n' :: List.replicate (2 * level) ' ') = true := by
      exact (Text.isBlank_append ['\n'] _).trans (by rw [hindent]; rfl)
    rw [lines, head_eq isItem hfits, charsOf_block]
    refine ⟨_, rfl, fun before hbefore => ?_⟩
    have hgaps : isBlank (gap ++ (List.replicate (2 * level) ' ' ++ [' '])) = true := by
      rw [Text.isBlank_append, Text.isBlank_append, hgap, hindent]
      rfl
    have hentry := written_node raw isItem hname (isBlank_indent level hbefore) hitems hgaps
      hbehind
    rw [← List.append_assoc inner, ← hchars, List.append_assoc, List.append_assoc] at hentry
    exact hentry

theorem written_linesAll : ∀ (ns : List Node) (level : Nat) (areItems : Bool) (lo hi : Nat),
    Node.AllNamesIn Name.IsPlain ns → Node.fitsAll lo hi ns = true →
    ∀ before, isBlank before = true → ∃ cs gap, isBlank gap = true ∧
      before ++ charsOf (linesAll raw level areItems ns) = cs ++ gap ∧
      (Phrase.items areItems (Node.viewAll raw areItems ns)).Written cs
  | [], _, _, _, _, _, _, before, hbefore => ⟨[], before, hbefore, List.append_nil _, .nil⟩
  | n :: ns, level, areItems, lo, hi, hns, hfits, before, hbefore => by
    simp only [Node.fitsAll, Bool.and_eq_true] at hfits
    obtain ⟨cs, hchars, hentry⟩ := written_lines n level areItems lo hi hns.1 hfits.1
    obtain ⟨ds, gap, hgap, hrest, hitems⟩ :=
      written_linesAll ns level areItems n.stop hi hns.2 hfits.2 ['\n'] rfl
    have hnone : (n.key areItems).isNone = areItems := by
      cases areItems <;> rfl
    refine ⟨(before ++ cs) ++ ',' :: ds, gap, hgap, ?_, .cons hnone (hentry before hbefore) hitems⟩
    rw [linesAll, charsOf_append, hchars]
    simpa using hrest

end

theorem head_of_view {n m : Node} {lo hi lo' hi' : Nat} {isItem : Bool}
    (hn : n.fits lo hi = true) (hm : m.fits lo' hi' = true) (hkey : n.key isItem = m.key isItem)
    (hview : n.view raw = m.view raw') : head raw isItem n = head raw' isItem m := by
  rw [Node.view_eq, Node.view_eq, View.mk.injEq] at hview
  rw [head_eq isItem hn, head_eq isItem hm, hkey, hview.1, hview.2.1]

mutual

/-- The lines are made of the view. -/
theorem lines_of_view : ∀ (n m : Node) (level : Nat) (isItem : Bool) (lo hi lo' hi' : Nat),
    n.fits lo hi = true → m.fits lo' hi' = true → n.key isItem = m.key isItem →
    n.view raw = m.view raw' → lines raw level isItem n = lines raw' level isItem m
  | ⟨_, _, _, []⟩, ⟨_, _, _, []⟩, level, isItem, _, _, _, _, hn, hm, hkey, hview => by
    rw [lines, lines, head_of_view hn hm hkey hview]
  | ⟨_, _, _, []⟩, ⟨_, _, _, _ :: _⟩, _, _, _, _, _, _, _, _, _, hview => by
    cases (View.mk.inj hview).2.2
  | ⟨_, _, _, _ :: _⟩, ⟨_, _, _, []⟩, _, _, _, _, _, _, _, _, _, hview => by
    cases (View.mk.inj hview).2.2
  | ⟨name, start, stop, child :: children⟩, ⟨name', start', stop', child' :: children'⟩, level,
      isItem, _, _, _, _, hn, hm, hkey, hview => by
    have hhead := head_of_view hn hm hkey hview
    obtain ⟨-, harray, hitems⟩ := View.mk.inj hview
    rw [← harray] at hitems
    have hkids := linesAll_of_viewAll (child :: children) (child' :: children') (level + 1)
      (Name.isArray name) start stop start' stop' (Node.fits_iff.1 hn).2.2.2
      (Node.fits_iff.1 hm).2.2.2 hitems
    rw [lines, lines, hhead, hkids, harray]

theorem linesAll_of_viewAll : ∀ (ns ms : List Node) (level : Nat) (areItems : Bool)
    (lo hi lo' hi' : Nat), Node.fitsAll lo hi ns = true → Node.fitsAll lo' hi' ms = true →
    Node.viewAll raw areItems ns = Node.viewAll raw' areItems ms →
    linesAll raw level areItems ns = linesAll raw' level areItems ms
  | [], [], _, _, _, _, _, _, _, _, _ => rfl
  | [], _ :: _, _, _, _, _, _, _, _, _, h => by cases h
  | _ :: _, [], _, _, _, _, _, _, _, _, h => by cases h
  | n :: ns, m :: ms, level, areItems, lo, hi, lo', hi', hns, hms, h => by
    simp only [Node.fitsAll, Bool.and_eq_true] at hns hms
    obtain ⟨hitem, hrest⟩ := List.cons.inj h
    obtain ⟨hkey, hview⟩ := Prod.mk.inj hitem
    rw [linesAll, linesAll, lines_of_view n m level areItems lo hi lo' hi' hns.1 hms.1 hkey hview,
      linesAll_of_viewAll ns ms level areItems n.stop hi m.stop hi' hns.2 hms.2 hrest]

end

end Python

/-! ## Python literals -/

namespace Tree

open Python (Phrase Balanced)

variable {a b t : Tree}

/-- The view of the root, with its name. -/
def phrase (t : Tree) : Phrase := .entry (some t.rootName) (t.root.view t.raw)

/-- The literal is the entry of the root. -/
theorem written_pythonChars (ht : t.Obtained) : t.phrase.Written t.pythonChars := by
  obtain ⟨cs, hchars, hwritten⟩ := @Python.written_lines t.raw t.root 1 false 0 _
    ht.wellFormed.isPlain (fits_of_isValid ht.wellFormed.isValid)
  have hpython : t.pythonChars = cs := by
    unfold Python.charsOf at hchars
    rw [pythonChars, hchars]
    simp
  rw [hpython]
  exact hwritten [] rfl

theorem toList_python (t : Tree) : t.python.toList = t.pythonChars := by
  rw [python, String.toList_ofList]

/-- **Python literals show the view, and nothing else.** They are the same exactly if the names of
the roots and the views of the roots are. A literal is one entry of the grammar, and its brackets
balance. Each place of the buffer is the own place of exactly one node, so that its byte is shown
once. -/
theorem python_shows_view (ha : a.Obtained) (hb : b.Obtained) :
    (a.python = b.python ↔
      a.rootName = b.rootName ∧ a.root.view a.raw = b.root.view b.raw) ∧
    (Phrase.entry (some a.rootName) (a.root.view a.raw)).Written a.python.toList ∧
    Balanced a.python.toList ∧
    (a.preorder.flatMap fun x => x.2.ownPlaces).Perm (List.range a.raw.length) := by
  have hwritten := written_pythonChars ha
  rw [toList_python]
  refine ⟨⟨fun h => ?_, fun h => ?_⟩, hwritten, hwritten.neutral.balanced,
    ownPlaces_perm ha.wellFormed.isValid⟩
  · have hchars := congrArg String.toList h
    rw [toList_python, toList_python] at hchars
    obtain ⟨hphrase, -⟩ := hwritten.unique (written_pythonChars hb) trivial trivial trivial
      (congrArg (· ++ []) hchars)
    obtain ⟨hname, hview⟩ := Phrase.entry.inj hphrase
    exact ⟨Option.some.inj hname, hview⟩
  · have hlines := Python.lines_of_view a.root b.root 1 false 0 _ 0 _
      (fits_of_isValid ha.wellFormed.isValid) (fits_of_isValid hb.wellFormed.isValid)
      (congrArg some h.1) h.2
    rw [python, python, pythonChars, pythonChars, hlines]

/-- A byte of the root's own before or behind its child: the buffers differ, the literals do not. -/
theorem python_shows_view_around_child :
    let a : Tree := ⟨⟨"$", 0, 2, [⟨"c", 0, 1, []⟩]⟩, [120, 121]⟩
    let b : Tree := ⟨⟨"$", 0, 2, [⟨"c", 1, 2, []⟩]⟩, [121, 120]⟩
    a.raw ≠ b.raw ∧ a.python = b.python ∧ Balanced a.python.toList ∧
      (a.preorder.flatMap fun x => x.2.ownPlaces).Perm [0, 1] := by
  intro a b
  have hchild : Tree.Made ⟨⟨"c", 0, 1, []⟩, [120]⟩ :=
    .appendBytes (@Tree.Made.named "c" _ rfl) [120]
  have ha : a.Made := .appendBytes (.push (@Tree.Made.named "$" _ rfl) hchild) [121]
  have hb : b.Made := .push (.appendBytes (@Tree.Made.named "$" _ rfl) [121]) hchild
  obtain ⟨hsame, -, hbalanced, hplaces⟩ := python_shows_view (.made ha) (.made hb)
  exact ⟨by decide, hsame.2 ⟨rfl, rfl⟩, hbalanced, hplaces⟩

end Tree

end SpanTree
