import Mathlib.Data.List.Chain
import SpanTree.Proofs.Context
import SpanTree.Proofs.Literal
import SpanTree.Proofs.Origin
import SpanTree.Proofs.PathKeys
import SpanTree.Proofs.RecordFormat

/-!
# Programs tell their trees

**A Lorth program tells the tree it was made of** (`lorth_lossless`): the names, the spans and the
buffer. It is read back in two steps. The characters tell the lines, with one exception
(`Line.chars_inj`): a word without a name looks like a literal of the same level. The lines tell the
parts of the node (`ofNode_of_sights`): which of the two it is can be seen from the block in which
it stands, since the children of a node are one level deeper than its own text.

The literals of a program spell its buffer, and the mark that ends a program stands nowhere else in
it, so that programs can be written one behind the other.
-/

namespace SpanTree

namespace Lorth

open Text (escape literals cut_inj escape_inj newline_not_mem_escape)

variable {raw raw' : Bytes} {level level' : Nat} {line line' : Line}

/-! ## Lines -/

namespace Line

def name : Line → String
  | word name _ | opening name => name
  | literal _ | closing => ""

/-- The bytes between the quotes, if the line has any. -/
def text? : Line → Option Bytes
  | word _ text | literal text => some text
  | opening _ | closing => none

/-- The first character that is neither a blank nor part of a name. -/
def mark : Line → Char
  | word _ _ | literal _ => '"'
  | opening _ => '\x7b'
  | closing => '\x7d'

/-- What stands between the name and the mark. -/
def blank : Line → List Char
  | closing => []
  | _ => [' ']

def front (level : Nat) (line : Line) : List Char :=
  List.replicate level ' ' ++ line.name.toList ++ line.blank

def tail (line : Line) : List Char :=
  match line.text? with
  | some text => escape text ++ ['"', ' ', '.']
  | none => []

theorem chars_eq (level : Nat) (line : Line) :
    line.chars level = line.front level ++ line.mark :: line.tail := by
  cases line <;> simp [chars, front, name, blank, mark, tail, text?, quoted]

/-- What is seen of a line. -/
def shown : Line → Line
  | word name text => if name = "" then literal text else word name text
  | line => line

theorem shown_eq_iff : line.shown = line'.shown ↔
    line.name = line'.name ∧ line.mark = line'.mark ∧ line.text? = line'.text? := by
  cases line <;> cases line' <;> grind [shown, name, mark, text?]

theorem shown_word_inj {s s' : String} {bs bs' : Bytes}
    (h : (word s bs).shown = (word s' bs').shown) : s = s' ∧ bs = bs' := by
  obtain ⟨hname, -, htext⟩ := shown_eq_iff.1 h
  exact ⟨hname, Option.some.inj htext⟩

theorem shown_word_ne_opening {s s' : String} {bs : Bytes} :
    (word s bs).shown ≠ (opening s').shown := by
  intro h
  have hmark := (shown_eq_iff.1 h).2.1
  simp [mark] at hmark

theorem front_chars (hline : Name.IsPlain line.name) :
    ∀ c ∈ line.front level, c = ' ' ∨ Name.isNameChar c = true := by
  intro c hc
  simp only [front, List.mem_append, List.mem_replicate] at hc
  rcases hc with (⟨-, hc⟩ | hc) | hc
  · exact .inl hc
  · exact .inr (hline c hc)
  · cases line <;> simp_all [blank]

theorem mark_not_front (line : Line) : ¬ (line.mark = ' ' ∨ Name.isNameChar line.mark = true) := by
  cases line <;> simp only [mark] <;> decide

theorem front_inj (hline : Name.IsPlain line.name) (hline' : Name.IsPlain line'.name)
    (hmark : line.mark = line'.mark) (h : line.front level = line'.front level') :
    level = level' ∧ line.name = line'.name := by
  have hblank : line.blank = line'.blank := by
    cases line <;> cases line' <;> simp_all [blank, mark]
  have hspace : Name.isNameChar ' ' = false := by decide
  rw [front, front, hblank] at h
  have hfront := List.append_cancel_right h
  -- Names have no blanks, so the level is the number of blanks.
  have hlevel : level = level' := by
    have hcount := congrArg (List.count ' ') hfront
    rwa [List.count_append, List.count_append, List.count_replicate_self,
      List.count_replicate_self, List.count_eq_zero.2 (hline.not_mem hspace),
      List.count_eq_zero.2 (hline'.not_mem hspace)] at hcount
  rw [hlevel] at hfront
  exact ⟨hlevel, String.toList_inj.1 (List.append_cancel_left hfront)⟩

theorem tail_inj (hmark : line.mark = line'.mark) (h : line.tail = line'.tail) :
    line.text? = line'.text? := by
  cases line <;> cases line' <;> simp_all [mark, tail, text?]
  all_goals exact escape_inj.1 h

/-- **The characters tell the level and what is seen of the line.** -/
theorem chars_inj (hline : Name.IsPlain line.name) (hline' : Name.IsPlain line'.name)
    (h : line.chars level = line'.chars level') : level = level' ∧ line.shown = line'.shown := by
  rw [chars_eq, chars_eq] at h
  obtain ⟨hfront, hmark, htail⟩ := cut_inj (front_chars hline) (front_chars hline')
    line.mark_not_front line'.mark_not_front h
  obtain ⟨hlevel, hname⟩ := front_inj hline hline' hmark hfront
  exact ⟨hlevel, shown_eq_iff.2 ⟨hname, hmark, tail_inj hmark htail⟩⟩

/-- A word without a name, and a literal. -/
example : (word "" [120]).chars 1 = (literal [120]).chars 1 := by decide

theorem name_gap {bs : Bytes} {x : Nat × Line} (hx : x ∈ Lorth.gap level bs) :
    Name.IsPlain x.2.name := by
  cases bs with
  | nil => cases hx
  | cons b bs =>
    rw [List.mem_singleton.1 hx]
    simp [name, Name.IsPlain]

theorem newline_not_mem_chars (hline : Name.IsPlain line.name) : '\n' ∉ line.chars level := by
  have htail : '\n' ∉ line.tail := by
    cases line <;> simp [tail, text?, newline_not_mem_escape]
  rw [chars_eq, List.mem_append, List.mem_cons]
  rintro (hfront | hmark | hmem)
  · rcases front_chars hline _ hfront with hc | hc
    · exact absurd hc (by decide)
    · exact absurd hc (by decide)
  · cases line <;> simp [mark] at hmark
  · exact htail hmem

/-- No line ends with the character that ends programs. -/
theorem getLast?_chars (level : Nat) (line : Line) : ';' ∉ (line.chars level).getLast? := by
  rw [chars_eq]
  cases line <;> simp [mark, tail, text?, List.getLast?_cons]

theorem literals_chars (hline : Name.IsPlain line.name) (rest : List Char) :
    literals (line.chars level ++ rest) = line.text?.toList.map escape ++ literals rest := by
  have hfront : '"' ∉ line.front level := by
    intro hmem
    rcases front_chars hline _ hmem with hc | hc
    · exact absurd hc (by decide)
    · exact absurd hc (by decide)
  rw [chars_eq, List.append_assoc, Text.literals_append hfront]
  cases htext : line.text? with
  | some text =>
    have hmark : line.mark = '"' := by
      cases line <;> simp_all [text?, mark]
    have hend : '"' ∉ [' ', '.'] := by decide
    rw [hmark, tail, htext, List.cons_append, List.append_assoc]
    exact (Text.literals_quote text _).trans
      (congrArg (escape text :: ·) (Text.literals_append hend rest))
  | none =>
    have hmark : '"' ∉ [line.mark] := by
      cases line <;> simp_all [text?, mark]
    rw [tail, htext]
    exact Text.literals_append hmark rest

end Line

mutual

/-- The names in the lines are those of the nodes. -/
theorem name_lines : ∀ (n : Node) (level : Nat), n.AllNames Name.IsPlain →
    ∀ x ∈ lines raw level n, Name.IsPlain x.2.name
  | ⟨_, _, _, []⟩, level, hn, x, hx => by
    rw [lines, List.mem_singleton] at hx
    rw [hx]
    exact (Node.allNames_iff.1 hn).1
  | ⟨_, start, stop, child :: children⟩, level, hn, x, hx => by
    obtain ⟨hname, hkids⟩ := Node.allNames_iff.1 hn
    simp only [lines, List.mem_cons, List.mem_append, List.not_mem_nil, or_false] at hx
    rcases hx with rfl | hx | rfl
    · exact hname
    · exact name_body (child :: children) level start stop hkids x hx
    · simp [Line.name, Name.IsPlain]

theorem name_body : ∀ (ns : List Node) (level cursor stop : Nat), Node.AllNamesIn Name.IsPlain ns →
    ∀ x ∈ body raw level cursor stop ns, Name.IsPlain x.2.name
  | [], level, cursor, stop, _, x, hx => Line.name_gap hx
  | n :: ns, level, cursor, stop, hns, x, hx => by
    simp only [body, List.mem_append] at hx
    rcases hx with (hx | hx) | hx
    · exact Line.name_gap hx
    · exact name_lines n (level + 1) hns.1 x hx
    · exact name_body ns level n.stop stop hns.2 x hx

end

/-! ## Parts from lines -/

/-- The lines as they are seen. -/
def sights (ls : List (Nat × Line)) : List (Nat × Line) := ls.map fun x => (x.1, x.2.shown)

theorem sights_block (name : String) (start stop : Nat) (child : Node) (children : List Node)
    (rest : List (Nat × Line)) :
    sights (lines raw level ⟨name, start, stop, child :: children⟩) ++ rest =
      (level, .opening name) ::
        (sights (body raw level start stop (child :: children)) ++ (level, .closing) :: rest) := by
  simp [sights, lines, Line.shown]

/-- What comes next is no literal of this level. -/
def NoLiteral (level : Nat) (rest : List (Nat × Line)) : Prop :=
  ∀ bs after, rest ≠ (level, .literal bs) :: after

variable {as bs : Bytes} {rest rest' : List (Nat × Line)}

theorem noLiteral_closing : NoLiteral level ((level, .closing) :: rest) := by
  intro bs after h
  cases h

/-- The first line of a node is one of its level. -/
theorem sights_lines (raw : Bytes) (level : Nat) (n : Node) :
    ∃ line more, sights (lines raw level n) = (level, line) :: more := by
  obtain ⟨_, _, _, _ | _⟩ := n
  · exact ⟨_, _, rfl⟩
  · exact ⟨_, _, rfl⟩

/-- So a child begins neither with text of its parent nor with the end of it. -/
theorem noLiteral_lines (n : Node) : NoLiteral level (sights (lines raw (level + 1) n) ++ rest) := by
  obtain ⟨line, more, hn⟩ := sights_lines raw (level + 1) n
  intro bs after h
  rw [hn, List.cons_append, List.cons.injEq, Prod.mk.injEq] at h
  omega

theorem closing_ne_lines (n : Node) :
    (level, Line.closing) :: rest ≠ sights (lines raw (level + 1) n) ++ rest' := by
  obtain ⟨line, more, hn⟩ := sights_lines raw (level + 1) n
  intro h
  rw [hn, List.cons_append, List.cons.injEq, Prod.mk.injEq] at h
  omega

theorem gap_inj (hrest : NoLiteral level rest) (hrest' : NoLiteral level rest')
    (h : sights (gap level as) ++ rest = sights (gap level bs) ++ rest') :
    as = bs ∧ rest = rest' := by
  cases as with
  | nil =>
    cases bs with
    | nil => exact ⟨rfl, h⟩
    | cons b bs => exact absurd h (hrest (b :: bs) rest')
  | cons a as =>
    cases bs with
    | nil => exact absurd h.symm (hrest' (a :: as) rest)
    | cons b bs =>
      obtain ⟨hline, hnext⟩ := List.cons.inj h
      simp only [Line.shown, Prod.mk.injEq, Line.literal.injEq, true_and] at hline
      exact ⟨hline, hnext⟩

mutual

/-- **The lines of a node tell its parts and where they end.** -/
theorem ofNode_of_sights : ∀ (n m : Node) (level : Nat) (rest rest' : List (Nat × Line)),
    sights (lines raw level n) ++ rest = sights (lines raw' level m) ++ rest' →
    Part.ofNode raw n = Part.ofNode raw' m ∧ rest = rest'
  | ⟨_, _, _, []⟩, ⟨_, _, _, []⟩, _, _, _, h => by
    obtain ⟨hline, hrest⟩ := List.cons.inj h
    obtain ⟨hname, htext⟩ := Line.shown_word_inj (Prod.mk.inj hline).2
    rw [Part.ofNode, Part.ofNode, Part.ofNodes, Part.ofNodes, hname, htext]
    exact ⟨rfl, hrest⟩
  | ⟨_, _, _, []⟩, ⟨_, _, _, _ :: _⟩, _, _, _, h => by
    have hline := (Prod.mk.inj (List.cons.inj h).1).2
    exact absurd hline Line.shown_word_ne_opening
  | ⟨_, _, _, _ :: _⟩, ⟨_, _, _, []⟩, _, _, _, h => by
    have hline := (Prod.mk.inj (List.cons.inj h).1).2
    exact absurd hline.symm Line.shown_word_ne_opening
  | ⟨name, start, stop, child :: children⟩, ⟨name', start', stop', child' :: children'⟩, level,
      rest, rest', h => by
    rw [sights_block, sights_block] at h
    obtain ⟨hline, hblock⟩ := List.cons.inj h
    have hname := Line.opening.inj (Prod.mk.inj hline).2
    obtain ⟨hparts, hrest⟩ := ofNodes_of_sights (child :: children) (child' :: children') level
      start stop start' stop' rest rest' hblock
    rw [Part.ofNode, Part.ofNode, hname, hparts]
    exact ⟨rfl, hrest⟩

theorem ofNodes_of_sights : ∀ (ns ms : List Node) (level cursor stop cursor' stop' : Nat)
    (rest rest' : List (Nat × Line)),
    sights (body raw level cursor stop ns) ++ (level, .closing) :: rest =
      sights (body raw' level cursor' stop' ms) ++ (level, .closing) :: rest' →
    Part.ofNodes raw cursor stop ns = Part.ofNodes raw' cursor' stop' ms ∧ rest = rest'
  | [], [], _, _, _, _, _, _, _, h => by
    obtain ⟨htext, hrest⟩ := gap_inj noLiteral_closing noLiteral_closing h
    rw [Part.ofNodes, Part.ofNodes, htext]
    exact ⟨rfl, (List.cons.inj hrest).2⟩
  | [], m :: ms, _, _, _, _, _, _, _, h => by
    simp only [body, sights, List.map_append, List.append_assoc] at h
    obtain ⟨-, hrest⟩ := gap_inj noLiteral_closing (noLiteral_lines m) h
    exact absurd hrest (closing_ne_lines m)
  | n :: ns, [], _, _, _, _, _, _, _, h => by
    simp only [body, sights, List.map_append, List.append_assoc] at h
    obtain ⟨-, hrest⟩ := gap_inj (noLiteral_lines n) noLiteral_closing h
    exact absurd hrest.symm (closing_ne_lines n)
  | n :: ns, m :: ms, level, cursor, stop, cursor', stop', rest, rest', h => by
    simp only [body, sights, List.map_append, List.append_assoc] at h
    obtain ⟨htext, hrest⟩ := gap_inj (noLiteral_lines n) (noLiteral_lines m) h
    obtain ⟨hnode, hnext⟩ := ofNode_of_sights n m (level + 1) _ _ hrest
    obtain ⟨hnodes, hend⟩ := ofNodes_of_sights ns ms level n.stop stop m.stop stop' rest rest' hnext
    rw [Part.ofNodes, Part.ofNodes, htext, hnode, hnodes]
    exact ⟨rfl, hend⟩

end

/-! ## Texts from lines -/

/-- The texts that the lines show, in order. -/
def texts (ls : List (Nat × Line)) : List Bytes := ls.filterMap fun x => x.2.text?

theorem texts_append (ls ls' : List (Nat × Line)) : texts (ls ++ ls') = texts ls ++ texts ls' :=
  List.filterMap_append

theorem flatten_texts_gap (bs : Bytes) : (texts (gap level bs)).flatten = bs := by
  cases bs <;> simp [texts, gap, Line.text?]

mutual

/-- The texts of the lines are those of the parts. -/
theorem flatten_texts_lines : ∀ (n : Node) (level : Nat),
    (texts (lines raw level n)).flatten = (Part.ofNode raw n).bytes
  | ⟨_, _, _, []⟩, level => by
    rw [Part.ofNode, Part.bytes, Part.ofNodes, Part.bytesAll_stretch]
    simp [texts, lines, Line.text?]
  | ⟨name, start, stop, child :: children⟩, level => by
    have hbody := flatten_texts_body (child :: children) level start stop
    have hopening : texts [(level, Line.opening name)] = [] := rfl
    have hclosing : texts [(level, Line.closing)] = [] := rfl
    rw [lines, ← List.singleton_append, texts_append, texts_append, hopening, hclosing,
      List.nil_append, List.append_nil, hbody]
    rfl

theorem flatten_texts_body : ∀ (ns : List Node) (level cursor stop : Nat),
    (texts (body raw level cursor stop ns)).flatten = Part.bytesAll (Part.ofNodes raw cursor stop ns)
  | [], level, cursor, stop => by
    rw [body, flatten_texts_gap, Part.ofNodes, Part.bytesAll_stretch]
  | n :: ns, level, cursor, stop => by
    have hn := flatten_texts_lines n (level + 1)
    have hns := flatten_texts_body ns level n.stop stop
    rw [body, texts_append, texts_append, List.flatten_append, List.flatten_append,
      flatten_texts_gap, hn, hns, Part.ofNodes, Part.bytesAll_append, Part.bytesAll_stretch,
      Part.bytesAll, List.append_assoc]

end

/-! ## Joined lines -/

/-- The characters of the lines. -/
def charsAll (ls : List (Nat × Line)) : List (List Char) := ls.map fun x => x.2.chars x.1

variable {ls ls' : List (Nat × Line)}

theorem sights_of_charsAll (hls : ∀ x ∈ ls, Name.IsPlain x.2.name)
    (hls' : ∀ x ∈ ls', Name.IsPlain x.2.name) (h : charsAll ls = charsAll ls') :
    sights ls = sights ls' := by
  induction ls generalizing ls' with
  | nil =>
    cases ls' with
    | nil => rfl
    | cons x' ls' => cases h
  | cons x ls ih =>
    cases ls' with
    | nil => cases h
    | cons x' ls' =>
      obtain ⟨hline, hrest⟩ := List.cons.inj h
      obtain ⟨hlevel, hshown⟩ := Line.chars_inj (hls x (.head _)) (hls' x' (.head _)) hline
      have htail := ih (fun y hy => hls y (.tail _ hy)) (fun y hy => hls' y (.tail _ hy)) hrest
      exact congrArg₂ List.cons (Prod.ext hlevel hshown) htail

theorem joinLines_eq_unite (ps : List (List Char)) : Tree.joinLines ps = Text.unite '\n' ps := by
  induction ps with
  | nil => rfl
  | cons p ps ih =>
    cases ps with
    | nil => rfl
    | cons q ps => exact congrArg (p ++ '\n' :: ·) ih

theorem joinLines_inj (hls : ∀ x ∈ ls, Name.IsPlain x.2.name)
    (hls' : ∀ x ∈ ls', Name.IsPlain x.2.name) (hne : ls ≠ []) (hne' : ls' ≠ [])
    (h : Tree.joinLines (charsAll ls) = Tree.joinLines (charsAll ls')) :
    charsAll ls = charsAll ls' := by
  have hcut : ∀ ls : List (Nat × Line), (∀ x ∈ ls, Name.IsPlain x.2.name) → ls ≠ [] →
      Text.pieces '\n' (Tree.joinLines (charsAll ls)) = charsAll ls := by
    intro ls hls hne
    rw [joinLines_eq_unite]
    refine Text.pieces_unite (by simpa [charsAll] using hne) fun p hp => ?_
    obtain ⟨x, hx, rfl⟩ := List.mem_map.1 hp
    exact Line.newline_not_mem_chars (hls x hx)
  rw [← hcut ls hls hne, h, hcut ls' hls' hne']

theorem literals_joinLines (hls : ∀ x ∈ ls, Name.IsPlain x.2.name) (rest : List Char) :
    literals (Tree.joinLines (charsAll ls) ++ rest) = (texts ls).map escape ++ literals rest := by
  have hnewline : '"' ∉ ['\n'] := by decide
  induction ls with
  | nil => rfl
  | cons x ls ih =>
    have hx := hls x (.head _)
    have hrest := ih fun y hy => hls y (.tail _ hy)
    have htexts : texts (x :: ls) = x.2.text?.toList ++ texts ls := by
      unfold texts
      cases htext : x.2.text? <;> simp [htext]
    rw [htexts, List.map_append, List.append_assoc]
    cases ls with
    | nil => exact Line.literals_chars hx rest
    | cons y ls =>
      have hnext := Text.literals_append hnewline (Tree.joinLines (charsAll (y :: ls)) ++ rest)
      have hline : Tree.joinLines (charsAll (x :: y :: ls)) ++ rest =
          x.2.chars x.1 ++ (['\n'] ++ (Tree.joinLines (charsAll (y :: ls)) ++ rest)) := by
        simp [charsAll, Tree.joinLines]
      rw [hline, Line.literals_chars hx, hnext, hrest]

/-! ## The end of a program -/

/-- The mark that ends programs stands here at the end, and nowhere else. -/
def EndsOnce (cs : List Char) : Prop :=
  [';', '\n'] <:+ cs ∧ ∀ before after, cs = before ++ ';' :: '\n' :: after → after = []

/-- No line end comes after a semicolon. -/
def Unended (cs : List Char) : Prop := cs.IsChain fun c d => c = ';' → d ≠ '\n'

theorem unended_of_not_mem {cs : List Char} (h : '\n' ∉ cs) : Unended cs := by
  induction cs with
  | nil => exact .nil
  | cons c cs ih =>
    obtain ⟨-, hcs⟩ := not_or.1 (mt List.mem_cons.2 h)
    refine List.isChain_cons.2 ⟨?_, ih hcs⟩
    rintro d hd - rfl
    exact hcs (List.mem_of_mem_head? hd)

theorem unended_joinLines (hls : ∀ x ∈ ls, Name.IsPlain x.2.name) :
    Unended (Tree.joinLines (charsAll ls)) := by
  induction ls with
  | nil => exact .nil
  | cons x ls ih =>
    have hrest := ih fun y hy => hls y (.tail _ hy)
    have hline : Unended (x.2.chars x.1) :=
      unended_of_not_mem (Line.newline_not_mem_chars (hls x (.head _)))
    cases ls with
    | nil => exact hline
    | cons y ls =>
      refine List.isChain_append.2 ⟨hline, List.isChain_cons.2 ⟨?_, hrest⟩, ?_⟩
      · intro d _ hc
        exact absurd hc (by decide)
      · rintro c hc d hd rfl
        exact absurd hc (Line.getLast?_chars x.1 x.2)

theorem endsOnce_of_unended {cs : List Char} (h : Unended cs) : EndsOnce (cs ++ [';', '\n']) := by
  refine ⟨List.suffix_append _ _, fun before after heq => ?_⟩
  have hquiet : Unended (cs ++ [';']) := by
    refine List.isChain_append.2 ⟨h, .singleton _, ?_⟩
    intro c _ d hd _
    have hd : ';' = d := by simpa using hd
    simp [← hd]
  rcases List.eq_nil_or_concat after with rfl | ⟨init, d, rfl⟩
  · rfl
  · have hinit : cs ++ [';'] = before ++ ';' :: '\n' :: init := by
      have hall : (cs ++ [';']) ++ ['\n'] = (before ++ ';' :: '\n' :: init) ++ [d] := by
        simpa using heq
      exact (List.append_inj' hall rfl).1
    rw [hinit] at hquiet
    exact absurd rfl ((List.isChain_append_cons_cons.1 hquiet).2.1 rfl)

/-- Where the first program ends can be told from the text. -/
theorem EndsOnce.append_inj {cs ds as bs : List Char} (hcs : EndsOnce cs) (hds : EndsOnce ds)
    (h : cs ++ as = ds ++ bs) : cs = ds ∧ as = bs := by
  have hmore : ∀ {cs ds more : List Char}, EndsOnce cs → EndsOnce ds → ds = cs ++ more →
      more = [] := by
    rintro cs ds more ⟨⟨before, rfl⟩, -⟩ hds rfl
    exact hds.2 before more (by simp)
  rcases List.append_eq_append_iff.1 h with ⟨more, hds', has⟩ | ⟨more, hcs', hbs⟩
  · obtain rfl := hmore hcs hds hds'
    exact ⟨by simpa using hds'.symm, by simpa using has⟩
  · obtain rfl := hmore hds hcs hcs'
    exact ⟨by simpa using hcs', by simpa using hbs.symm⟩

end Lorth

namespace Tree

open Lorth

variable {a b t : Tree} {ts us : List Tree}

theorem lorthChars_eq (t : Tree) :
    t.lorthChars = joinLines (charsAll (Lorth.lines t.raw 0 t.root)) ++ [';', '\n'] := rfl

theorem toList_lorth (t : Tree) : t.lorth.toList = t.lorthChars := by
  rw [lorth, String.toList_ofList]

theorem lines_ne_nil (raw : Bytes) (level : Nat) (n : Node) : Lorth.lines raw level n ≠ [] := by
  obtain ⟨_, _, _, _ | _⟩ := n <;> simp [Lorth.lines]

/-- The program tells the parts of the root, and these tell the tree. -/
theorem eq_of_lorthChars (ha : a.Obtained) (hb : b.Obtained) (h : a.lorthChars = b.lorthChars) :
    a = b := by
  have hnames := @name_lines a.raw a.root 0 ha.wellFormed.isPlain
  have hnames' := @name_lines b.raw b.root 0 hb.wellFormed.isPlain
  rw [lorthChars_eq, lorthChars_eq] at h
  have hchars := joinLines_inj hnames hnames' (lines_ne_nil _ _ _) (lines_ne_nil _ _ _)
    (List.append_cancel_right h)
  have hsights := sights_of_charsAll hnames hnames' hchars
  have hparts := ofNode_of_sights a.root b.root 0 [] [] (congrArg (· ++ []) hsights)
  exact eq_of_parts ha.wellFormed.isValid hb.wellFormed.isValid hparts.1

theorem endsOnce_lorthChars (ht : t.Obtained) : EndsOnce t.lorthChars :=
  endsOnce_of_unended (unended_joinLines (name_lines t.root 0 ht.wellFormed.isPlain))

theorem literals_lorthChars (ht : t.Obtained) :
    ((Text.literals t.lorthChars).mapM Text.unescape).map List.flatten = some t.raw := by
  have hend : '"' ∉ [';', '\n'] := by decide
  have hliterals := literals_joinLines (@name_lines t.raw t.root 0 ht.wellFormed.isPlain)
    [';', '\n']
  have hvalid := ht.wellFormed.isValid
  have hbytes := (Part.layout_ofNode t.root 0 _ (fits_of_isValid hvalid) (Nat.le_refl _)).2
  rw [lorthChars_eq, hliterals, Text.literals_of_not_mem hend, List.append_nil,
    Text.mapM_unescape, Option.map_some, flatten_texts_lines, hbytes, text_root hvalid]

theorem eq_of_flatMap_lorthChars (hts : ∀ t ∈ ts, t.Obtained) (hus : ∀ u ∈ us, u.Obtained)
    (h : ts.flatMap lorthChars = us.flatMap lorthChars) : ts = us := by
  refine Text.flatMap_inj ?_ ?_ h
  · intro t rest
    simp [lorthChars]
  · intro t ht u hu cs ds heq
    have ht := hts t ht
    have hu := hus u hu
    obtain ⟨hsame, hrest⟩ := (endsOnce_lorthChars ht).append_inj (endsOnce_lorthChars hu) heq
    exact ⟨eq_of_lorthChars ht hu hsame, hrest⟩

/-- What a context of programs sends is the text of the programs. -/
theorem sent_lorth (ts : List Tree) : (Context.ofSerializer .lorth).sent (ts.map .serialize) =
    Utf8.encode (String.ofList (ts.flatMap lorthChars)) := by
  rw [Utf8.encode_eq_flatMap, String.toList_ofList]
  induction ts with
  | nil => rfl
  | cons t ts ih =>
    rw [List.flatMap_cons, List.flatMap_append, ← ih, ← toList_lorth, ← Utf8.encode_eq_flatMap]
    rfl

/-- **Programs lose nothing.** Trees with the same program are the same. The literals of a program,
unescaped, are the buffer. A program ends where `;` is followed by a line end, and nowhere else, so
that what a context sends for some trees tells these trees. -/
theorem lorth_lossless (ha : a.Obtained) (hb : b.Obtained) :
    (a.lorth = b.lorth → a = b) ∧
    ((Text.literals a.lorth.toList).mapM Text.unescape).map List.flatten = some a.raw ∧
    EndsOnce a.lorth.toList ∧
    ∀ ts us : List Tree, (∀ t ∈ ts, t.Obtained) → (∀ u ∈ us, u.Obtained) →
      (Context.ofSerializer .lorth).sent (ts.map .serialize) =
        (Context.ofSerializer .lorth).sent (us.map .serialize) → ts = us := by
  refine ⟨fun h => ?_, ?_, ?_, fun ts us hts hus h => ?_⟩
  · refine eq_of_lorthChars ha hb ?_
    rw [← toList_lorth, ← toList_lorth, h]
  · rw [toList_lorth]
    exact literals_lorthChars ha
  · rw [toList_lorth]
    exact endsOnce_lorthChars ha
  · rw [sent_lorth, sent_lorth] at h
    refine eq_of_flatMap_lorthChars hts hus ?_
    have hdecoded := congrArg Utf8.decode? h
    rw [Utf8.decode?_encode, Utf8.decode?_encode] at hdecoded
    exact String.ofList_inj.1 (Option.some.inj hdecoded)

/-- A byte as the text of a nameless child, or as the root's own text behind a nameless child: the
lines look the same but for their level, and the programs tell which it was. -/
theorem lorth_lossless_nameless :
    let a : Tree := ⟨⟨"$", 0, 1, [⟨"", 0, 1, []⟩]⟩, [120]⟩
    let b : Tree := ⟨⟨"$", 0, 1, [⟨"", 0, 0, []⟩]⟩, [120]⟩
    a.lorth ≠ b.lorth ∧
      ((Text.literals a.lorth.toList).mapM Text.unescape).map List.flatten = some [120] ∧
      EndsOnce a.lorth.toList ∧
      (Context.ofSerializer .lorth).sent [.serialize a, .serialize b] ≠
        (Context.ofSerializer .lorth).sent [.serialize b, .serialize a] := by
  intro a b
  have ha : a.Obtained :=
    .made (.push (@Tree.Made.named "$" _ rfl) (.appendBytes .empty [120]))
  have hb : b.Obtained := .made (.appendBytes (.push (@Tree.Made.named "$" _ rfl) .empty) [120])
  have hboth : ∀ t ∈ [a, b], t.Obtained := by simp [ha, hb]
  have hboth' : ∀ t ∈ [b, a], t.Obtained := by simp [ha, hb]
  have hne : a ≠ b := by decide
  obtain ⟨hinj, hliterals, hend, hlist⟩ := lorth_lossless ha hb
  refine ⟨fun h => hne (hinj h), hliterals, hend, fun h => ?_⟩
  exact hne (List.cons.inj (hlist [a, b] [b, a] hboth hboth' h)).1

end Tree

end SpanTree
