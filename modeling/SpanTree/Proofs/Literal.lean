import SpanTree.Text.Escape

/-!
# Reading quoted literals

What stands for a byte in a literal has one of three forms (`EscapeForm`), and what a reader does
with a literal is said for each of them. Escaping is undone by `unescape`, leaves only printable
characters, and protects every quote: **a literal ends where its closing quote was written**
(`closeQuote_escape`), whatever the bytes and whatever follows.

`marks` takes a text with literals apart, into the characters outside and the insides of the
literals. A rendering is read by adding up the marks of its pieces.
-/

namespace SpanTree.Text

variable {b : UInt8} {as bs : Bytes} {cs ds rest : List Char}

/-- Two texts that are cut where a kind of characters ends are cut in the same place. -/
theorem cut_inj {p : Char → Prop} {as bs : List Char} {a b : Char} (has : ∀ c ∈ as, p c)
    (hbs : ∀ c ∈ bs, p c) (ha : ¬ p a) (hb : ¬ p b) (h : as ++ a :: cs = bs ++ b :: ds) :
    as = bs ∧ a = b ∧ cs = ds := by
  induction as generalizing bs with
  | nil =>
    cases bs with
    | nil =>
      obtain ⟨hab, hrest⟩ := List.cons.inj h
      exact ⟨rfl, hab, hrest⟩
    | cons c bs =>
      obtain ⟨rfl, -⟩ := List.cons.inj h
      exact absurd (hbs a (.head _)) ha
  | cons c as ih =>
    cases bs with
    | nil =>
      obtain ⟨rfl, -⟩ := List.cons.inj h
      exact absurd (has c (.head _)) hb
    | cons d bs =>
      obtain ⟨rfl, hrest⟩ := List.cons.inj h
      obtain ⟨hsame, hnext⟩ := ih (fun x hx => has x (.tail _ hx)) (fun x hx => hbs x (.tail _ hx))
        hrest
      exact ⟨congrArg (c :: ·) hsame, hnext⟩

/-- Pieces that tell themselves and where they end, whatever follows, can be told from the text that
they make up. -/
theorem flatMap_inj {α : Type} {f : α → List Char} {xs ys : List α}
    (hne : ∀ x rest, f x ++ rest ≠ [])
    (hcut : ∀ x ∈ xs, ∀ y ∈ ys, ∀ cs ds, f x ++ cs = f y ++ ds → x = y ∧ cs = ds)
    (h : xs.flatMap f = ys.flatMap f) : xs = ys := by
  induction xs generalizing ys with
  | nil =>
    cases ys with
    | nil => rfl
    | cons y ys => exact absurd h.symm (hne y _)
  | cons x xs ih =>
    cases ys with
    | nil => exact absurd h (hne x _)
    | cons y ys =>
      rw [List.flatMap_cons, List.flatMap_cons] at h
      obtain ⟨rfl, hrest⟩ := hcut x (.head _) y (.head _) _ _ h
      rw [ih (fun a ha b hb => hcut a (.tail _ ha) b (.tail _ hb)) hrest]

/-! ## What stands for a byte -/

inductive EscapeForm : UInt8 → List Char → Prop
  | plain {c : Char} (hbackslash : c ≠ '\\') (hquote : c ≠ '"') (hlo : ' ' ≤ c) (hhi : c ≤ '~') :
      EscapeForm (UInt8.ofNat c.toNat) [c]
  | short {b : UInt8} {c : Char}
      (h : (b, c) ∈ [(0x5C, '\\'), (0x22, '"'), (0x0A, 'n'), (0x09, 't'), (0x0D, 'r')]) :
      EscapeForm b ['\\', c]
  | hex {high low : Nat} (hhigh : high < 16) (hlow : low < 16) :
      EscapeForm (UInt8.ofNat (16 * high + low)) ['\\', 'x', hexDigit high, hexDigit low]

theorem toNat_ofNat_of_lt {n : Nat} (h : n < 128) : (Char.ofNat n).toNat = n := by
  have hvalid : n.isValidChar := .inl (by omega)
  rw [Char.ofNat, dif_pos hvalid]
  rfl

/-- A printable byte is the code of the character that stands for it. -/
theorem form_of_printable (hbackslash : b ≠ 0x5C) (hquote : b ≠ 0x22)
    (h : isPrintableByte b = true) : EscapeForm b [Char.ofNat b.toNat] := by
  simp only [isPrintableByte, Bool.and_eq_true, decide_eq_true_eq] at h
  have hlo : 0x20 ≤ b.toNat := h.1
  have hhi : b.toNat ≤ 0x7E := h.2
  have hcode : (Char.ofNat b.toNat).toNat = b.toNat := toNat_ofNat_of_lt (by omega)
  have hform := EscapeForm.plain (c := Char.ofNat b.toNat) ?_ ?_ ?_ ?_
  · rwa [hcode, UInt8.ofNat_toNat] at hform
  · intro hc
    rw [hc] at hcode
    exact hbackslash (UInt8.toNat_inj.1 hcode.symm)
  · intro hc
    rw [hc] at hcode
    exact hquote (UInt8.toNat_inj.1 hcode.symm)
  · show 0x20 ≤ (Char.ofNat b.toNat).toNat
    rwa [hcode]
  · show (Char.ofNat b.toNat).toNat ≤ 0x7E
    rwa [hcode]

theorem form_escapeByte (b : UInt8) : EscapeForm b (escapeByte b) := by
  have hb := b.toNat_lt
  unfold escapeByte
  split
  · next h => exact .short (by simp [h])
  split
  · next h => exact .short (by simp [h])
  split
  · next h => exact .short (by simp [h])
  split
  · next h => exact .short (by simp [h])
  split
  · next h => exact .short (by simp [h])
  split
  · next hbackslash hquote _ _ _ h => exact form_of_printable hbackslash hquote h
  · have hform := @EscapeForm.hex (b.toNat / 16) (b.toNat % 16) (by omega) (by omega)
    rwa [Nat.div_add_mod, UInt8.ofNat_toNat] at hform

theorem hexDigit_printable {n : Nat} (h : n < 16) :
    hexDigit n ≠ '\\' ∧ hexDigit n ≠ '"' ∧ ' ' ≤ hexDigit n ∧ hexDigit n ≤ '~' := by
  revert n
  decide

theorem hexValue?_hexDigit {n : Nat} (h : n < 16) : hexValue? (hexDigit n) = some n := by
  revert n
  decide

theorem EscapeForm.printable (h : EscapeForm b cs) : ∀ c ∈ cs, ' ' ≤ c ∧ c ≤ '~' := by
  cases h with
  | plain _ _ hlo hhi => simpa using ⟨hlo, hhi⟩
  | short h =>
    refine List.forall_mem_cons.2 ⟨by decide, List.forall_mem_singleton.2 ?_⟩
    simp only [List.mem_cons, Prod.mk.injEq, List.not_mem_nil, or_false] at h
    rcases h with ⟨-, rfl⟩ | ⟨-, rfl⟩ | ⟨-, rfl⟩ | ⟨-, rfl⟩ | ⟨-, rfl⟩ <;> decide
  | hex hhigh hlow =>
    have hh := (hexDigit_printable hhigh).2.2
    have hl := (hexDigit_printable hlow).2.2
    simp [hh, hl]

/-! ## Undoing escapes -/

theorem EscapeForm.unescape (h : EscapeForm b cs) (rest : List Char) :
    unescape (cs ++ rest) = (unescape rest).map (b :: ·) := by
  cases h with
  | plain hbackslash hquote hlo hhi => simp [Text.unescape, hbackslash, hquote, hlo, hhi]
  | short h =>
    simp only [List.mem_cons, Prod.mk.injEq, List.not_mem_nil, or_false] at h
    rcases h with ⟨rfl, rfl⟩ | ⟨rfl, rfl⟩ | ⟨rfl, rfl⟩ | ⟨rfl, rfl⟩ | ⟨rfl, rfl⟩ <;> rfl
  | hex hhigh hlow => simp [Text.unescape, hexValue?_hexDigit hhigh, hexValue?_hexDigit hlow]

/-- **Escaping is undone.** -/
theorem unescape_escape (bs : Bytes) : unescape (escape bs) = some bs := by
  induction bs with
  | nil => rfl
  | cons b bs ih => rw [escape_cons, (form_escapeByte b).unescape, ih, Option.map_some]

theorem escape_inj : escape as = escape bs ↔ as = bs := by
  constructor
  · intro h
    have hundone := unescape_escape as
    rw [h, unescape_escape] at hundone
    exact (Option.some.inj hundone).symm
  · intro h
    rw [h]

theorem mapM_unescape (texts : List Bytes) : (texts.map escape).mapM unescape = some texts := by
  induction texts with
  | nil => rfl
  | cons bs texts ih => simp [List.mapM_cons, unescape_escape, ih]

theorem escape_printable (bs : Bytes) : ∀ c ∈ escape bs, ' ' ≤ c ∧ c ≤ '~' := by
  intro c hc
  obtain ⟨b, -, hc⟩ := List.mem_flatMap.1 hc
  exact (form_escapeByte b).printable c hc

theorem newline_not_mem_escape (bs : Bytes) : '\n' ∉ escape bs := by
  intro h
  exact absurd (escape_printable bs '\n' h).1 (by decide)

/-! ## The end of a literal -/

/-- What stands before the first quote that no backslash protects, and what stands behind it. -/
def closeQuote : List Char → List Char × List Char
  | [] => ([], [])
  | '"' :: cs => ([], cs)
  | '\\' :: c :: cs => ('\\' :: c :: (closeQuote cs).1, (closeQuote cs).2)
  | c :: cs => (c :: (closeQuote cs).1, (closeQuote cs).2)

theorem closeQuote_plain {c : Char} (hbackslash : c ≠ '\\') (hquote : c ≠ '"') (cs : List Char) :
    closeQuote (c :: cs) = (c :: (closeQuote cs).1, (closeQuote cs).2) := by
  simp [closeQuote, hbackslash]

theorem EscapeForm.closeQuote (h : EscapeForm b cs) (rest : List Char) :
    closeQuote (cs ++ rest) = (cs ++ (closeQuote rest).1, (closeQuote rest).2) := by
  cases h with
  | plain hbackslash hquote _ _ => exact closeQuote_plain hbackslash hquote rest
  | short h =>
    simp only [List.mem_cons, Prod.mk.injEq, List.not_mem_nil, or_false] at h
    rcases h with ⟨-, rfl⟩ | ⟨-, rfl⟩ | ⟨-, rfl⟩ | ⟨-, rfl⟩ | ⟨-, rfl⟩ <;> rfl
  | @hex high low hhigh hlow =>
    obtain ⟨hhback, hhquote, -⟩ := hexDigit_printable hhigh
    obtain ⟨hlback, hlquote, -⟩ := hexDigit_printable hlow
    have hlast := closeQuote_plain hlback hlquote rest
    have hboth := closeQuote_plain hhback hhquote (hexDigit low :: rest)
    rw [hlast] at hboth
    simp [Text.closeQuote, hboth]

/-- **A literal ends where its closing quote was written.** -/
theorem closeQuote_escape (bs : Bytes) (rest : List Char) :
    closeQuote (escape bs ++ '"' :: rest) = (escape bs, rest) := by
  induction bs with
  | nil => rfl
  | cons b bs ih => rw [escape_cons, List.append_assoc, (form_escapeByte b).closeQuote, ih]

theorem closeQuote_of_plain (h : ∀ c ∈ cs, c ≠ '\\' ∧ c ≠ '"') (rest : List Char) :
    closeQuote (cs ++ '"' :: rest) = (cs, rest) := by
  induction cs with
  | nil => rfl
  | cons c cs ih =>
    obtain ⟨hbackslash, hquote⟩ := h c (.head _)
    rw [List.cons_append, closeQuote_plain hbackslash hquote, ih fun d hd => h d (.tail _ hd)]

/-- The bytes of a literal and what follows it can be told from the text. -/
theorem escape_quote_inj (h : escape as ++ '"' :: cs = escape bs ++ '"' :: ds) :
    as = bs ∧ cs = ds := by
  have hclose := closeQuote_escape as cs
  rw [h, closeQuote_escape, Prod.mk.injEq] at hclose
  exact ⟨escape_inj.1 hclose.1.symm, hclose.2.symm⟩

theorem length_closeQuote_le (cs : List Char) : (closeQuote cs).2.length ≤ cs.length := by
  fun_induction closeQuote cs <;> simp_all <;> omega

/-! ## Characters outside literals, and literals -/

/-- What is found in a text with literals. -/
inductive Mark
  | char (c : Char)
  | literal (inside : List Char)

def marks : List Char → List Mark
  | [] => []
  | c :: cs =>
    if c = '"' then .literal (closeQuote cs).1 :: marks (closeQuote cs).2
    else .char c :: marks cs
termination_by cs => cs.length
decreasing_by
  · exact Nat.lt_succ_of_le (length_closeQuote_le cs)
  · exact Nat.lt_succ_self cs.length

theorem marks_quote (bs : Bytes) (rest : List Char) :
    marks ('"' :: (escape bs ++ '"' :: rest)) = .literal (escape bs) :: marks rest := by
  rw [marks, if_pos rfl, closeQuote_escape]

theorem marks_append (h : '"' ∉ cs) (rest : List Char) :
    marks (cs ++ rest) = cs.map .char ++ marks rest := by
  induction cs with
  | nil => rfl
  | cons c cs ih =>
    obtain ⟨hc, hcs⟩ := not_or.1 (mt List.mem_cons.2 h)
    rw [List.cons_append, marks, if_neg (Ne.symm hc), ih hcs]
    rfl

/-- The insides of the literals of a text, in order. -/
def literals (cs : List Char) : List (List Char) :=
  (marks cs).filterMap fun
    | .char _ => none
    | .literal inside => some inside

/-- The characters of a text that stand outside literals, in order. -/
def outside (cs : List Char) : List Char :=
  (marks cs).filterMap fun
    | .char c => some c
    | .literal _ => none

theorem literals_of_not_mem (h : '"' ∉ cs) : literals cs = [] := by
  have hmarks := marks_append h []
  rw [List.append_nil, marks, List.append_nil] at hmarks
  rw [literals, hmarks, List.filterMap_map]
  simp

theorem literals_append (h : '"' ∉ cs) (rest : List Char) :
    literals (cs ++ rest) = literals rest := by
  rw [literals, marks_append h, List.filterMap_append, List.filterMap_map]
  simp [literals]

theorem literals_quote (bs : Bytes) (rest : List Char) :
    literals ('"' :: (escape bs ++ '"' :: rest)) = escape bs :: literals rest := by
  rw [literals, marks_quote]
  rfl

theorem outside_append (h : '"' ∉ cs) (rest : List Char) :
    outside (cs ++ rest) = cs ++ outside rest := by
  rw [outside, marks_append h, List.filterMap_append, List.filterMap_map]
  exact congrArg (· ++ outside rest) List.filterMap_some

theorem outside_quote (bs : Bytes) (rest : List Char) :
    outside ('"' :: (escape bs ++ '"' :: rest)) = outside rest := by
  rw [outside, marks_quote]
  rfl

theorem outside_quote_plain (h : ∀ c ∈ cs, c ≠ '\\' ∧ c ≠ '"') (rest : List Char) :
    outside ('"' :: (cs ++ '"' :: rest)) = outside rest := by
  rw [outside, marks, if_pos rfl, closeQuote_of_plain h]
  rfl

end SpanTree.Text
