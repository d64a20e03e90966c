import Mathlib.Data.Nat.Digits.Defs
import SpanTree.Proofs.Bits
import SpanTree.Proofs.Varint

/-!
# Varints in words of 64 bits

Numbers are taken apart and put together in words: a digit is cut off by a mask and a shift, and is
set by a shift of up to 63 bits and an `or`. **A word loses no bit on the way** (`Word.write_eq`,
`Word.natural_read`). The invariant of reading is that the digits before position `i` fill no more
than the lowest `7 * i` bits; so the next digit meets none of them, and at the tenth position, where
one bit of the word is left, a digit above 1 has been refused.

What bytes come to is told from their top bits (`Unfinished`, `TooLarge`): **there is a number at
their front, unless fewer than ten of them are all open, or nine open ones are followed by more than
the word has room for** (`words_classified`).
-/

namespace SpanTree.Varint

/-! ## Bytes by their top bits -/

/-- The number of which these are the digits in base 128, the least first. -/
def value (bs : Bytes) : Nat := Nat.ofDigits 128 (bs.map fun b => b.toNat % 128)

/-- Too few bytes, each of which announces another. -/
structure Unfinished (bs : Bytes) : Prop where
  short : bs.length < 10
  isOpen : ∀ b ∈ bs, 128 ≤ b.toNat

/-- Nine bytes announce another, and the tenth does not fit into the one bit that is left. -/
structure TooLarge (bs : Bytes) : Prop where
  long : 10 ≤ bs.length
  isOpen : ∀ b ∈ bs.take 9, 128 ≤ b.toNat
  tenth : ∃ b, bs[9]? = some b ∧ 1 < b.toNat

/-- The bytes before the first that announces no other, this one, and those behind it. -/
structure Front (bs ds : Bytes) (last : UInt8) (rest : Bytes) : Prop where
  eq : bs = ds ++ last :: rest
  isOpen : ∀ b ∈ ds, 128 ≤ b.toNat
  isLast : last.toNat < 128

variable {i : Nat} {bs ds : Bytes} {last : UInt8} {rest : Bytes}

theorem value_cons (b : UInt8) (bs : Bytes) :
    value (b :: bs) = b.toNat % 128 + 128 * value bs := by
  simp [value, Nat.ofDigits_cons]

/-- Open bytes and a last one are digits of a number, if they do not go beyond the tenth. -/
theorem form_of_open (hopen : ∀ b ∈ ds, 128 ≤ b.toNat) (hlast : last.toNat < 128)
    (hi : i + ds.length < maxLength) (htenth : i + ds.length + 1 = maxLength → last.toNat ≤ 1) :
    Form i (ds ++ [last]) (value (ds ++ [last])) := by
  induction ds generalizing i with
  | nil =>
    have hvalue : value [last] = last.toNat := by simp [value, Nat.mod_eq_of_lt hlast]
    rw [List.nil_append, hvalue]
    exact .last hlast htenth
  | cons b ds ih =>
    obtain ⟨hb, hopen⟩ := List.forall_mem_cons.1 hopen
    rw [List.length_cons] at hi htenth
    rw [List.cons_append, value_cons]
    exact .more hb (by omega) (ih hopen (by omega) fun h => htenth (by omega))

theorem Form.length_le {v : Nat} (h : Form i bs v) (hi : i < maxLength) :
    bs.length ≤ maxLength - i := by
  induction h with
  | last => simp only [List.length_singleton]; omega
  | more _ hne _ ih =>
    have := ih (by omega)
    rw [List.length_cons]
    omega

theorem decodeFrom_of_open (hopen : ∀ b ∈ bs, 128 ≤ b.toNat) (hi : i + bs.length < maxLength) :
    decodeFrom i bs = .ok none := by
  induction bs generalizing i with
  | nil => rfl
  | cons b bs ih =>
    obtain ⟨hb, hopen⟩ := List.forall_mem_cons.1 hopen
    rw [List.length_cons] at hi
    rw [decodeFrom, if_neg (by omega), if_neg (by omega), ih hopen (by omega)]

theorem decodeFrom_of_large {b : UInt8} (hopen : ∀ b ∈ ds, 128 ≤ b.toNat)
    (hi : i + ds.length + 1 = maxLength) (hb : 1 < b.toNat) :
    decodeFrom i (ds ++ b :: rest) = .error .varintOverflow := by
  induction ds generalizing i with
  | nil => rw [List.nil_append, decodeFrom, if_pos ⟨hi, hb⟩]
  | cons c ds ih =>
    obtain ⟨hc, hopen⟩ := List.forall_mem_cons.1 hopen
    rw [List.length_cons] at hi
    rw [List.cons_append, decodeFrom, if_neg (by omega), if_neg (by omega),
      ih hopen (by omega)]

/-! ## What bytes come to -/

theorem Unfinished.decode (h : Unfinished bs) : decode bs = .ok none :=
  decodeFrom_of_open h.isOpen (by rw [Nat.zero_add]; exact h.short)

theorem TooLarge.decode (h : TooLarge bs) : decode bs = .error .varintOverflow := by
  obtain ⟨b, htenth, hb⟩ := h.tenth
  obtain ⟨hlt, rfl⟩ := List.getElem?_eq_some_iff.1 htenth
  have hsplit : bs.take 9 ++ bs[9] :: bs.drop 10 = bs := by
    rw [← List.drop_eq_getElem_cons hlt, List.take_append_drop]
  have hnine : 0 + (bs.take 9).length + 1 = maxLength := by
    rw [List.length_take_of_le (Nat.le_of_lt hlt)]
    rfl
  rw [← hsplit]
  exact decodeFrom_of_large h.isOpen hnine hb

theorem Front.decode (h : Front bs ds last rest) (hlen : ds.length < 10)
    (htenth : ds.length = 9 → last.toNat ≤ 1) :
    decode bs = .ok (some (value (ds ++ [last]), ds.length + 1)) := by
  have hform : Form 0 (ds ++ [last]) (value (ds ++ [last])) :=
    form_of_open h.isOpen h.isLast (by rw [maxLength]; omega)
      fun h => htenth (by rw [maxLength] at h; omega)
  have hread := decode_of_form hform rest
  rw [List.append_assoc, List.length_append] at hread
  rw [h.eq]
  exact hread

theorem exists_front (h : ¬ ∀ b ∈ bs, 128 ≤ b.toNat) : ∃ ds last rest, Front bs ds last rest := by
  induction bs with
  | nil => exact absurd (by simp) h
  | cons b bs ih =>
    by_cases hb : 128 ≤ b.toNat
    · have hrest : ¬ ∀ b ∈ bs, 128 ≤ b.toNat :=
        fun hall => h (List.forall_mem_cons.2 ⟨hb, hall⟩)
      obtain ⟨ds, last, rest, rfl, hopen, hlast⟩ := ih hrest
      exact ⟨b :: ds, last, rest, rfl, List.forall_mem_cons.2 ⟨hb, hopen⟩, hlast⟩
    · exact ⟨[], b, bs, rfl, by simp, by omega⟩

/-- There are no other bytes than these three kinds. -/
theorem unfinished_or_tooLarge_or_front (bs : Bytes) :
    Unfinished bs ∨ TooLarge bs ∨ ∃ ds last rest, Front bs ds last rest ∧
      ds.length < 10 ∧ (ds.length = 9 → last.toNat ≤ 1) := by
  by_cases hnine : ∀ b ∈ bs.take 9, 128 ≤ b.toNat
  · by_cases hlong : 10 ≤ bs.length
    · have hlt : 9 < bs.length := hlong
      have hlength : (bs.take 9).length = 9 := List.length_take_of_le (Nat.le_of_lt hlt)
      by_cases hb : 1 < bs[9].toNat
      · exact .inr (.inl ⟨hlong, hnine, _, List.getElem?_eq_getElem hlt, hb⟩)
      · have hsplit : bs = bs.take 9 ++ bs[9] :: bs.drop 10 := by
          rw [← List.drop_eq_getElem_cons hlt, List.take_append_drop]
        exact .inr (.inr ⟨_, _, _, ⟨hsplit, hnine, by omega⟩, by omega, fun _ => by omega⟩)
    · rw [List.take_of_length_le (by omega)] at hnine
      exact .inl ⟨by omega, hnine⟩
  · obtain ⟨ds, last, rest, hsplit, hopen, hlast⟩ := exists_front hnine
    have hlength := congrArg List.length hsplit
    simp only [List.length_take, List.length_append, List.length_cons] at hlength
    have heq : bs = ds ++ last :: (rest ++ bs.drop 9) := by
      rw [← List.cons_append, ← List.append_assoc, ← hsplit, List.take_append_drop]
    exact .inr (.inr ⟨ds, last, _, ⟨heq, hopen, hlast⟩, by omega, fun _ => by omega⟩)

theorem decode_eq_none_iff : decode bs = .ok none ↔ Unfinished bs := by
  refine ⟨fun h => ?_, Unfinished.decode⟩
  rcases unfinished_or_tooLarge_or_front bs with hbs | hbs | ⟨ds, last, rest, hbs, hlen, htenth⟩
  · exact hbs
  · rw [hbs.decode] at h
    cases h
  · rw [hbs.decode hlen htenth] at h
    cases h

theorem decode_eq_overflow_iff : decode bs = .error .varintOverflow ↔ TooLarge bs := by
  refine ⟨fun h => ?_, TooLarge.decode⟩
  rcases unfinished_or_tooLarge_or_front bs with hbs | hbs | ⟨ds, last, rest, hbs, hlen, htenth⟩
  · rw [hbs.decode] at h
    cases h
  · exact hbs
  · rw [hbs.decode hlen htenth] at h
    cases h

/-! ## Digits in words -/

namespace Word

theorem toNat_shiftRight_seven (v : UInt64) : (v >>> 7).toNat = v.toNat / 128 := by
  rw [UInt64.toNat_shiftRight, Nat.shiftRight_eq_div_pow]
  rfl

theorem shiftRight_seven_eq_zero_iff {v : UInt64} : v >>> 7 = 0 ↔ v.toNat < 128 := by
  rw [← UInt64.toNat_inj, toNat_shiftRight_seven]
  show v.toNat / 128 = 0 ↔ _
  omega

/-- The lowest seven bits of a word. -/
def digit (v : UInt64) : UInt8 := (v &&& 0x7F).toUInt8

/-- Writes the digits of a word behind the bytes that are there, and counts them. -/
def writeFrom (written : Nat) (v : UInt64) (out : Bytes) : Bytes × Nat :=
  if v >>> 7 = 0 then (out ++ [digit v], written + 1)
  else writeFrom (written + 1) (v >>> 7) (out ++ [digit v ||| 0x80])
termination_by v.toNat
decreasing_by
  have hlarge := mt shiftRight_seven_eq_zero_iff.2 ‹¬ v >>> 7 = 0›
  rw [toNat_shiftRight_seven]
  omega

def write (v : UInt64) (out : Bytes) : Bytes × Nat := writeFrom 0 v out

/-- The word with the digit at position `i` set. -/
def setDigit (i : Nat) (v : UInt64) (b : UInt8) : UInt64 :=
  v ||| ((b &&& 0x7F).toUInt64 <<< UInt64.ofNat (7 * i))

/-- Sets the digits that begin at position `i` in a word that holds the ones before it. -/
def readFrom (i : Nat) (v : UInt64) : Bytes → Except Error (Option (UInt64 × Nat))
  | [] => .ok none
  | b :: bs =>
    if i = maxLength - 1 ∧ 1 < b then .error .varintOverflow
    else if b &&& 0x80 = 0 then .ok (some (setDigit i v b, i + 1))
    else if i + 1 = maxLength then .error .varintOverflow
    else readFrom (i + 1) (setDigit i v b) bs

def read (bs : Bytes) : Except Error (Option (UInt64 × Nat)) := readFrom 0 0 bs

/-! ### Writing -/

theorem toNat_digit (v : UInt64) : (digit v).toNat = v.toNat % 128 := by
  have hmask : (v &&& 0x7F).toNat = v.toNat % 128 := Nat.and_two_pow_sub_one_eq_mod v.toNat 7
  rw [digit, UInt64.toNat_toUInt8, hmask]
  omega

theorem toNat_open_digit (v : UInt64) : (digit v ||| 0x80).toNat = v.toNat % 128 + 128 := by
  have hlow : (digit v).toNat < 2 ^ 7 := by
    rw [toNat_digit]
    omega
  rw [UInt8.or_comm, Bits.toNat_or (by decide) hlow, toNat_digit, Nat.add_comm]
  rfl

/-- The digits of a word are those of its number. -/
theorem writeFrom_eq (written : Nat) (v : UInt64) (out : Bytes) :
    writeFrom written v out = (out ++ encode v.toNat, written + (encode v.toNat).length) := by
  rw [writeFrom, encode]
  by_cases hlast : v.toNat < 128
  · have hbyte : digit v = UInt8.ofNat v.toNat := by
      rw [← UInt8.toNat_inj, toNat_digit, UInt8.toNat_ofNat']
      omega
    rw [if_pos (shiftRight_seven_eq_zero_iff.2 hlast), if_pos hlast, hbyte]
    rfl
  · have hbyte : digit v ||| 0x80 = UInt8.ofNat (v.toNat % 128 + 128) := by
      rw [← UInt8.toNat_inj, toNat_open_digit, UInt8.toNat_ofNat']
      omega
    rw [if_neg (mt shiftRight_seven_eq_zero_iff.1 hlast), if_neg hlast, writeFrom_eq, hbyte,
      toNat_shiftRight_seven, List.append_assoc, List.length_cons, Nat.add_assoc, Nat.add_comm 1]
    rfl
termination_by v.toNat
decreasing_by
  rw [toNat_shiftRight_seven]
  omega

theorem write_eq (v : UInt64) (out : Bytes) :
    write v out = (out ++ encode v.toNat, (encode v.toNat).length) := by
  rw [write, writeFrom_eq, Nat.zero_add]

/-! ### Reading -/

variable {v : UInt64} {b : UInt8}

theorem two_pow_seven_mul_succ (i : Nat) : 2 ^ (7 * (i + 1)) = 2 ^ (7 * i) * 128 := by
  rw [Nat.mul_succ, Nat.pow_add]

/-- A digit finds its place behind the bits that are set, and inside the word. -/
theorem toNat_setDigit (hv : v.toNat < 2 ^ (7 * i)) (hi : i < maxLength)
    (hb : i + 1 = maxLength → b.toNat ≤ 1) :
    (setDigit i v b).toNat = v.toNat + 2 ^ (7 * i) * (b.toNat % 128) := by
  have hdigit : (b &&& 0x7F).toUInt64.toNat = b.toNat % 128 := by
    rw [UInt8.toNat_toUInt64]
    exact Nat.and_two_pow_sub_one_eq_mod b.toNat 7
  rw [maxLength] at hi hb
  have hshift : (UInt64.ofNat (7 * i)).toNat % 64 = 7 * i := by
    rw [UInt64.toNat_ofNat']
    omega
  have hfits : (b.toNat % 128) <<< (7 * i) < 2 ^ 64 := by
    rw [Nat.shiftLeft_eq]
    by_cases hend : i = 9
    · subst hend
      have := hb rfl
      omega
    · have hpow : 2 ^ (7 * i) ≤ 2 ^ 56 := Nat.pow_le_pow_right (by decide) (by omega)
      calc b.toNat % 128 * 2 ^ (7 * i)
        _ ≤ 127 * 2 ^ 56 := Nat.mul_le_mul (by omega) hpow
        _ < 2 ^ 64 := by decide
  rw [setDigit, UInt64.toNat_or, UInt64.toNat_shiftLeft, hdigit, hshift, Nat.mod_eq_of_lt hfits,
    Bits.or_shiftLeft _ hv]

theorem setDigit_lt (hv : v.toNat < 2 ^ (7 * i)) (hi : i < maxLength)
    (hb : i + 1 = maxLength → b.toNat ≤ 1) : (setDigit i v b).toNat < 2 ^ (7 * (i + 1)) := by
  have hlt : b.toNat % 128 + 1 ≤ 128 := by omega
  rw [toNat_setDigit hv hi hb]
  calc v.toNat + 2 ^ (7 * i) * (b.toNat % 128)
    _ < 2 ^ (7 * i) + 2 ^ (7 * i) * (b.toNat % 128) := Nat.add_lt_add_right hv _
    _ = 2 ^ (7 * i) * (b.toNat % 128 + 1) := by rw [Nat.mul_add_one, Nat.add_comm]
    _ ≤ 2 ^ (7 * i) * 128 := Nat.mul_le_mul_left _ hlt
    _ = 2 ^ (7 * (i + 1)) := (two_pow_seven_mul_succ i).symm

/-- What is read into a word, as a number. -/
def natural (o : Except Error (Option (UInt64 × Nat))) : Except Error (Option (Nat × Nat)) :=
  o.map (Option.map fun (v, used) => (v.toNat, used))

/-- Digits from position `i` on, behind a number that fills the places before it. -/
theorem natural_readFrom (hv : v.toNat < 2 ^ (7 * i)) (hi : i < maxLength) :
    natural (readFrom i v bs) = (decodeFrom i bs).map
      (Option.map fun (w, used) => (v.toNat + 2 ^ (7 * i) * w, i + used)) := by
  induction bs generalizing i v with
  | nil => rfl
  | cons b bs ih =>
    have htest : (i = maxLength - 1 ∧ 1 < b) ↔ (i + 1 = maxLength ∧ 1 < b.toNat) := by
      rw [UInt8.lt_iff_toNat_lt]
      show _ ∧ 1 < b.toNat ↔ _
      omega
    rw [readFrom, decodeFrom]
    by_cases hover : i + 1 = maxLength ∧ 1 < b.toNat
    · rw [if_pos (htest.2 hover), if_pos hover]
      rfl
    · have hb : i + 1 = maxLength → b.toNat ≤ 1 := fun h => by omega
      have hset := toNat_setDigit hv hi hb
      rw [if_neg (mt htest.1 hover), if_neg hover]
      by_cases hlast : b.toNat < 128
      · rw [if_pos ((Bits.and_top_eq_zero_iff b).2 hlast), if_pos hlast]
        rw [Nat.mod_eq_of_lt hlast] at hset
        exact congrArg (fun w => Except.ok (some (w, i + 1))) hset
      · have hnext := ih (setDigit_lt hv hi hb) (by omega)
        rw [if_neg (mt (Bits.and_top_eq_zero_iff b).1 hlast), if_neg hlast, if_neg (by omega),
          hnext, hset]
        rcases decodeFrom (i + 1) bs with e | _ | ⟨w, used⟩
        · rfl
        · rfl
        · have hsum : v.toNat + 2 ^ (7 * i) * (b.toNat % 128) + 2 ^ (7 * (i + 1)) * w =
              v.toNat + 2 ^ (7 * i) * (b.toNat % 128 + 128 * w) := by
            rw [two_pow_seven_mul_succ, Nat.mul_add, Nat.mul_assoc, Nat.add_assoc]
          have hused : i + 1 + used = i + (used + 1) := by omega
          simp only [Except.map, Option.map, hsum, hused]

/-- **A word holds the number that the bytes denote.** -/
theorem natural_read (bs : Bytes) : natural (read bs) = decode bs := by
  rw [read, natural_readFrom (i := 0) (v := 0) (by decide) (by decide), decode]
  rcases decodeFrom 0 bs with e | _ | ⟨w, used⟩
  · rfl
  · rfl
  · simp [Except.map]

theorem read_eq_none_iff : read bs = .ok none ↔ decode bs = .ok none := by
  rw [← natural_read]
  rcases read bs with e | _ | ⟨w, used⟩ <;> simp [natural, Except.map]

theorem read_eq_some_iff {used : Nat} :
    read bs = .ok (some (v, used)) ↔ decode bs = .ok (some (v.toNat, used)) := by
  rw [← natural_read]
  rcases read bs with e | _ | ⟨w, used⟩ <;> simp [natural, Except.map, UInt64.toNat_inj]

theorem codes_encode (v : UInt64) :
    Codes read (fun used => .ok (some (v, used))) (.ok none) (encode v.toNat) := by
  have hform := form_encode_of_le (v := v.toNat) (Nat.le_of_lt_succ v.toNat_lt)
  refine ⟨?_, ?_, ?_⟩
  · exact fun rest => read_eq_some_iff.2 (decode_of_form hform rest)
  · intro ds used hread
    obtain ⟨ds, rest, rfl, -, hform'⟩ := form_of_decode (read_eq_some_iff.1 hread)
    rw [List.length_append]
    exact Nat.le_add_right_of_le (length_encode_le hform')
  · rintro ds ⟨es, hes⟩ hne
    rw [← hes] at hform
    exact read_eq_none_iff.2 (decode_of_cut hform fun h => hne (by rw [← hes, h, List.append_nil]))

theorem length_encode_bounds (v : UInt64) :
    1 ≤ (encode v.toNat).length ∧ (encode v.toNat).length ≤ 10 := by
  have hform := form_encode_of_le (v := v.toNat) (Nat.le_of_lt_succ v.toNat_lt)
  exact ⟨hform.length_pos, hform.length_le (by decide)⟩

end Word

/-- **A word is written in the shortest bytes that are read as it, one to ten of them, and bytes
come to nothing, to an overflow or to the number they denote, as their top bits tell.** -/
theorem words_classified :
    (∀ (v : UInt64) (out : Bytes), ∃ bs, Word.write v out = (out ++ bs, bs.length) ∧
      bs = encode v.toNat ∧ 1 ≤ bs.length ∧ bs.length ≤ 10 ∧
      Codes Word.read (fun used => .ok (some (v, used))) (.ok none) bs) ∧
    ∀ bs : Bytes, Word.natural (Word.read bs) = decode bs ∧
      (decode bs = .ok none ↔ Unfinished bs) ∧
      (decode bs = .error .varintOverflow ↔ TooLarge bs) ∧
      (¬ Unfinished bs → ¬ TooLarge bs → ∃ ds last rest, Front bs ds last rest ∧
        value (ds ++ [last]) < 2 ^ 64 ∧
        decode bs = .ok (some (value (ds ++ [last]), ds.length + 1))) := by
  refine ⟨fun v out => ?_, fun bs => ⟨Word.natural_read bs, decode_eq_none_iff,
    decode_eq_overflow_iff, fun hshort hlarge => ?_⟩⟩
  · obtain ⟨hpos, hle⟩ := Word.length_encode_bounds v
    exact ⟨_, Word.write_eq v out, rfl, hpos, hle, Word.codes_encode v⟩
  · obtain ⟨ds, last, rest, hfront, hlen, htenth⟩ :=
      ((unfinished_or_tooLarge_or_front bs).resolve_left hshort).resolve_left hlarge
    have hread := hfront.decode hlen htenth
    obtain ⟨_, _, -, -, hform⟩ := form_of_decode hread
    exact ⟨ds, last, rest, hfront, Nat.lt_succ_of_le hform.le_terminator, hread⟩

/-- The terminator, which has all bits of the word set, fills the tenth byte up. -/
theorem words_classified_terminator :
    let bs : Bytes := List.replicate 9 255 ++ [1]
    ∃ ds last rest, Front bs ds last rest ∧ value (ds ++ [last]) < 2 ^ 64 ∧
      decode bs = .ok (some (value (ds ++ [last]), ds.length + 1)) := by
  refine (words_classified.2 _).2.2.2 (fun h => ?_) fun h => ?_
  · exact absurd h.short (by decide)
  · obtain ⟨b, hb, hlarge⟩ := h.tenth
    cases hb
    exact absurd hlarge (by decide)

end SpanTree.Varint
