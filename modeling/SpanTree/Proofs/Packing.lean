import SpanTree.Proofs.Bits
import SpanTree.Proofs.Decoding
import SpanTree.Proofs.Encoding

/-!
# Fields packed into bytes

The numbers of a node are packed into bytes by shifts and tags, cut to a byte each, and unpacked by
shifts and masks. **Within its limit a field loses nothing by being cut, and above it nothing is
written** (`fields_unpack`): what is packed is the field that arithmetic gives (`outcome_putSpan`
and its kin), and what is unpacked is what arithmetic makes of the bytes (`takeSpan_eq`).

A buffer is written from left to right, except for the header of a node: its two bytes are left open
and are set when the length of what follows is known.
-/

namespace SpanTree.Bill

/-! ## Packing -/

/-- A header has the top bit of its first byte set, and a name has it clear. -/
def childrenFlag : UInt8 := 0b10000000

/-- The two bits in which the kinds of names, and those of spans, differ. -/
def tagMask : UInt8 := 0b11000000

def indexTag : UInt8 := 0b00000000

def fullTag : UInt8 := 0b01000000

def mediumTag : UInt8 := 0b10000000

def longTag : UInt8 := 0b11000000

def lowSix : UInt8 := 0b00111111

def lowSeven : UInt8 := 0b01111111

/-- The first byte of a header, which holds the seven lowest bits of the length. -/
def headerFirst (length : Nat) : UInt8 := childrenFlag ||| (UInt8.ofNat length &&& lowSeven)

/-- The first byte of a name in full, which holds the six lowest bits of its length. -/
def fullNameFirst (length : Nat) : UInt8 := fullTag ||| (UInt8.ofNat length &&& lowSix)

/-- The byte of a name that is known. -/
def indexByte (i : Nat) : UInt8 := indexTag ||| UInt8.ofNat i

/-- A computation that writes into a buffer, also when it fails. -/
abbrev Writing (α : Type) := ExceptT Error (StateM Bytes) α

def push (b : UInt8) : Writing Unit := modify (· ++ [b])

/-- Writes a span, and answers how many bytes it took. -/
def putSpan (skip length : Nat) : Writing Nat := do
  if skip ≤ 0b111 ∧ length ≤ 0b1111 then
    push (UInt8.ofNat (skip <<< 4 ||| length))
    return 1
  else if skip ≤ lowSix.toNat ∧ length ≤ 0xFF then
    push (mediumTag ||| UInt8.ofNat skip)
    push (UInt8.ofNat length)
    return 2
  else if skip ≤ maxSkip ∧ length ≤ maxSpanLength then
    push (longTag ||| (UInt8.ofNat skip &&& lowSix))
    push (UInt8.ofNat (skip >>> 6))
    push (UInt8.ofNat (length &&& 0xFF))
    push (UInt8.ofNat (length >>> 8))
    return 4
  else throw (.spanOverflow skip length)

def putFullName (name : String) : Writing Unit := do
  let length := (Utf8.encode name).length
  if maxNameLength < length then throw (.nameTooLong length)
  push (fullNameFirst length)
  push (UInt8.ofNat (length >>> 6))
  modify (· ++ Utf8.encode name)

/-- Sets the two bytes at a position to the header of so many bytes. -/
def setHeader (position length : Nat) : Writing Unit := do
  if maxBlockLength < length then throw (.childrenBlockTooLarge length)
  modify (·.set position (headerFirst length))
  modify (·.set (position + 1) (UInt8.ofNat (length >>> 7)))

/-! ## Unpacking -/

/-- The span at the front, and how many bytes it takes. -/
def takeSpan (bs : Bytes) : Option (Nat × Nat × Nat) := do
  let first ← bs[0]?
  if first &&& 0b10000000 = 0 then
    return ((first >>> 4 &&& 0b111).toNat, (first &&& 0b1111).toNat, 1)
  else if first &&& tagMask = mediumTag then
    let length ← bs[1]?
    return ((first &&& lowSix).toNat, length.toNat, 2)
  else
    let skip ← bs[1]?
    let low ← bs[2]?
    let high ← bs[3]?
    return ((first &&& lowSix).toNat ||| skip.toNat <<< 6, low.toNat ||| high.toNat <<< 8, 4)

def unpackNameLength (lo hi : UInt8) : Nat := (lo &&& lowSix).toNat ||| hi.toNat <<< 6

def unpackBlockLength (lo hi : UInt8) : Nat := (lo &&& lowSeven).toNat ||| hi.toNat <<< 7

variable {skip length : Nat} {out bs : Bytes} {lo hi : UInt8} {name : String}

/-! ## Masks and tags -/

theorem toNat_and_lowSix (b : UInt8) : (b &&& lowSix).toNat = b.toNat % 64 :=
  Nat.and_two_pow_sub_one_eq_mod b.toNat 6

theorem toNat_and_lowSeven (b : UInt8) : (b &&& lowSeven).toNat = b.toNat % 128 :=
  Nat.and_two_pow_sub_one_eq_mod b.toNat 7

theorem and_childrenFlag_eq_zero_iff (b : UInt8) : b &&& childrenFlag = 0 ↔ b.toNat < 128 :=
  Bits.and_top_eq_zero_iff b

theorem and_tagMask_eq_iff {b tag : UInt8} (htag : 64 ∣ tag.toNat) :
    b &&& tagMask = tag ↔ tag.toNat ≤ b.toNat ∧ b.toNat < tag.toNat + 64 := by
  rw [← UInt8.toNat_inj]
  show (b &&& 0xC0).toNat = tag.toNat ↔ _
  rw [Bits.toNat_and_tag]
  omega

/-- A number below the bits of its tag is added to it. -/
theorem or_ofNat {k n : Nat} {tag : UInt8} (htag : 2 ^ k ∣ tag.toNat) (hn : n < 2 ^ k)
    (hk : 2 ^ k ≤ 256) : tag ||| UInt8.ofNat n = UInt8.ofNat (tag.toNat + n) := by
  have hbyte : (UInt8.ofNat n).toNat = n := by
    rw [UInt8.toNat_ofNat']
    omega
  have hsum : (tag ||| UInt8.ofNat n).toNat = tag.toNat + n := by
    rw [Bits.toNat_or htag (by rwa [hbyte]), hbyte]
  have hlt := (tag ||| UInt8.ofNat n).toNat_lt
  rw [hsum] at hlt
  rw [← UInt8.toNat_inj, hsum, UInt8.toNat_ofNat', Nat.mod_eq_of_lt hlt]

/-- Of a number that is cut to six bits the tag gets the remainder. -/
theorem or_and_lowSix {tag : UInt8} (htag : 64 ∣ tag.toNat) (n : Nat) :
    tag ||| (UInt8.ofNat n &&& lowSix) = UInt8.ofNat (tag.toNat + n % 64) := by
  have hlow : UInt8.ofNat n &&& lowSix = UInt8.ofNat (n % 64) := by
    rw [← UInt8.toNat_inj, toNat_and_lowSix, UInt8.toNat_ofNat', UInt8.toNat_ofNat']
    omega
  rw [hlow]
  exact or_ofNat (k := 6) htag (Nat.mod_lt n (by decide)) (by decide)

theorem headerFirst_eq (length : Nat) : headerFirst length = UInt8.ofNat (128 + length % 128) := by
  have hlow : UInt8.ofNat length &&& lowSeven = UInt8.ofNat (length % 128) := by
    rw [← UInt8.toNat_inj, toNat_and_lowSeven, UInt8.toNat_ofNat', UInt8.toNat_ofNat']
    omega
  rw [headerFirst, hlow]
  exact or_ofNat (k := 7) (by decide) (Nat.mod_lt length (by decide)) (by decide)

theorem fullNameFirst_eq (length : Nat) :
    fullNameFirst length = UInt8.ofNat (64 + length % 64) :=
  or_and_lowSix (by decide) length

theorem indexByte_eq {i : Nat} (hi : i < dictionarySize) : indexByte i = UInt8.ofNat i := by
  have hsum : indexByte i = UInt8.ofNat (0 + i) := or_ofNat (k := 6) (by decide) hi (by decide)
  rwa [Nat.zero_add] at hsum

theorem shiftRight_six (n : Nat) : n >>> 6 = n / 64 := Nat.shiftRight_eq_div_pow n 6

theorem shiftRight_seven (n : Nat) : n >>> 7 = n / 128 := Nat.shiftRight_eq_div_pow n 7

theorem shiftRight_eight (n : Nat) : n >>> 8 = n / 256 := Nat.shiftRight_eq_div_pow n 8

/-! ## What is packed -/

theorem outcome_push_bind {α : Type} (b : UInt8) (f : Unit → Writing α) (out : Bytes) :
    outcome (push b >>= f) out = outcome (f ()) (out ++ [b]) := rfl

/-- The bytes that are packed are those of the shortest form. -/
theorem outcome_putSpan (skip length : Nat) (out : Bytes) :
    outcome (putSpan skip length) out =
      match encodeSpan skip length with
      | .ok bs => (.ok bs.length, out ++ bs)
      | .error e => (.error e, out) := by
  have hsix : lowSix.toNat = 63 := rfl
  rw [putSpan, encodeSpan, hsix]
  by_cases hshort : skip < 8 ∧ length < 16
  · have hpack : skip <<< 4 ||| length = 16 * skip + length := by
      rw [Nat.or_comm, Bits.or_shiftLeft (k := 4) skip hshort.2]
      omega
    rw [if_pos (by omega), if_pos hshort, hpack]
    rfl
  rw [if_neg (by omega), if_neg hshort]
  by_cases hmedium : skip < 64 ∧ length < 256
  · have hfirst : mediumTag ||| UInt8.ofNat skip = UInt8.ofNat (128 + skip) :=
      or_ofNat (k := 6) (by decide) hmedium.1 (by decide)
    rw [if_pos (by omega), if_pos hmedium, hfirst]
    simp only [outcome_push_bind, List.append_assoc]
    rfl
  rw [if_neg (by omega), if_neg hmedium]
  by_cases hlong : skip ≤ maxSkip ∧ length ≤ maxSpanLength
  · have hfirst : longTag ||| (UInt8.ofNat skip &&& lowSix) = UInt8.ofNat (192 + skip % 64) :=
      or_and_lowSix (by decide) skip
    have hlow : length &&& 0xFF = length % 256 := Nat.and_two_pow_sub_one_eq_mod length 8
    rw [if_pos hlong, if_pos hlong, hfirst, hlow, shiftRight_six, shiftRight_eight]
    simp only [outcome_push_bind, List.append_assoc]
    rfl
  · rw [if_neg hlong, if_neg hlong]
    rfl

theorem outcome_putFullName (name : String) (out : Bytes) :
    outcome (putFullName name) out =
      match encodeFullName name with
      | .ok bs => (.ok (), out ++ bs)
      | .error e => (.error e, out) := by
  simp only [putFullName, encodeFullName]
  by_cases hlong : maxNameLength < (Utf8.encode name).length
  · rw [if_pos hlong, if_pos hlong]
    rfl
  · rw [if_neg hlong, if_neg hlong, fullNameFirst_eq, shiftRight_six]
    show (Except.ok (), out ++ [_] ++ [_] ++ Utf8.encode name) = _
    simp only [List.append_assoc]
    rfl

theorem outcome_setHeader (before after : Bytes) (b c : UInt8) (length : Nat) :
    outcome (setHeader before.length length) (before ++ b :: c :: after) =
      match encodeChildrenHeader length with
      | .ok bs => (.ok (), before ++ bs ++ after)
      | .error e => (.error e, before ++ b :: c :: after) := by
  rw [setHeader, encodeChildrenHeader]
  by_cases hlong : maxBlockLength < length
  · rw [if_pos hlong, if_pos hlong]
    rfl
  · rw [if_neg hlong, if_neg hlong, headerFirst_eq, shiftRight_seven]
    show (Except.ok (), ((before ++ b :: c :: after).set before.length _).set _ _) = _
    simp

/-! ## What is unpacked -/

theorem unpackNameLength_eq (lo hi : UInt8) : unpackNameLength lo hi = fullNameLength lo hi := by
  have hlow : (lo &&& lowSix).toNat < 2 ^ 6 := by
    rw [toNat_and_lowSix]
    omega
  rw [unpackNameLength, Bits.or_shiftLeft _ hlow, toNat_and_lowSix]
  rfl

theorem unpackBlockLength_eq (lo hi : UInt8) : unpackBlockLength lo hi = childrenLength lo hi := by
  have hlow : (lo &&& lowSeven).toNat < 2 ^ 7 := by
    rw [toNat_and_lowSeven]
    omega
  rw [unpackBlockLength, Bits.or_shiftLeft _ hlow, toNat_and_lowSeven]
  rfl

theorem toNat_shiftRight_four_and {b : UInt8} (hb : b.toNat < 128) :
    (b >>> 4 &&& 0b111).toNat = b.toNat / 16 := by
  have hshift : (b >>> 4).toNat = b.toNat / 16 := by
    rw [UInt8.toNat_shiftRight, Nat.shiftRight_eq_div_pow]
    rfl
  have hmask : (b >>> 4 &&& 0b111).toNat = (b >>> 4).toNat % 8 :=
    Nat.and_two_pow_sub_one_eq_mod (b >>> 4).toNat 3
  rw [hmask, hshift]
  omega

/-- What is unpacked is what stands in the bytes, and nothing if bytes are missing. -/
theorem takeSpan_eq (bs : Bytes) : takeSpan bs = decodeSpan bs := by
  cases bs with
  | nil => rfl
  | cons b bs =>
    have hmedium : b &&& tagMask = mediumTag ↔ 128 ≤ b.toNat ∧ b.toNat < 192 :=
      and_tagMask_eq_iff (by decide)
    have hsix := toNat_and_lowSix b
    show (if b &&& 0b10000000 = 0 then _ else _) = if b.toNat < 128 then _ else _
    by_cases hshort : b.toNat < 128
    · have hlength : (b &&& 0b1111).toNat = b.toNat % 16 :=
        Nat.and_two_pow_sub_one_eq_mod b.toNat 4
      rw [if_pos ((Bits.and_top_eq_zero_iff b).2 hshort), if_pos hshort,
        toNat_shiftRight_four_and hshort, hlength]
      rfl
    rw [if_neg (mt (Bits.and_top_eq_zero_iff b).1 hshort), if_neg hshort]
    by_cases hlong : b.toNat < 192
    · rw [if_pos (hmedium.2 ⟨by omega, hlong⟩), if_pos hlong, hsix]
      cases bs <;> rfl
    · have hskip (s : UInt8) : (b &&& lowSix).toNat ||| s.toNat <<< 6 =
          b.toNat % 64 + 64 * s.toNat := by
        rw [← hsix]
        exact Bits.or_shiftLeft (k := 6) s.toNat (by omega)
      have hlength (l h : UInt8) : l.toNat ||| h.toNat <<< 8 = l.toNat + 256 * h.toNat :=
        Bits.or_shiftLeft (k := 8) h.toNat l.toNat_lt
      rw [if_neg (mt hmedium.1 (by omega)), if_neg hlong]
      simp only [hskip, hlength]
      rcases bs with _ | ⟨s, _ | ⟨l, _ | ⟨h, bs⟩⟩⟩ <;> rfl

/-! ## Spans as codes -/

theorem codes_encodeSpan (h : encodeSpan skip length = .ok bs) :
    Codes takeSpan (fun used => some (skip, length, used)) none bs := by
  have hform := form_of_encodeSpan h
  refine ⟨?_, ?_, ?_⟩
  · intro rest
    rw [takeSpan_eq, decodeSpan_of_form hform]
  · intro ds used hread
    rw [takeSpan_eq] at hread
    obtain ⟨ds, rest, rfl, -, hform'⟩ := form_of_decodeSpan hread
    obtain ⟨es, hes, hle⟩ := encodeSpan_of_form hform'
    obtain rfl : es = bs := Except.ok.inj (hes.symm.trans h)
    rw [List.length_append]
    exact Nat.le_add_right_of_le hle
  · rintro ds ⟨es, rfl⟩ hne
    rw [takeSpan_eq]
    exact decodeSpan_of_cut hform fun hes => hne (by rw [hes, List.append_nil])

/-! ## First bytes -/

/-- The kinds of fields of which one tells from the first byte which it is. -/
inductive FieldKind
  | header
  | fullName
  | index
deriving DecidableEq

/-- A field of the kind can begin with the byte. An index has six bits. -/
inductive Begins : FieldKind → UInt8 → Prop
  | header (length : Nat) : Begins .header (headerFirst length)
  | fullName (length : Nat) : Begins .fullName (fullNameFirst length)
  | index {i : Nat} (hi : i < dictionarySize) : Begins .index (indexByte i)

/-- The bits of a first byte tell its kind. -/
structure Tells (kind : FieldKind) (b : UInt8) : Prop where
  header : b &&& childrenFlag ≠ 0 ↔ kind = .header
  fullName : b &&& tagMask = fullTag ↔ kind = .fullName
  index : b &&& tagMask = indexTag ↔ kind = .index

theorem toNat_headerFirst (length : Nat) : (headerFirst length).toNat = 128 + length % 128 := by
  rw [headerFirst_eq, UInt8.toNat_ofNat']
  omega

theorem toNat_fullNameFirst (length : Nat) : (fullNameFirst length).toNat = 64 + length % 64 := by
  rw [fullNameFirst_eq, UInt8.toNat_ofNat']
  omega

theorem toNat_indexByte {i : Nat} (hi : i < dictionarySize) : (indexByte i).toNat = i := by
  rw [indexByte_eq hi, UInt8.toNat_ofNat']
  rw [dictionarySize] at hi
  omega

/-- **First bytes of different kinds are different.** -/
theorem Begins.tells {kind : FieldKind} {b : UInt8} (h : Begins kind b) : Tells kind b := by
  have hflag : b &&& childrenFlag ≠ 0 ↔ 128 ≤ b.toNat := by
    rw [Ne, and_childrenFlag_eq_zero_iff, Nat.not_lt]
  have hfull : b &&& tagMask = fullTag ↔ 64 ≤ b.toNat ∧ b.toNat < 128 :=
    and_tagMask_eq_iff (by decide)
  have hindex : b &&& tagMask = indexTag ↔ 0 ≤ b.toNat ∧ b.toNat < 64 :=
    and_tagMask_eq_iff (by decide)
  cases h with
  | header length =>
    have hb := toNat_headerFirst length
    exact ⟨iff_of_true (hflag.2 (by omega)) rfl,
      iff_of_false (mt hfull.1 (by omega)) (by decide),
      iff_of_false (mt hindex.1 (by omega)) (by decide)⟩
  | fullName length =>
    have hb := toNat_fullNameFirst length
    exact ⟨iff_of_false (mt hflag.1 (by omega)) (by decide),
      iff_of_true (hfull.2 (by omega)) rfl,
      iff_of_false (mt hindex.1 (by omega)) (by decide)⟩
  | @index i hi =>
    have hb := toNat_indexByte hi
    rw [dictionarySize] at hi
    exact ⟨iff_of_false (mt hflag.1 (by omega)) (by decide),
      iff_of_false (mt hfull.1 (by omega)) (by decide),
      iff_of_true (hindex.2 (by omega)) rfl⟩

/-! ## The laws of the fields -/

/-- A span is written if both of its numbers are within their limits, and its bytes are a code of
them. -/
structure SpanLaw (skip length : Nat) (out : Bytes) : Prop where
  fails_iff : Fails (putSpan skip length) out (.spanOverflow skip length) out ↔
    maxSkip < skip ∨ maxSpanLength < length
  written (hskip : skip ≤ maxSkip) (hlength : length ≤ maxSpanLength) :
    ∃ bs, encodeSpan skip length = .ok bs ∧
      Answers (putSpan skip length) out bs.length (out ++ bs) ∧
      Codes takeSpan (fun used => some (skip, length, used)) none bs

/-- A name is written in full if it is not too long, and is read again by its length. -/
structure FullNameLaw (name : String) (out : Bytes) : Prop where
  fails_iff : Fails (putFullName name) out (.nameTooLong (Utf8.encode name).length) out ↔
    maxNameLength < (Utf8.encode name).length
  written (hlength : (Utf8.encode name).length ≤ maxNameLength) :
    ∃ lo hi, encodeFullName name = .ok (lo :: hi :: Utf8.encode name) ∧
      Answers (putFullName name) out () (out ++ lo :: hi :: Utf8.encode name) ∧
      Begins .fullName lo ∧ lo &&& tagMask = fullTag ∧
      unpackNameLength lo hi = (Utf8.encode name).length ∧
      ∀ (e : Extent) (pos : Nat) (d : Dictionary) (rest : Bytes),
        pos + (lo :: hi :: Utf8.encode name ++ rest).length = e.size →
        Answers (decodeName e) ⟨pos, lo :: hi :: Utf8.encode name ++ rest, d⟩ name
          ⟨pos + (lo :: hi :: Utf8.encode name).length, rest, d.learn name⟩

/-- A header is set in the place of two bytes if the block behind it is not too large, and is read
again as the length of the block. -/
structure HeaderLaw (length : Nat) (before after : Bytes) (b c : UInt8) : Prop where
  fails_iff : Fails (setHeader before.length length) (before ++ b :: c :: after)
    (.childrenBlockTooLarge length) (before ++ b :: c :: after) ↔ maxBlockLength < length
  written (hlength : length ≤ maxBlockLength) :
    ∃ lo hi, encodeChildrenHeader length = .ok [lo, hi] ∧
      Answers (setHeader before.length length) (before ++ b :: c :: after) ()
        (before ++ lo :: hi :: after) ∧
      Begins .header lo ∧ lo &&& childrenFlag ≠ 0 ∧ unpackBlockLength lo hi = length ∧
      ∀ (e : Extent) (pos : Nat) (d : Dictionary) (rest : Bytes), pos + 2 + length ≤ e.size →
        Answers (decodeChildrenHeader e) ⟨pos, lo :: hi :: rest, d⟩ (some (pos + 2 + length))
          ⟨pos + 2, rest, d⟩

theorem spanLaw (skip length : Nat) (out : Bytes) : SpanLaw skip length out := by
  refine ⟨⟨fun h => ?_, fun h => ?_⟩, fun hskip hlength => ?_⟩
  · by_contra hfit
    obtain ⟨hskip, hlength⟩ := not_or.1 hfit
    obtain ⟨bs, hbs⟩ := encodeSpan_of_le (Nat.not_lt.1 hskip) (Nat.not_lt.1 hlength)
    rw [Fails, outcome_putSpan, hbs] at h
    cases h
  · rw [Fails, outcome_putSpan, encodeSpan_of_lt h]
  · obtain ⟨bs, hbs⟩ := encodeSpan_of_le hskip hlength
    refine ⟨bs, hbs, ?_, codes_encodeSpan hbs⟩
    rw [Answers, outcome_putSpan, hbs]

theorem fullNameLaw (name : String) (out : Bytes) : FullNameLaw name out := by
  refine ⟨⟨fun h => ?_, fun h => ?_⟩, fun hlength => ?_⟩
  · by_contra hfit
    rw [Fails, outcome_putFullName, encodeFullName, if_neg hfit] at h
    cases h
  · rw [Fails, outcome_putFullName, encodeFullName, if_pos h]
  · have hwritten : encodeFullName name = .ok (fullNameFirst (Utf8.encode name).length ::
        UInt8.ofNat ((Utf8.encode name).length / 64) :: Utf8.encode name) := by
      rw [encodeFullName, if_neg (Nat.not_lt.2 hlength), fullNameFirst_eq]
    obtain ⟨lo, hi, hbytes, hlo, hlo', hlen⟩ := encodeFullName_eq_ok hwritten
    simp only [List.cons.injEq, and_true] at hbytes
    obtain ⟨rfl, rfl⟩ := hbytes
    have hbegins := Begins.fullName (Utf8.encode name).length
    refine ⟨_, _, hwritten, ?_, hbegins, hbegins.tells.fullName.2 rfl,
      (unpackNameLength_eq _ _).trans hlen.symm, fun e pos d rest hsize => ?_⟩
    · rw [Answers, outcome_putFullName, hwritten]
    · exact decodeName_of_form (.full hlo hlo' hlen) hsize

theorem headerLaw (length : Nat) (before after : Bytes) (b c : UInt8) :
    HeaderLaw length before after b c := by
  refine ⟨⟨fun h => ?_, fun h => ?_⟩, fun hlength => ?_⟩
  · by_contra hfit
    rw [Fails, outcome_setHeader, encodeChildrenHeader, if_neg hfit] at h
    cases h
  · rw [Fails, outcome_setHeader, encodeChildrenHeader, if_pos h]
  · have hwritten : encodeChildrenHeader length =
        .ok [headerFirst length, UInt8.ofNat (length / 128)] := by
      rw [encodeChildrenHeader, if_neg (Nat.not_lt.2 hlength), headerFirst_eq]
    obtain ⟨lo, hi, hbytes, hlo, hlen⟩ := encodeChildrenHeader_eq_ok hwritten
    simp only [List.cons.injEq, and_true] at hbytes
    obtain ⟨rfl, rfl⟩ := hbytes
    have hbegins := Begins.header length
    refine ⟨_, _, hwritten, ?_, hbegins, hbegins.tells.header.2 rfl,
      (unpackBlockLength_eq _ _).trans hlen, fun e pos d rest hsize => ?_⟩
    · rw [Answers, outcome_setHeader, hwritten]
      simp
    · have hread := decodeChildrenHeader_some hlo (by rwa [hlen]) rest d
      rwa [hlen] at hread

/-- A name that is known is written as its index, which has six bits in the dictionary of a stream,
and is read again as this index. -/
theorem answers_indexByte {d : Dictionary} {i : Nat} (h : d.find name = .index i)
    (hi : i < dictionarySize) :
    Answers (encodeName name) d [indexByte i] d ∧ (indexByte i &&& lowSix).toNat = i := by
  constructor
  · have hlearn := Dictionary.learn_of_find_index h
    rw [indexByte_eq hi]
    exact answers_encodeName.2 ⟨.index h hi, hlearn.symm⟩
  · rw [toNat_and_lowSix, toNat_indexByte hi]
    exact Nat.mod_eq_of_lt hi

/-- **What is packed into a field is what is unpacked from it, a field that is too large is not
written at all, and first bytes tell headers, names in full and indices apart.** -/
theorem fields_unpack :
    (∀ skip length out, SpanLaw skip length out) ∧ (∀ bs, takeSpan bs = decodeSpan bs) ∧
      (∀ name out, FullNameLaw name out) ∧
      (∀ length before after b c, HeaderLaw length before after b c) ∧
      (∀ (d : Dictionary) (name : String) (i : Nat), d.find name = .index i → i < dictionarySize →
        Answers (encodeName name) d [indexByte i] d ∧ (indexByte i &&& lowSix).toNat = i) ∧
      ∀ kind b, Begins kind b → Tells kind b :=
  ⟨spanLaw, takeSpan_eq, fullNameLaw, headerLaw, fun _ _ _ => answers_indexByte,
    fun _ _ => Begins.tells⟩

/-- The largest skip and the largest length, in front of any bytes. -/
theorem fields_unpack_largest :
    ∃ bs, encodeSpan maxSkip maxSpanLength = .ok bs ∧
      Answers (putSpan maxSkip maxSpanLength) [] bs.length ([] ++ bs) ∧
      Codes takeSpan (fun used => some (maxSkip, maxSpanLength, used)) none bs :=
  (fields_unpack.1 maxSkip maxSpanLength []).written (Nat.le_refl _) (Nat.le_refl _)

end SpanTree.Bill
