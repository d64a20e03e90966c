import SpanTree.Bill.Header
import SpanTree.Bill.Varint

/-!
# Varints: what is read is what was written

`Form i bs v` says which bytes are digits of `v`, the first of them at position `i`: every byte but
the last has its top bit set, and the tenth byte is at most 1. Reading accepts exactly these bytes,
whatever follows them; writing chooses the shortest of them.
-/

namespace SpanTree.Varint

inductive Form : Nat → Bytes → Nat → Prop
  | last {i : Nat} {b : UInt8} (hb : b.toNat < 128) (hi : i + 1 = maxLength → b.toNat ≤ 1) :
      Form i [b] b.toNat
  | more {i : Nat} {b : UInt8} {bs : Bytes} {v : Nat} (hb : 128 ≤ b.toNat)
      (hi : i + 1 ≠ maxLength) (h : Form (i + 1) bs v) : Form i (b :: bs) (b.toNat % 128 + 128 * v)

variable {i v used : Nat} {bs : Bytes}

theorem Form.length_pos (h : Form i bs v) : 0 < bs.length := by
  cases h <;> simp

/-! ## Reading -/

theorem decodeFrom_of_form (h : Form i bs v) (rest : Bytes) :
    decodeFrom i (bs ++ rest) = .ok (some (v, bs.length)) := by
  induction h with
  | @last i b hb hi =>
    have hover : ¬ (i + 1 = maxLength ∧ 1 < b.toNat) := by
      rintro ⟨h, h'⟩
      have := hi h
      omega
    simp [decodeFrom, hover, hb]
  | @more i b bs v hb hi _ ih =>
    have hover : ¬ (i + 1 = maxLength ∧ 1 < b.toNat) := fun h => hi h.1
    simp [decodeFrom, hover, Nat.not_lt.2 hb, ih]

theorem form_of_decodeFrom (h : decodeFrom i bs = .ok (some (v, used))) :
    ∃ ds rest, bs = ds ++ rest ∧ ds.length = used ∧ Form i ds v := by
  induction bs generalizing i v used with
  | nil => simp [decodeFrom] at h
  | cons b bs ih =>
    rw [decodeFrom] at h
    split at h
    · cases h
    · next hover =>
      split at h
      · next hb =>
        simp only [Except.ok.injEq, Option.some.injEq, Prod.mk.injEq] at h
        obtain ⟨rfl, rfl⟩ := h
        exact ⟨[b], bs, rfl, rfl, .last hb fun hi => by omega⟩
      · next hb =>
        split at h
        · cases h
        · cases h
        · next w n hrest =>
          simp only [Except.ok.injEq, Option.some.injEq, Prod.mk.injEq] at h
          obtain ⟨rfl, rfl⟩ := h
          obtain ⟨ds, rest, rfl, rfl, hform⟩ := ih hrest
          exact ⟨b :: ds, rest, rfl, rfl, .more (by omega) (fun hi => by omega) hform⟩

/-- Of two numbers at the front of the same bytes neither is longer. -/
theorem Form.unique_prefix {as ds es : Bytes} {w : Nat} (h : Form i as v) (h' : Form i bs w)
    (heq : as ++ ds = bs ++ es) : v = w ∧ as = bs ∧ ds = es := by
  have hleft := decodeFrom_of_form h ds
  rw [heq, decodeFrom_of_form h' es] at hleft
  simp only [Except.ok.injEq, Option.some.injEq, Prod.mk.injEq] at hleft
  obtain ⟨has, hds⟩ := List.append_inj heq hleft.2.symm
  exact ⟨hleft.1.symm, has, hds⟩

/-- A number that is cut off is neither a shorter number nor an overflow. -/
theorem decodeFrom_of_cut {ds es : Bytes} (h : Form i (ds ++ es) v) (hes : es ≠ []) :
    decodeFrom i ds = .ok none := by
  generalize hbs : ds ++ es = bs at h
  induction h generalizing ds with
  | @last i b hb hi =>
    obtain ⟨rfl, rfl⟩ | ⟨rfl, rfl⟩ := List.append_eq_singleton_iff.1 hbs
    · rfl
    · exact absurd rfl hes
  | @more i b bs v hb hi _ ih =>
    cases ds with
    | nil => rfl
    | cons c ds =>
      obtain ⟨rfl, hrest⟩ := List.cons.inj hbs
      have hover : ¬ (i + 1 = maxLength ∧ 1 < c.toNat) := fun h => hi h.1
      simp [decodeFrom, hover, Nat.not_lt.2 hb, ih hrest]

/-! ## Writing -/

/-- Numbers in front of whose last digit there are as many others are below this. -/
def limit : Nat → Nat
  | 0 => 2
  | n + 1 => 128 * limit n

/-- Numbers whose first digit stands at position `i` are below this. -/
def bound (i : Nat) : Nat := limit (maxLength - 1 - i)

theorem bound_succ (hi : i + 1 < maxLength) : bound i = 128 * bound (i + 1) := by
  unfold bound
  rw [show maxLength - 1 - i = maxLength - 1 - (i + 1) + 1 by omega, limit]

theorem two_le_limit (n : Nat) : 2 ≤ limit n := by
  induction n with
  | zero => exact Nat.le_refl 2
  | succ n ih =>
    rw [limit]
    omega

theorem two_le_bound (i : Nat) : 2 ≤ bound i :=
  two_le_limit _

theorem Form.lt_bound (h : Form i bs v) (hi : i < maxLength) : v < bound i := by
  induction h with
  | @last i b hb hlast =>
    by_cases hend : i + 1 = maxLength
    · have := hlast hend
      have := two_le_bound i
      omega
    · have := two_le_bound (i + 1)
      rw [bound_succ (by omega)]
      omega
  | @more i b bs v hb hne _ ih =>
    have := ih (by omega)
    rw [bound_succ (by omega)]
    omega

theorem form_encode (hi : i < maxLength) (hv : v < bound i) : Form i (encode v) v := by
  induction v using Nat.strongRecOn generalizing i with
  | ind v ih =>
    have hend : i + 1 = maxLength → v ≤ 1 := by
      intro h
      obtain rfl : i = 9 := by simpa [maxLength] using h
      have : bound 9 = 2 := rfl
      omega
    rw [encode]
    split
    · next hlt =>
      have hb : (UInt8.ofNat v).toNat = v := by simp; omega
      have hform := Form.last (i := i) (b := UInt8.ofNat v) (by omega) (by rwa [hb])
      rwa [hb] at hform
    · next hge =>
      have hb : (UInt8.ofNat (v % 128 + 128)).toNat = v % 128 + 128 := by simp; omega
      have hne : i + 1 ≠ maxLength := by
        intro h
        have := hend h
        omega
      have hrest : Form (i + 1) (encode (v / 128)) (v / 128) := by
        rw [bound_succ (by omega)] at hv
        exact ih (v / 128) (by omega) (by omega) (by omega)
      have hform := Form.more (b := UInt8.ofNat (v % 128 + 128)) (by omega) hne hrest
      rwa [hb, show (v % 128 + 128) % 128 + 128 * (v / 128) = v by omega] at hform

/-- No other digits of a number are fewer than those that are written. -/
theorem length_encode_le (h : Form i bs v) : (encode v).length ≤ bs.length := by
  induction h with
  | @last i b hb => rw [encode, if_pos hb]; simp
  | @more i b bs v hb _ h ih =>
    rw [encode]
    split
    · have := h.length_pos
      simp
    · rw [show (b.toNat % 128 + 128 * v) / 128 = v by omega]
      simpa using ih

theorem length_encode_mono {w : Nat} (h : v ≤ w) : (encode v).length ≤ (encode w).length := by
  induction w using Nat.strongRecOn generalizing v with
  | ind w ih =>
    rw [encode.eq_def v, encode.eq_def w]
    split
    · split <;> simp
    · next hge =>
      rw [if_neg (by omega)]
      simpa using ih (w / 128) (by omega) (Nat.div_le_div_right h)

/-- A number of more than 64 bits is written in bytes that are refused. -/
theorem decodeFrom_encode_of_bound_le (hi : i < maxLength) (hv : bound i ≤ v) (rest : Bytes) :
    decodeFrom i (encode v ++ rest) = .error .varintOverflow := by
  induction v using Nat.strongRecOn generalizing i with
  | ind v ih =>
    by_cases hend : i + 1 = maxLength
    · have hbound : bound i = 2 := by
        obtain rfl : i = 9 := by simpa [maxLength] using hend
        rfl
      rw [encode]
      split
      · have hb : 1 < (UInt8.ofNat v).toNat := by simp; omega
        rw [List.cons_append, decodeFrom, if_pos ⟨hend, hb⟩]
      · have hb : 1 < (UInt8.ofNat (v % 128 + 128)).toNat := by simp; omega
        rw [List.cons_append, decodeFrom, if_pos ⟨hend, hb⟩]
    · have htwo := two_le_bound (i + 1)
      rw [bound_succ (by omega)] at hv
      have hb : ¬ (UInt8.ofNat (v % 128 + 128)).toNat < 128 := by simp; omega
      rw [encode, if_neg (by omega), List.cons_append, decodeFrom, if_neg (fun h => hend h.1),
        if_neg hb, ih (v / 128) (by omega) (by omega) (by omega)]

theorem error_of_decodeFrom {e : Error} (h : decodeFrom i bs = .error e) : e = .varintOverflow := by
  induction bs generalizing i with
  | nil => cases h
  | cons b bs ih =>
    rw [decodeFrom] at h
    split at h
    · cases h
      rfl
    · split at h
      · cases h
      · split at h
        · next heq =>
          cases h
          exact ih heq
        · cases h
        · cases h

/-! ## Whole numbers -/

theorem decode_of_form (h : Form 0 bs v) (rest : Bytes) :
    decode (bs ++ rest) = .ok (some (v, bs.length)) :=
  decodeFrom_of_form h rest

theorem decode_of_cut {ds es : Bytes} (h : Form 0 (ds ++ es) v) (hes : es ≠ []) :
    decode ds = .ok none :=
  decodeFrom_of_cut h hes

theorem form_of_decode (h : decode bs = .ok (some (v, used))) :
    ∃ ds rest, bs = ds ++ rest ∧ ds.length = used ∧ Form 0 ds v :=
  form_of_decodeFrom h

theorem error_of_decode {e : Error} (h : decode bs = .error e) : e = .varintOverflow :=
  error_of_decodeFrom h

theorem bound_zero : bound 0 = Bill.terminator + 1 := rfl

/-- Every number of 64 bits can be written, the terminator among them. -/
theorem form_encode_of_le (hv : v ≤ Bill.terminator) : Form 0 (encode v) v :=
  form_encode (by decide) (by rw [bound_zero]; omega)

/-- What is read of the bytes that were written for a number is this number. -/
theorem Form.unique_encode {as ds es : Bytes} {w : Nat} (h : Form 0 as w)
    (heq : encode v ++ ds = as ++ es) : v = w ∧ encode v = as ∧ ds = es := by
  by_cases hv : v ≤ Bill.terminator
  · exact Form.unique_prefix (form_encode_of_le hv) h heq
  · have hlarge : bound 0 ≤ v := by
      rw [bound_zero]
      omega
    have hread := decodeFrom_encode_of_bound_le (by decide) hlarge ds
    rw [heq, decodeFrom_of_form h es] at hread
    cases hread

theorem Form.le_terminator (h : Form 0 bs v) : v ≤ Bill.terminator := by
  have := h.lt_bound (by decide)
  rw [bound_zero] at this
  omega

end SpanTree.Varint
