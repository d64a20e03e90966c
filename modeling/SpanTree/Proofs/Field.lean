import SpanTree.Bill.Field

/-!
# Fields: the three widths of a span, and the two lengths

`SpanForm bs skip length` lists the ways in which a span can stand in a block. Reading accepts each
of them; writing takes the shortest, and fails only where no width is enough.
-/

namespace SpanTree.Bill

variable {skip length : Nat} {bs : Bytes}

/-! ## Spans -/

inductive SpanForm : Bytes → (skip length : Nat) → Prop
  | short {b : UInt8} (hb : b.toNat < 128) : SpanForm [b] (b.toNat / 16) (b.toNat % 16)
  | medium {b l : UInt8} (hb : 128 ≤ b.toNat) (hb' : b.toNat < 192) :
      SpanForm [b, l] (b.toNat % 64) l.toNat
  | long {b s l h : UInt8} (hb : 192 ≤ b.toNat) :
      SpanForm [b, s, l, h] (b.toNat % 64 + 64 * s.toNat) (l.toNat + 256 * h.toNat)

theorem SpanForm.length_pos (h : SpanForm bs skip length) : 0 < bs.length := by
  cases h <;> simp

theorem decodeSpan_of_form (h : SpanForm bs skip length) (rest : Bytes) :
    decodeSpan (bs ++ rest) = some (skip, length, bs.length) := by
  cases h with
  | short hb => simp [decodeSpan, hb]
  | medium hb hb' => simp [decodeSpan, Nat.not_lt.2 hb, hb']
  | @long b s l h hb => simp [decodeSpan, Nat.not_lt.2 hb, show ¬ b.toNat < 128 by omega]

theorem form_of_decodeSpan {used : Nat} (h : decodeSpan bs = some (skip, length, used)) :
    ∃ ds rest, bs = ds ++ rest ∧ ds.length = used ∧ SpanForm ds skip length := by
  unfold decodeSpan at h
  split at h
  · cases h
  · next b bs =>
    split at h
    · next hb =>
      cases h
      exact ⟨[b], bs, rfl, rfl, .short hb⟩
    · next hb =>
      split at h
      · next hb' =>
        split at h
        · next l rest =>
          cases h
          exact ⟨[b, l], rest, rfl, rfl, .medium (by omega) hb'⟩
        · cases h
      · next hb' =>
        split at h
        · next s l hi rest =>
          cases h
          exact ⟨[b, s, l, hi], rest, rfl, rfl, .long (by omega)⟩
        · cases h

/-- A span that is cut off is no shorter span. -/
theorem decodeSpan_of_cut {ds es : Bytes} (h : SpanForm (ds ++ es) skip length) (hes : es ≠ []) :
    decodeSpan ds = none := by
  generalize hbs : ds ++ es = bs at h
  have hshorter : ds.length < bs.length := by
    rw [← hbs, List.length_append]
    exact Nat.lt_add_of_pos_right (List.length_pos_iff.2 hes)
  rcases ds with _ | ⟨d, ds⟩
  · rfl
  cases h with
  | short => simp at hshorter
  | @medium b l hb hb' =>
    obtain ⟨rfl, -⟩ := List.cons.inj hbs
    rcases ds with _ | ⟨l, ds⟩
    · simp [decodeSpan, Nat.not_lt.2 hb, hb']
    · simp only [List.length_cons, List.length_nil] at hshorter
      omega
  | @long b s l h hb =>
    obtain ⟨rfl, -⟩ := List.cons.inj hbs
    have hshort : ¬ d.toNat < 128 := by omega
    rcases ds with _ | ⟨s, _ | ⟨l, _ | ⟨h, ds⟩⟩⟩
    · simp [decodeSpan, hshort, Nat.not_lt.2 hb]
    · simp [decodeSpan, hshort, Nat.not_lt.2 hb]
    · simp [decodeSpan, hshort, Nat.not_lt.2 hb]
    · simp only [List.length_cons, List.length_nil] at hshorter
      omega

theorem form_of_encodeSpan (h : encodeSpan skip length = .ok bs) : SpanForm bs skip length := by
  unfold encodeSpan at h
  split at h
  · next hfit =>
    cases h
    have hb : (UInt8.ofNat (16 * skip + length)).toNat = 16 * skip + length := by simp; omega
    have hform := SpanForm.short (b := UInt8.ofNat (16 * skip + length)) (by omega)
    rwa [hb, show (16 * skip + length) / 16 = skip by omega,
      show (16 * skip + length) % 16 = length by omega] at hform
  · split at h
    · next hfit =>
      cases h
      have hb : (UInt8.ofNat (128 + skip)).toNat = 128 + skip := by simp; omega
      have hl : (UInt8.ofNat length).toNat = length := by simp; omega
      have hform := SpanForm.medium (b := UInt8.ofNat (128 + skip)) (l := UInt8.ofNat length)
        (by omega) (by omega)
      rwa [hb, hl, show (128 + skip) % 64 = skip by omega] at hform
    · split at h
      · next hfit =>
        cases h
        simp only [maxSkip, maxSpanLength] at hfit
        have hb : (UInt8.ofNat (192 + skip % 64)).toNat = 192 + skip % 64 := by simp; omega
        have hs : (UInt8.ofNat (skip / 64)).toNat = skip / 64 := by simp; omega
        have hl : (UInt8.ofNat (length % 256)).toNat = length % 256 := by simp
        have hh : (UInt8.ofNat (length / 256)).toNat = length / 256 := by simp; omega
        have hform := SpanForm.long (b := UInt8.ofNat (192 + skip % 64))
          (s := UInt8.ofNat (skip / 64)) (l := UInt8.ofNat (length % 256))
          (h := UInt8.ofNat (length / 256)) (by omega)
        rwa [hb, hs, hl, hh, show (192 + skip % 64) % 64 + 64 * (skip / 64) = skip by omega,
          show length % 256 + 256 * (length / 256) = length by omega] at hform
      · cases h

/-- A span that stands in a block can be written in no more bytes. -/
theorem encodeSpan_of_form (h : SpanForm bs skip length) :
    ∃ ds, encodeSpan skip length = .ok ds ∧ ds.length ≤ bs.length := by
  unfold encodeSpan
  cases h with
  | @short b hb =>
    rw [if_pos (by omega)]
    exact ⟨_, rfl, by simp⟩
  | @medium b l hb hb' =>
    have := l.toNat_lt
    split
    · exact ⟨_, rfl, by simp⟩
    · rw [if_pos (by omega)]
      exact ⟨_, rfl, by simp⟩
  | @long b s l h hb =>
    have := s.toNat_lt
    have := l.toNat_lt
    have := h.toNat_lt
    split
    · exact ⟨_, rfl, by simp⟩
    · split
      · exact ⟨_, rfl, by simp⟩
      · rw [if_pos (by simp only [maxSkip, maxSpanLength]; omega)]
        exact ⟨_, rfl, by simp⟩

theorem encodeSpan_of_le (hskip : skip ≤ maxSkip) (hlength : length ≤ maxSpanLength) :
    ∃ bs, encodeSpan skip length = .ok bs := by
  unfold encodeSpan
  split
  · exact ⟨_, rfl⟩
  · split
    · exact ⟨_, rfl⟩
    · rw [if_pos ⟨hskip, hlength⟩]
      exact ⟨_, rfl⟩

theorem encodeSpan_of_lt (h : maxSkip < skip ∨ maxSpanLength < length) :
    encodeSpan skip length = .error (.spanOverflow skip length) := by
  simp only [maxSkip, maxSpanLength] at h
  rw [encodeSpan, if_neg (by omega), if_neg (by omega),
    if_neg (by simp only [maxSkip, maxSpanLength]; omega)]

/-! ## Names in full -/

theorem fullNameLength_le (lo hi : UInt8) : fullNameLength lo hi ≤ maxNameLength := by
  have := hi.toNat_lt
  simp only [fullNameLength, maxNameLength]
  omega

theorem encodeFullName_eq_ok {name : String} (h : encodeFullName name = .ok bs) :
    ∃ lo hi : UInt8, bs = lo :: hi :: Utf8.encode name ∧ 64 ≤ lo.toNat ∧ lo.toNat < 128 ∧
      (Utf8.encode name).length = fullNameLength lo hi := by
  simp only [encodeFullName] at h
  split at h
  · cases h
  · next hlen =>
    cases h
    simp only [maxNameLength] at hlen
    refine ⟨_, _, rfl, ?_, ?_, ?_⟩ <;>
      simp only [fullNameLength, UInt8.toNat_ofNat'] <;> omega

theorem encodeFullName_of_le {name : String} (h : (Utf8.encode name).length ≤ maxNameLength) :
    ∃ bs, encodeFullName name = .ok bs ∧ bs.length = (Utf8.encode name).length + 2 := by
  unfold encodeFullName
  rw [if_neg (by omega)]
  exact ⟨_, rfl, rfl⟩

/-! ## Children headers -/

theorem childrenLength_le (lo hi : UInt8) : childrenLength lo hi ≤ maxBlockLength := by
  have := hi.toNat_lt
  simp only [childrenLength, maxBlockLength]
  omega

theorem encodeChildrenHeader_eq_ok (h : encodeChildrenHeader length = .ok bs) :
    ∃ lo hi : UInt8, bs = [lo, hi] ∧ 128 ≤ lo.toNat ∧ childrenLength lo hi = length := by
  unfold encodeChildrenHeader at h
  split at h
  · cases h
  · next hlen =>
    cases h
    simp only [maxBlockLength] at hlen
    refine ⟨_, _, rfl, ?_, ?_⟩ <;>
      simp only [childrenLength, UInt8.toNat_ofNat'] <;> omega

theorem encodeChildrenHeader_of_le (h : length ≤ maxBlockLength) :
    ∃ bs, encodeChildrenHeader length = .ok bs ∧ bs.length = 2 := by
  unfold encodeChildrenHeader
  rw [if_neg (by omega)]
  exact ⟨_, rfl, rfl⟩

end SpanTree.Bill
