import SpanTree.Bytes

/-!
# UTF-8

`encode` and `decode?` go between texts and their bytes; `decode?` refuses everything that is not
well-formed UTF-8. `decodeLossy` shows any bytes as text: well-formed text is kept as it is, and
elsewhere each longest beginning of a character that is not completed becomes one U+FFFD.
-/

namespace SpanTree.Utf8

def encode (s : String) : Bytes := s.toByteArray.data.toList

def decode? (bs : Bytes) : Option String := String.fromUTF8? ⟨bs.toArray⟩

theorem decode?_encode (s : String) : decode? (encode s) = some s := by
  have h : (ByteArray.mk (encode s).toArray) = s.toByteArray := by simp [encode]
  rw [decode?, h, String.fromUTF8?, dif_pos s.isValidUTF8]
  rfl

theorem encode_of_decode? {bs : Bytes} {s : String} (h : decode? bs = some s) : encode s = bs := by
  unfold decode? String.fromUTF8? at h
  split at h
  · cases h
    simp [encode, String.fromUTF8]
  · cases h

/-- What a first byte asks for: how many bytes must follow, between which bounds the first of them
lies, and which bits the first byte itself brings. -/
structure Lead where
  more : Nat
  lo : UInt8
  hi : UInt8
  bits : Nat

def lead? (b : UInt8) : Option Lead :=
  if b < 0xC2 then none
  else if b < 0xE0 then some ⟨1, 0x80, 0xBF, b.toNat - 0xC0⟩
  else if b = 0xE0 then some ⟨2, 0xA0, 0xBF, 0⟩
  else if b = 0xED then some ⟨2, 0x80, 0x9F, 13⟩
  else if b < 0xF0 then some ⟨2, 0x80, 0xBF, b.toNat - 0xE0⟩
  else if b = 0xF0 then some ⟨3, 0x90, 0xBF, 0⟩
  else if b < 0xF4 then some ⟨3, 0x80, 0xBF, b.toNat - 0xF0⟩
  else if b = 0xF4 then some ⟨3, 0x80, 0x8F, 4⟩
  else none

/-- The bytes at the front of `bs` that go on with the character which `l` begins. -/
def Lead.continuation (l : Lead) : Bytes → Bytes
  | [] => []
  | b :: bs =>
    if l.lo ≤ b ∧ b ≤ l.hi then
      b :: (bs.take (l.more - 1)).takeWhile fun c => 0x80 ≤ c && c ≤ 0xBF
    else []

/-- The character at the front, or U+FFFD, and how many bytes after the first it takes. -/
def front (b : UInt8) (bs : Bytes) : Char × Nat :=
  if b < 0x80 then (Char.ofNat b.toNat, 0)
  else
    match lead? b with
    | none => (Char.ofNat 0xFFFD, 0)
    | some l =>
      let tail := l.continuation bs
      if tail.length = l.more then
        (Char.ofNat (tail.foldl (fun n c => 64 * n + c.toNat % 64) l.bits), tail.length)
      else (Char.ofNat 0xFFFD, tail.length)

/-- Leaves out `skip` bytes, then goes on character by character. -/
def repairInto (out : List Char) : Nat → Bytes → List Char
  | _, [] => out.reverse
  | skip + 1, _ :: bs => repairInto out skip bs
  | 0, b :: bs => repairInto ((front b bs).1 :: out) (front b bs).2 bs

def repair (bs : Bytes) : List Char := repairInto [] 0 bs

def decodeLossy (bs : Bytes) : String := (decode? bs).getD (String.ofList (repair bs))

theorem decodeLossy_encode (s : String) : decodeLossy (encode s) = s := by
  simp [decodeLossy, decode?_encode]

end SpanTree.Utf8
