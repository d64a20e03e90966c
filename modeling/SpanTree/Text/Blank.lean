/-!
# White space

The characters of Unicode with the property `White_Space`. A text made of these alone counts as
blank.
-/

namespace SpanTree.Text

def isBlankChar (c : Char) : Bool :=
  (0x09 ≤ c.toNat && c.toNat ≤ 0x0D) || c.toNat == 0x20 || c.toNat == 0x85 || c.toNat == 0xA0
    || c.toNat == 0x1680 || (0x2000 ≤ c.toNat && c.toNat ≤ 0x200A) || c.toNat == 0x2028
    || c.toNat == 0x2029 || c.toNat == 0x202F || c.toNat == 0x205F || c.toNat == 0x3000

def isBlank (cs : List Char) : Bool := cs.all isBlankChar

@[simp] theorem isBlank_nil : isBlank [] = true := rfl

theorem isBlank_append (as bs : List Char) : isBlank (as ++ bs) = (isBlank as && isBlank bs) := by
  simp [isBlank]

end SpanTree.Text
