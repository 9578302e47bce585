import Mathlib.Algebra.Group.Nat.Defs

/-!
# Tagged elements

The definite-length encoding of ASN.1: a tag, the length of the content in one
byte or behind the number of its bytes, and the content.
-/

namespace Der

/-- Lengths below `2 ^ 24`, in as few bytes as they need. -/
def lengthBytes (n : Nat) : List UInt8 :=
  if n < 0x80 then [UInt8.ofNat n]
  else if n < 0x100 then [0x81, UInt8.ofNat n]
  else if n < 0x10000 then [0x82, UInt8.ofNat (n / 0x100), UInt8.ofNat n]
  else [0x83, UInt8.ofNat (n / 0x10000), UInt8.ofNat (n / 0x100), UInt8.ofNat n]

def element (tag : UInt8) (content : List UInt8) : List UInt8 := tag :: (lengthBytes content.length ++ content)

theorem lengthBytes_cases {n : Nat} (h : n < 2 ^ 24) :
    n < 0x80 ∧ lengthBytes n = [UInt8.ofNat n] ∨
      n < 0x100 ∧ lengthBytes n = [0x81, UInt8.ofNat n] ∨
      n < 0x10000 ∧ lengthBytes n = [0x82, UInt8.ofNat (n / 0x100), UInt8.ofNat n] ∨
      n < 0x1000000 ∧ lengthBytes n = [0x83, UInt8.ofNat (n / 0x10000), UInt8.ofNat (n / 0x100), UInt8.ofNat n] := by
  unfold lengthBytes
  split
  · exact Or.inl ⟨‹_›, rfl⟩
  · split
    · exact Or.inr (Or.inl ⟨‹_›, rfl⟩)
    · split
      · exact Or.inr (Or.inr (Or.inl ⟨‹_›, rfl⟩))
      · exact Or.inr (Or.inr (Or.inr ⟨h, rfl⟩))

theorem length_lengthBytes {n : Nat} (h : n < 2 ^ 24) : 1 ≤ (lengthBytes n).length ∧ (lengthBytes n).length ≤ 4 := by
  rcases lengthBytes_cases h with ⟨-, h⟩ | ⟨-, h⟩ | ⟨-, h⟩ | ⟨-, h⟩ <;> simp [h]

theorem length_element (tag : UInt8) (content : List UInt8) :
    (element tag content).length = 1 + (lengthBytes content.length).length + content.length := by
  simp [element]
  omega

end Der
