import CWebServer.Str

/-!
# The UTF codecs

The encoders return what they write. Both decoders are one function on
different units, which is that of UTF-16: on bytes it takes the first one for
the code point. So UTF-8 is read back where it has one byte.
-/

namespace CWebServer

structure StrStringDecode where
  codepoint : UInt32 := (chr '#').toUInt32
  size : UInt32 := 1
  deriving DecidableEq, Repr

/-- A unit is widened to `u16`. The result is `none` where a unit behind the text is read. -/
def decodeUnits {α : Type*} (widen : α → UInt16) (str : List α) (cap : Nat) : Option StrStringDecode :=
  match str with
  | [] => none
  | first :: rest =>
    let x := widen first
    if x < 0xD800 ∨ 0xDFFF < x then some { codepoint := x.toUInt32 }
    else if 2 ≤ cap then
      rest.head?.map fun second =>
        let y := widen second
        if 0xD800 ≤ x ∧ x < 0xDC00 ∧ 0xDC00 ≤ y ∧ y < 0xE000 then
          let xj := x - 0xD800
          let yj := y - 0xDC00
          let xy := xj.toUInt32 <<< 10 ||| yj.toUInt32
          { codepoint := xy + 0x10000, size := 2 }
        else {}
    else some {}

def strDecodeUtf8 (str : List UInt8) (cap : Nat) : Option StrStringDecode := decodeUnits UInt8.toUInt16 str cap

/-- `cap` is a `u32` here. -/
def strDecodeUtf16 (str : List UInt16) (cap : Nat) : Option StrStringDecode := decodeUnits id str (cap % 2 ^ 32)

/-- The units, and the size that is returned for them; `osWin` is whether `OS_WIN` is 1. -/
def strEncodeUtf16 (osWin : Bool) (codepoint : UInt32) : List UInt16 × Nat :=
  if codepoint < 0x10000 then ([codepoint.toUInt16], if osWin then 1 else 2)
  else
    let cpj := codepoint - 0x10000
    ([((cpj >>> 10) + 0xD800).toUInt16, ((cpj &&& 0x3FF) + 0xDC00).toUInt16], if osWin then 2 else 4)

/-- The bytes; the size that is returned is their number. -/
def strEncodeUtf8 (codepoint : UInt32) : List UInt8 :=
  if codepoint < (1 : UInt32) <<< 8 then [codepoint.toUInt8]
  else if codepoint < (1 : UInt32) <<< 11 then
    [((0xC0 : UInt32) ||| codepoint >>> 6).toUInt8, ((0x80 : UInt32) ||| (codepoint &&& 0x3F)).toUInt8]
  else if codepoint < (1 : UInt32) <<< 16 then
    [((0xE0 : UInt32) ||| codepoint >>> 12).toUInt8, ((0x80 : UInt32) ||| (codepoint >>> 6 &&& 0x3F)).toUInt8,
      ((0x80 : UInt32) ||| (codepoint &&& 0x3F)).toUInt8]
  else if codepoint < (1 : UInt32) <<< 21 then
    [((0xF0 : UInt32) ||| codepoint >>> 18).toUInt8, ((0x80 : UInt32) ||| (codepoint >>> 12 &&& 0x3F)).toUInt8,
      ((0x80 : UInt32) ||| (codepoint >>> 6 &&& 0x3F)).toUInt8, ((0x80 : UInt32) ||| (codepoint &&& 0x3F)).toUInt8]
  else [chr '#']

/-! ## The round trip of UTF-8 -/

/-- `String.utf8EncodeChar` is the well-formed sequence. -/
structure Utf8RoundTrip (cp : Char) : Prop where
  encode : strEncodeUtf8 cp.val = String.utf8EncodeChar cp
  decode : ∀ behind, strDecodeUtf8 (String.utf8EncodeChar cp ++ behind) (String.utf8EncodeChar cp ++ behind).length =
    some { codepoint := cp.val, size := (String.utf8EncodeChar cp).length.toUInt32 }

theorem decode_byte (first : UInt8) (rest : List UInt8) (cap : Nat) :
    strDecodeUtf8 (first :: rest) cap = some { codepoint := first.toUInt32 } := by
  have hlt : first.toUInt16 < 0xD800 := by
    rw [UInt16.lt_iff_toNat_lt, UInt8.toNat_toUInt16]
    exact Nat.lt_trans first.toNat_lt (by decide)
  unfold strDecodeUtf8 decodeUnits
  simp [hlt]

theorem utf8Size_ascii_iff {cp : Char} : cp.utf8Size = 1 ↔ cp.val < 0x80 := by
  rw [Char.utf8Size_eq_one_iff, UInt32.le_iff_toNat_le, UInt32.lt_iff_toNat_lt]
  exact Nat.lt_succ_iff.symm

/-- The decoder's size is always that of one byte. -/
theorem utf8Size_of_decode {cp : Char} (h : ∃ rest cap, strDecodeUtf8 (String.utf8EncodeChar cp ++ rest) cap =
    some { codepoint := cp.val, size := (String.utf8EncodeChar cp).length.toUInt32 }) : cp.utf8Size = 1 := by
  obtain ⟨rest, cap, h⟩ := h
  have hlen := String.length_utf8EncodeChar cp
  cases hbytes : String.utf8EncodeChar cp with
  | nil =>
    rw [hbytes] at hlen
    exact absurd hlen.symm (Nat.ne_of_gt cp.utf8Size_pos)
  | cons first bytes =>
    rw [hlen, hbytes, List.cons_append, decode_byte] at h
    have hsize : (1 : UInt32) = cp.utf8Size.toUInt32 := congrArg StrStringDecode.size (Option.some.inj h)
    have hnat := congrArg UInt32.toNat hsize
    have hle := cp.utf8Size_le_four
    simp at hnat
    omega

theorem utf8RoundTrip_iff (cp : Char) : Utf8RoundTrip cp ↔ cp.val < 0x80 := by
  constructor
  · intro h
    exact utf8Size_ascii_iff.mp (utf8Size_of_decode ⟨[], _, h.decode []⟩)
  · intro h
    have hbytes := String.utf8EncodeChar_eq_singleton (utf8Size_ascii_iff.mpr h)
    have hbyte : cp.val.toUInt8.toUInt32 = cp.val := by
      rw [← UInt32.toNat_inj, UInt8.toNat_toUInt32, UInt32.toNat_toUInt8]
      exact Nat.mod_eq_of_lt (Nat.lt_trans (UInt32.lt_iff_toNat_lt.mp h) (by decide))
    constructor
    · have hlt : cp.val < (1 : UInt32) <<< 8 := UInt32.lt_trans h (by decide)
      rw [hbytes, strEncodeUtf8, if_pos hlt]
    · intro behind
      rw [hbytes, List.cons_append, decode_byte, hbyte]
      rfl

/-- The encoder writes the one byte `E9` for `é`. -/
theorem not_utf8RoundTrip : ¬ Utf8RoundTrip 'é' := by
  intro h
  exact absurd h.encode (by decide)

end CWebServer
