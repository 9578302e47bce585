import CWebServer.Wide

/-!
# The block of `str_fromS16`

The block has three bytes for each unit and one for the terminator. A pair takes
four bytes for its two units, and what is no character only one.
-/

namespace CWebServer

theorem length_encodeUtf8_le (codepoint : UInt32) : (strEncodeUtf8 codepoint).length ≤ 4 := by
  unfold strEncodeUtf8
  split
  · simp
  · split
    · simp
    · split
      · simp
      · split <;> simp

theorem length_encodeUtf8_le_three {codepoint : UInt32} (h : codepoint < 0x10000) :
    (strEncodeUtf8 codepoint).length ≤ 3 := by
  have hlt : codepoint < (1 : UInt32) <<< 16 := h
  unfold strEncodeUtf8
  rw [if_pos hlt]
  split
  · simp
  · split <;> simp

/-- What a turn consumes and writes. -/
structure TurnFits (ptr : List UInt16) (decode : StrStringDecode) : Prop where
  size_pos : 1 ≤ decode.size.toNat
  size_le : decode.size.toNat ≤ ptr.length
  bytes : (strEncodeUtf8 decode.codepoint).length ≤ 3 * decode.size.toNat

/-- The second unit is looked at only where there is one. -/
theorem turnFits (u : UInt16) (ptr : List UInt16) :
    ∃ decode, strDecodeUtf16 (u :: ptr) (u :: ptr).length = some decode ∧ TurnFits (u :: ptr) decode := by
  have hreplaced : TurnFits (u :: ptr) {} := ⟨by decide, Nat.succ_pos _, by decide⟩
  unfold strDecodeUtf16 decodeUnits
  dsimp only
  split
  · refine ⟨_, rfl, ⟨hreplaced.size_pos, hreplaced.size_le, ?_⟩⟩
    apply length_encodeUtf8_le_three
    rw [UInt32.lt_iff_toNat_lt, UInt16.toNat_toUInt32]
    exact UInt16.toNat_lt _
  · split
    · next hcap =>
      cases ptr with
      | nil =>
        have hone : ¬ 2 ≤ 1 % 2 ^ 32 := by decide
        exact absurd hcap hone
      | cons v rest =>
        refine ⟨_, rfl, ?_⟩
        dsimp only
        split
        · have hsize : 2 ≤ (v :: rest).length + 1 := Nat.le_add_left 2 rest.length
          exact ⟨Nat.le_add_left 1 1, hsize, Nat.le_trans (length_encodeUtf8_le _) (Nat.le_add_left 4 2)⟩
        · exact hreplaced
    · exact ⟨_, rfl, hreplaced⟩

/-- The bytes are at most three for each unit that is consumed, so that the next turn has its room, too. -/
theorem fromS16Loop_fits {turns : Nat} {ptr : List UInt16} {memory : List UInt8} {dptr : Nat}
    (hturns : ptr.length ≤ turns) (hroom : dptr + 3 * ptr.length ≤ memory.length) :
    ∃ memory' dptr', fromS16Loop turns ptr memory dptr = some (memory', dptr') ∧ memory'.length = memory.length ∧
      dptr' ≤ dptr + 3 * ptr.length := by
  induction turns generalizing ptr memory dptr with
  | zero =>
    rw [List.length_eq_zero_iff.mp (Nat.le_zero.mp hturns)]
    exact ⟨memory, dptr, rfl, rfl, Nat.le_add_right _ _⟩
  | succ turns ih =>
    cases ptr with
    | nil => exact ⟨memory, dptr, rfl, rfl, Nat.le_add_right _ _⟩
    | cons u ptr =>
      obtain ⟨decode, hdecode, hfits⟩ := turnFits u ptr
      have hpos := hfits.size_pos
      have hle := hfits.size_le
      have hbytes := hfits.bytes
      have hfit : dptr + (strEncodeUtf8 decode.codepoint).length ≤ memory.length := by omega
      obtain ⟨written, hwrite, hlen⟩ := writeUnits_some hfit
      have hrest : ((u :: ptr).drop decode.size.toNat).length = (u :: ptr).length - decode.size.toNat :=
        List.length_drop
      have hnext : dptr + (strEncodeUtf8 decode.codepoint).length + 3 * ((u :: ptr).drop decode.size.toNat).length ≤
          written.length := by omega
      obtain ⟨memory', dptr', hloop, hlen', hend⟩ := ih (by omega) hnext
      refine ⟨memory', dptr', ?_, hlen'.trans hlen, by omega⟩
      rw [fromS16Loop, hdecode, Option.bind_eq_bind, Option.bind_some]
      dsimp only
      rw [hwrite, Option.bind_eq_bind, Option.bind_some]
      exact hloop

/-- Every unit that is read is one of the string, and the terminator is the last byte that may be written. -/
theorem strFromS16_fits (str : List UInt16) :
    ∃ memory dptr, fromS16Loop str.length str (List.replicate (str.length * 3 + 1) 0) 0 = some (memory, dptr) ∧
      memory.length = str.length * 3 + 1 ∧ dptr + 1 ≤ str.length * 3 + 1 ∧
      strFromS16 str = some (memory.take dptr) := by
  have hblock : (List.replicate (str.length * 3 + 1) (0 : UInt8)).length = str.length * 3 + 1 := List.length_replicate
  have hroom : 0 + 3 * str.length ≤ (List.replicate (str.length * 3 + 1) (0 : UInt8)).length := by omega
  obtain ⟨memory, dptr, hloop, hlen, hend⟩ := fromS16Loop_fits (Nat.le_refl str.length) hroom
  have hfit : dptr + [(0 : UInt8)].length ≤ memory.length := by
    rw [List.length_singleton]
    omega
  obtain ⟨memory', hwrite, -⟩ := writeUnits_some hfit
  refine ⟨memory, dptr, hloop, hlen.trans hblock, by omega, ?_⟩
  unfold strFromS16
  dsimp only
  rw [hloop, Option.bind_eq_bind, Option.bind_some]
  dsimp only
  rw [hwrite, Option.bind_eq_bind, Option.bind_some, take_writeUnits_behind hwrite]

end CWebServer
