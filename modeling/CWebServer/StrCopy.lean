import CWebServer.Arena

/-!
# Null-terminated copies

A copy that ends in its only terminator is the same C string as the text.
-/

namespace CWebServer

/-- The byte before an empty string is out of bounds. -/
def strIsNullTerminated (str : List UInt8) : Option Bool := str.getLast?.map (· == 0)

def strCopyNullTerminated (arena : Arena) (str : List UInt8) : Option (List UInt8 × Arena) := do
  let terminated ← strIsNullTerminated str
  let size := if terminated then str.length else str.length + 1
  match memArenaPush arena size with
  | (some off, arena) =>
    let memory := Memory.write (Memory.write arena.memory off str) (off + (size - 1)) [0]
    some (Memory.read memory off size, { arena with memory })
  | (none, _) => none

/-- What a function that takes a `char*` sees of the bytes behind it. -/
def cString (bytes : List UInt8) : List UInt8 := bytes.takeWhile (· != 0)

theorem cString_terminated (text : List UInt8) : cString (text ++ [0]) = cString text := by
  unfold cString
  rw [List.takeWhile_append]
  split
  · rename_i hall
    rw [List.IsPrefix.eq_of_length (List.takeWhile_prefix _) hall]
    simp
  · rfl

/-! ## The copy -/

/-- The bytes without a final NUL. -/
def withoutNul (bytes : List UInt8) : List UInt8 := if bytes.getLast? = some 0 then bytes.dropLast else bytes

theorem withoutNul_terminated (text : List UInt8) : withoutNul (text ++ [0]) = text := by
  unfold withoutNul
  rw [if_pos List.getLast?_concat, List.dropLast_concat]

/-- The size that is pushed is that of the bytes before the terminator and of the terminator. -/
theorem copySize_eq {str : List UInt8} {terminated : Bool} (h : strIsNullTerminated str = some terminated) :
    (if terminated then str.length else str.length + 1) = (withoutNul str).length + 1 := by
  obtain ⟨last, hlast, rfl⟩ := Option.map_eq_some_iff.mp h
  obtain ⟨text, rfl⟩ := List.getLast?_eq_some_iff.mp hlast
  unfold withoutNul
  by_cases hz : last = 0
  · simp [hz]
  · simp [hz]

/-- The terminator is written behind the copy or over the one that is copied. -/
theorem write_terminator (m : Nat → UInt8) (off : Nat) (bytes : List UInt8) :
    Memory.write (Memory.write m off bytes) (off + (withoutNul bytes).length) [0] =
      Memory.write m off (withoutNul bytes ++ [0]) := by
  by_cases hz : bytes.getLast? = some 0
  · obtain ⟨text, rfl⟩ := List.getLast?_eq_some_iff.mp hz
    rw [withoutNul_terminated]
    exact Memory.write_over m off text (Nat.le_refl _)
  · have hbytes : withoutNul bytes = bytes := if_neg hz
    rw [hbytes, Memory.write_append]

theorem cString_withoutNul (bytes : List UInt8) : cString (withoutNul bytes) = cString bytes := by
  by_cases hz : bytes.getLast? = some 0
  · obtain ⟨text, rfl⟩ := List.getLast?_eq_some_iff.mp hz
    rw [withoutNul_terminated, cString_terminated]
  · rw [withoutNul, if_neg hz]

theorem cString_copy {arena arena' : Arena} {str copy : List UInt8}
    (h : strCopyNullTerminated arena str = some (copy, arena')) : cString copy = cString str := by
  obtain ⟨terminated, hnull, h⟩ := Option.bind_eq_some_iff.mp h
  rw [copySize_eq hnull] at h
  cases hpush : memArenaPush arena ((withoutNul str).length + 1) with
  | mk off pushed =>
    simp only [hpush] at h
    cases off with
    | none => cases h
    | some off =>
      cases h
      have hread := Memory.read_write pushed.memory off (withoutNul str ++ [0])
      rw [List.length_append] at hread
      rw [Nat.add_sub_cancel, write_terminator]
      exact (congrArg cString hread).trans ((cString_terminated _).trans (cString_withoutNul str))

end CWebServer
