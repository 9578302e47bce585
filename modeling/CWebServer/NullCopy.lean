import CWebServer.Replace
import CWebServer.StrCopy

/-!
# What a null-terminated copy touches

`str_copyNullTerminated` looks at the last byte of its string, which of an empty
string is the byte before it. A terminator there leaves no room for one in the copy.
-/

namespace CWebServer

/-- The bytes by their unsigned index. Those from `size` on are not of the string. -/
structure StrAt where
  content : Nat → UInt8
  size : Nat

def StrAt.bytes (str : StrAt) : List UInt8 := Memory.read str.content 0 str.size

/-- A copy, with the indices that were read of the string and written of the block. -/
structure NullCopy where
  reads : List Nat
  writes : List Nat
  off : Nat
  size : Nat
  arena : Arena

def isNullTerminatedAt (str : StrAt) : Bool := str.content (wrap64 (str.size - 1)) == 0

/-- A write through `NULL` is a fault, `none`. -/
def copyNullTerminatedAt (arena : Arena) (str : StrAt) : Option NullCopy :=
  let size := if isNullTerminatedAt str then str.size else wrap64 (str.size + 1)
  match memArenaPush arena size with
  | (some off, arena) =>
    let memory := Memory.write arena.memory off str.bytes
    let last := wrap64 (size - 1)
    let memory := Memory.write memory (wrap64 (off + last)) [0]
    some {
      reads := wrap64 (str.size - 1) :: List.range str.size
      writes := List.range str.size ++ [last]
      off
      size
      arena := { arena with memory } }
  | (none, _) => none

/-! ## The copy of a string that is not empty -/

section
variable {arena : Arena} {str : StrAt}

@[simp] theorem length_bytes (str : StrAt) : str.bytes.length = str.size := Memory.length_read ..

theorem bytes_succ {n : Nat} (h : str.size = n + 1) : str.bytes = Memory.read str.content 0 n ++ [str.content n] := by
  unfold StrAt.bytes
  rw [h, Memory.read_succ, Nat.zero_add]

theorem wrap64_last {n size : Nat} (h : size = n + 1) (hlt : size < 2 ^ 64) : wrap64 (size - 1) = n := by
  rw [← wrap64_of_lt (n := n) (by omega)]
  congr 1
  omega

theorem getLast?_bytes (hne : str.size ≠ 0) (hlt : str.size < 2 ^ 64) :
    strIsNullTerminated str.bytes = some (isNullTerminatedAt str) := by
  obtain ⟨n, hn⟩ := Nat.exists_eq_succ_of_ne_zero hne
  unfold strIsNullTerminated isNullTerminatedAt
  rw [wrap64_last hn hlt, bytes_succ hn, List.getLast?_concat, Option.map_some]

theorem copySize_at (hne : str.size ≠ 0) (hlt : str.size + 1 < 2 ^ 64) :
    (if isNullTerminatedAt str then str.size else wrap64 (str.size + 1)) = (withoutNul str.bytes).length + 1 := by
  rw [wrap64_succ hlt, ← copySize_eq (getLast?_bytes hne (by omega)), length_bytes]

theorem copyNullTerminatedAt_eq (hroom : RoomFor arena (str.size + 1)) (hne : str.size ≠ 0) :
    ∃ off pushed, memArenaPush arena ((withoutNul str.bytes).length + 1) = (some off, pushed) ∧
      pushed.memory = arena.memory ∧
      copyNullTerminatedAt arena str = some {
        reads := (str.size - 1) :: List.range str.size
        writes := List.range str.size ++ [(withoutNul str.bytes).length]
        off
        size := (withoutNul str.bytes).length + 1
        arena := { pushed with memory := Memory.write pushed.memory off (withoutNul str.bytes ++ [0]) } } := by
  have hlt := hroom.lt
  have hsize := copySize_at hne hlt
  have hle : (withoutNul str.bytes).length + 1 ≤ str.size + 1 := by
    rw [← hsize]
    split
    · omega
    · exact Nat.le_of_eq (wrap64_succ hlt)
  obtain ⟨off, pushed, hpush, hfit, hmemory⟩ := (hroom.mono hle).block
  have hlast : wrap64 (((withoutNul str.bytes).length + 1 : Nat) - 1) = (withoutNul str.bytes).length :=
    wrap64_last rfl (by omega)
  have hplace : wrap64 (off + (withoutNul str.bytes).length) = off + (withoutNul str.bytes).length := by
    rw [← Int.natCast_add, wrap64_of_lt (by omega)]
  refine ⟨off, pushed, hpush, hmemory, ?_⟩
  unfold copyNullTerminatedAt
  dsimp only
  rw [hsize, hpush]
  dsimp only
  rw [hlast, hplace, write_terminator, wrap64_last (n := str.size - 1) (by omega) (by omega)]

/-- The copy that is known only by its bytes. -/
theorem strCopyNullTerminated_eq (hroom : RoomFor arena (str.size + 1)) (hne : str.size ≠ 0) :
    strCopyNullTerminated arena str.bytes =
      (copyNullTerminatedAt arena str).map fun c => (Memory.read c.arena.memory c.off c.size, c.arena) := by
  have hlt := hroom.lt
  have hsize := copySize_at hne hlt
  rw [wrap64_succ hlt] at hsize
  obtain ⟨off, pushed, hpush, -, hcopy⟩ := copyNullTerminatedAt_eq hroom hne
  unfold strCopyNullTerminated
  rw [getLast?_bytes hne (by omega), hcopy, Option.bind_eq_bind, Option.bind_some, length_bytes]
  dsimp only
  rw [hsize, hpush]
  dsimp only
  rw [Nat.add_sub_cancel, write_terminator, Option.map_some]

/-! ## Every string -/

/-- Only bytes of the string are read and only bytes of the pushed block are written. -/
structure CopiesTerminated (arena : Arena) (str : StrAt) (copy : NullCopy) : Prop where
  block : (memArenaPush arena copy.size).1 = some copy.off
  reads : ∀ i ∈ copy.reads, i < str.size
  writes : ∀ i ∈ copy.writes, i < copy.size
  frame : ∀ i, i < copy.off ∨ copy.off + copy.size ≤ i → copy.arena.memory i = arena.memory i
  result : Memory.read copy.arena.memory copy.off copy.size = withoutNul str.bytes ++ [0]

theorem le_length_withoutNul (bytes : List UInt8) : bytes.length ≤ (withoutNul bytes).length + 1 := by
  unfold withoutNul
  split
  · rw [List.length_dropLast]
    omega
  · exact Nat.le_succ _

theorem exists_copiesTerminated (hroom : RoomFor arena (str.size + 1)) (hne : str.size ≠ 0) :
    ∃ copy, copyNullTerminatedAt arena str = some copy ∧ CopiesTerminated arena str copy := by
  obtain ⟨off, pushed, hpush, hmemory, hcopy⟩ := copyNullTerminatedAt_eq hroom hne
  have hlength := le_length_withoutNul str.bytes
  rw [length_bytes] at hlength
  refine ⟨_, hcopy, ⟨congrArg Prod.fst hpush, ?_, ?_, ?_, ?_⟩⟩
  · intro i hi
    rcases List.mem_cons.mp hi with rfl | hi
    · exact Nat.sub_one_lt hne
    · exact List.mem_range.mp hi
  · intro i hi
    rcases List.mem_append.mp hi with hi | hi
    · exact Nat.lt_of_lt_of_le (List.mem_range.mp hi) hlength
    · rw [List.mem_singleton.mp hi]
      exact Nat.lt_succ_self _
  · intro i hi
    have happart : off + (withoutNul str.bytes ++ [0]).length ≤ i ∨ i < off := by
      rw [List.length_append]
      exact hi.symm
    exact (Memory.write_apart pushed.memory happart).trans (congrFun hmemory i)
  · have hread := Memory.read_write pushed.memory off (withoutNul str.bytes ++ [0])
    rw [List.length_append] at hread
    exact hread

/-- Of the empty string the byte before it is read. -/
theorem not_reads_of_empty {copy : NullCopy} (hempty : str.size = 0)
    (hcopy : copyNullTerminatedAt arena str = some copy) : ¬ ∀ i ∈ copy.reads, i < str.size := by
  unfold copyNullTerminatedAt at hcopy
  dsimp only at hcopy
  split at hcopy
  · cases hcopy
    intro hreads
    have hfirst := hreads _ (List.mem_cons_self ..)
    omega
  · cases hcopy

theorem copiesTerminated_iff (hroom : RoomFor arena (str.size + 1)) :
    (∃ copy, copyNullTerminatedAt arena str = some copy ∧ CopiesTerminated arena str copy) ↔ str.size ≠ 0 := by
  refine ⟨?_, exists_copiesTerminated hroom⟩
  intro ⟨copy, hcopy, hcopies⟩ hempty
  exact not_reads_of_empty hempty hcopy hcopies.reads

end

theorem copiesTerminated_iff_at :
    ∃ copy, copyNullTerminatedAt (memMakeArenaPreAllocated (fun _ => 0) 1024)
        ⟨fun i => if i = 1 then 0 else 97, 2⟩ = some copy ∧
      CopiesTerminated (memMakeArenaPreAllocated (fun _ => 0) 1024) ⟨fun i => if i = 1 then 0 else 97, 2⟩ copy :=
  (copiesTerminated_iff ⟨by decide, ⟨4, by decide, rfl⟩, by decide, by decide⟩).mpr (by decide)

/-- Before the empty string stands a NUL, and the terminator is written before a block of no bytes. -/
theorem not_copiesTerminated_empty :
    RoomFor (memMakeArenaPreAllocated (fun _ => 0) 1024) 1 ∧
      ¬ (∃ copy, copyNullTerminatedAt (memMakeArenaPreAllocated (fun _ => 0) 1024) ⟨fun _ => 0, 0⟩ = some copy ∧
        CopiesTerminated (memMakeArenaPreAllocated (fun _ => 0) 1024) ⟨fun _ => 0, 0⟩ copy) ∧
      (copyNullTerminatedAt (memMakeArenaPreAllocated (fun _ => 0) 1024) ⟨fun _ => 0, 0⟩).map
        (fun copy => (copy.reads, copy.writes, copy.size)) = some ([2 ^ 64 - 1], [2 ^ 64 - 1], 0) := by
  refine ⟨⟨by decide, ⟨4, by decide, rfl⟩, by decide, by decide⟩, ?_, by decide⟩
  intro ⟨copy, hcopy, hcopies⟩
  exact not_reads_of_empty rfl hcopy hcopies.reads

end CWebServer
