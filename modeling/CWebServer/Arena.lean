import CWebServer.Lib.Memory
import CWebServer.Str

/-!
# The arena

A bump allocator. Blocks are offsets into `memory`, the bytes behind the
`Arena` record itself; `pos` counts from the record's start. The calls of
`base.commit` and `base.decommit` are left out, as nothing reads their result.
-/

namespace CWebServer

structure Arena where
  pageSize : Nat
  unsafeRecord : Int
  alignment : Nat
  cap : Nat
  pos : Nat
  commitPos : Nat
  memory : Nat → UInt8

/-- `sizeof(Arena)`, which is the offset of `memory` too. -/
def sizeOfArena : Nat := 128

def i32Cast (n : Nat) : Int := Int.bmod n (2 ^ 32)

/-- The mask `~(i32_cast(ALIGN) - 1)` is sign-extended to 64 bits. -/
def alignUp (p align : Nat) : Nat := wrap64 (p + (i32Cast align - 1)) &&& wrap64 (-(i32Cast align - 1) - 1)

def memMakeArenaPreAllocated (memory : Nat → UInt8) (size : Nat) : Arena :=
  { pageSize := size % 2 ^ 32
    unsafeRecord := 0
    alignment := 16
    cap := size
    pos := sizeOfArena
    commitPos := size
    memory }

def memMakeArenaAligned (pageSize : Nat) (memory : Nat → UInt8) (cap alignment : Nat) : Arena :=
  { pageSize
    unsafeRecord := 0
    alignment
    cap
    pos := sizeOfArena
    commitPos := min (alignUp sizeOfArena pageSize) cap
    memory }

def memGetArenaMemOffsetPos (arena : Arena) : Nat := wrap64 (arena.pos - sizeOfArena)

/-- The offset of the block, or `none` for `NULL`. -/
def memArenaPush (arena : Arena) (size : Nat) : Option Nat × Arena :=
  let size := if arena.unsafeRecord = 0 ∧ 1 < arena.alignment then alignUp size arena.alignment else size
  let pos := wrap64 (arena.pos + size)
  if pos ≤ arena.cap then
    let commitPos := if arena.commitPos < pos then min (alignUp pos arena.pageSize) arena.cap else arena.commitPos
    (some (memGetArenaMemOffsetPos arena), { arena with pos, commitPos })
  else (none, arena)

def memArenaPopTo (arena : Arena) (pos : Nat) : Arena :=
  let pos := max sizeOfArena pos
  if pos < arena.pos then
    { arena with pos, commitPos := min arena.commitPos (min (alignUp pos arena.pageSize) arena.cap) }
  else arena

def memArenaStartUnsafeRecord (arena : Arena) : Arena := { arena with unsafeRecord := arena.unsafeRecord + 1 }

/-- `none` where the assertion fails. -/
def memArenaStopUnsafeRecord (arena : Arena) : Option Arena :=
  if 0 < arena.unsafeRecord then
    let arena := { arena with unsafeRecord := arena.unsafeRecord - 1 }
    some (if arena.unsafeRecord = 0 then { arena with pos := alignUp arena.pos arena.alignment } else arena)
  else none

/-- `mem_copy(mem_arenaPush(arena, size), bytes, count)`. A write through `NULL` is a fault, `none`. -/
def pushCopy (arena : Arena) (size : Nat) (bytes : List UInt8) : Option Arena :=
  match memArenaPush arena size with
  | (some off, arena) => some { arena with memory := Memory.write arena.memory off bytes }
  | (none, arena) => if bytes = [] then some arena else none

/-! ## Appending to a record -/

/-- The arena is within a record and has room for `n` more bytes. -/
structure Recording (arena : Arena) (n : Nat) : Prop where
  record : 0 < arena.unsafeRecord
  pos : sizeOfArena ≤ arena.pos
  room : arena.pos + n ≤ arena.cap
  cap : arena.cap < 2 ^ 64

def Arena.append (arena : Arena) (t : List UInt8) (commitPos : Nat) : Arena :=
  { arena with
    pos := arena.pos + t.length
    commitPos
    memory := Memory.write arena.memory (arena.pos - sizeOfArena) t }

@[simp] theorem memory_append (arena : Arena) (t : List UInt8) (c : Nat) :
    (arena.append t c).memory = Memory.write arena.memory (arena.pos - sizeOfArena) t := by
  unfold Arena.append
  dsimp only

@[simp] theorem memory_startUnsafeRecord (arena : Arena) :
    (memArenaStartUnsafeRecord arena).memory = arena.memory := rfl

/-- Within a record with enough room `f` writes exactly `t`. -/
def Emits (f : Arena → Option Arena) (t : List UInt8) : Prop :=
  ∀ arena, Recording arena t.length → ∃ commitPos, f arena = some (arena.append t commitPos)

theorem memOffsetPos_eq {arena : Arena} (hp : sizeOfArena ≤ arena.pos) (hc : arena.pos < 2 ^ 64) :
    memGetArenaMemOffsetPos arena = arena.pos - sizeOfArena := by
  unfold memGetArenaMemOffsetPos
  rw [← Int.ofNat_sub hp, wrap64_of_lt (by omega)]

theorem append_append {arena : Arena} (hp : sizeOfArena ≤ arena.pos) (t u : List UInt8) (c c' : Nat) :
    (arena.append t c).append u c' = arena.append (t ++ u) c' := by
  unfold Arena.append
  simp only [List.length_append, Nat.add_assoc]
  rw [← Memory.write_append, Nat.sub_add_comm hp]

theorem append_nil (arena : Arena) : arena.append [] arena.commitPos = arena := by
  unfold Arena.append
  rw [Memory.write_nil]
  rfl

theorem Recording.mono {arena : Arena} {m n : Nat} (h : Recording arena n) (hmn : m ≤ n) : Recording arena m :=
  { h with room := Nat.le_trans (Nat.add_le_add_left hmn _) h.room }

theorem Recording.append {arena : Arena} {t : List UInt8} {n : Nat} (h : Recording arena (t.length + n)) (c : Nat) :
    Recording (arena.append t c) n :=
  { h with
    pos := Nat.le_trans h.pos (Nat.le_add_right _ _)
    room := by
      have := h.room
      show arena.pos + t.length + n ≤ arena.cap
      omega }

/-- Within a record with `peak` bytes left `f` writes exactly `t`. -/
structure Writes (f : Arena → Option Arena) (t : List UInt8) (peak : Nat) : Prop where
  length_le : t.length ≤ peak
  run : ∀ arena, Recording arena peak → ∃ commitPos, f arena = some (arena.append t commitPos)

variable {f g : Arena → Option Arena} {t u : List UInt8} {m n : Nat}

theorem writes_nil : Writes some [] 0 := ⟨Nat.le_refl _, fun arena _ => ⟨arena.commitPos, by rw [append_nil]⟩⟩

theorem Writes.mono (h : Writes f t m) (hmn : m ≤ n) : Writes f t n :=
  ⟨Nat.le_trans h.length_le hmn, fun arena hr => h.run arena (hr.mono hmn)⟩

theorem Writes.bind (hf : Writes f t m) (hg : Writes g u n) :
    Writes (fun arena => f arena >>= g) (t ++ u) (max m (t.length + n)) := by
  constructor
  · have hle := hg.length_le
    rw [List.length_append]
    omega
  · intro arena h
    obtain ⟨c, hc⟩ := hf.run arena (h.mono (Nat.le_max_left _ _))
    obtain ⟨c', hc'⟩ := hg.run _ ((h.mono (Nat.le_max_right _ _)).append c)
    refine ⟨c', ?_⟩
    show f arena >>= g = _
    rw [hc, Option.bind_eq_bind, Option.bind_some, hc', append_append h.pos]

theorem Emits.writes (h : Emits f t) : Writes f t t.length := ⟨Nat.le_refl _, h⟩

theorem emits_nil : Emits some [] := writes_nil.run

theorem Emits.bind (hf : Emits f t) (hg : Emits g u) : Emits (fun arena => f arena >>= g) (t ++ u) := by
  have h := hf.writes.bind hg.writes
  rw [← List.length_append] at h
  apply (h.mono _).run
  rw [List.length_append]
  exact Nat.max_le.mpr ⟨Nat.le_add_right _ _, Nat.le_refl _⟩

theorem Emits.ite {p : Prop} [Decidable p] (hf : p → Emits f t) (hg : ¬ p → Emits g u) :
    Emits (fun arena => if p then f arena else g arena) (if p then t else u) := by
  by_cases h : p
  · simp only [h, if_true]
    exact hf h
  · simp only [h, if_false]
    exact hg h

theorem Emits.foldlM {α : Type*} {f : Arena → α → Option Arena} {t : α → List UInt8} (h : ∀ a, Emits (f · a) (t a))
    (l : List α) : Emits (fun arena => l.foldlM f arena) (l.flatMap t) := by
  induction l with
  | nil => exact emits_nil
  | cons a l ih => exact (h a).bind ih

theorem push_record {arena : Arena} {size : Nat} (h : Recording arena size) :
    ∃ commitPos, memArenaPush arena size =
      (some (arena.pos - sizeOfArena), { arena with pos := arena.pos + size, commitPos }) := by
  have hroom := h.room
  have hcap := h.cap
  have hpos := h.pos
  have hrec : ¬ (arena.unsafeRecord = 0 ∧ 1 < arena.alignment) := fun hz => by
    have := h.record
    omega
  have hwrap : wrap64 (arena.pos + size) = arena.pos + size := wrap64_of_lt (by omega)
  unfold memArenaPush
  simp only [hrec, if_false, hwrap, hroom, if_true, memOffsetPos_eq hpos (by omega : arena.pos < 2 ^ 64)]
  exact ⟨_, rfl⟩

theorem emits_pushCopy (t : List UInt8) : Emits (fun arena => pushCopy arena t.length t) t := by
  intro arena h
  obtain ⟨c, hc⟩ := push_record h
  refine ⟨c, ?_⟩
  show pushCopy arena t.length t = _
  unfold pushCopy
  rw [hc]
  rfl

end CWebServer
