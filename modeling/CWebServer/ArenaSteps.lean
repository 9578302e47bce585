import CWebServer.Arena
import CWebServer.Lib.Align
import CWebServer.Lib.Blocks
import CWebServer.Lib.Runs

/-!
# Runs of arena operations

One operation of an arena as a step, with what each does to `pos` and to
`commitPos`. The state also keeps the open scratches, the blocks that a push
has returned, and those of them that no pop has released yet.
-/

namespace CWebServer

open Align (clear roundUp)
open Blocks (Block release)

def memArenaPopAmount (arena : Arena) (amount : Nat) : Arena := memArenaPopTo arena (wrap64 (arena.pos - amount))

structure MemScratch where
  start : Nat
  deriving DecidableEq, Repr

def memScratchStart (arena : Arena) : MemScratch := ⟨arena.pos⟩

def memScratchEnd (arena : Arena) (scratch : MemScratch) : Arena := memArenaPopTo arena scratch.start

inductive ArenaOp
  | push (size : Nat)
  | popTo (pos : Nat)
  | popAmount (amount : Nat)
  | scratchStart
  | scratchEnd
  | startUnsafeRecord
  | stopUnsafeRecord
  deriving DecidableEq, Repr

structure ArenaRun where
  arena : Arena
  scratches : List MemScratch
  returned : List Block
  live : List Block

def ArenaRun.new (arena : Arena) : ArenaRun := ⟨arena, [], [], []⟩

/-- A block counts from the start of the arena. An end that has no start is no call. -/
def arenaStep (s : ArenaRun) : ArenaOp → ArenaRun
  | .push size =>
    match memArenaPush s.arena size with
    | (some off, arena) =>
      let block : Block := ⟨sizeOfArena + off, sizeOfArena + off + size⟩
      { s with arena, returned := block :: s.returned, live := block :: s.live }
    | (none, arena) => { s with arena }
  | .popTo pos => { s with arena := memArenaPopTo s.arena pos, live := release pos s.live }
  | .popAmount amount =>
    { s with arena := memArenaPopAmount s.arena amount, live := release (wrap64 (s.arena.pos - amount)) s.live }
  | .scratchStart => { s with scratches := memScratchStart s.arena :: s.scratches }
  | .scratchEnd =>
    match s.scratches with
    | scratch :: scratches =>
      { s with arena := memScratchEnd s.arena scratch, scratches, live := release scratch.start s.live }
    | [] => s
  | .startUnsafeRecord => { s with arena := memArenaStartUnsafeRecord s.arena }
  | .stopUnsafeRecord =>
    match memArenaStopUnsafeRecord s.arena with
    | some arena => { s with arena }
    | none => s

/-! ## Rounding up -/

theorem wrap64_lt (n : Int) : wrap64 n < 2 ^ 64 := by
  unfold wrap64
  omega

theorem wrap64_ofNat (n : Nat) : wrap64 n = n % 2 ^ 64 := by
  unfold wrap64
  omega

theorem i32Cast_of_lt {n : Nat} (h : n < 2 ^ 31) : i32Cast n = n := by
  unfold i32Cast
  rw [Int.bmod_def]
  omega

theorem alignUp_eq_clear {a : Nat} (p : Nat) (ha : 1 ≤ a) (ha' : a < 2 ^ 31) :
    alignUp p a = clear ((p + (a - 1)) % 2 ^ 64) (a - 1) := by
  have hsum : wrap64 (p + ((a : Int) - 1)) = (p + (a - 1)) % 2 ^ 64 := by
    rw [← wrap64_ofNat]
    congr 1
    omega
  have hmask : wrap64 (-((a : Int) - 1) - 1) = 2 ^ 64 - 1 - (a - 1) := by
    unfold wrap64
    omega
  unfold alignUp
  rw [i32Cast_of_lt ha', hsum, hmask]
  exact Align.and_complement (Nat.mod_lt _ (Nat.two_pow_pos 64)) (by omega)

theorem alignUp_eq_roundUp {p a : Nat} (ha : 1 ≤ a) (ha' : a < 2 ^ 31) (h : p + (a - 1) < 2 ^ 64) :
    alignUp p a = roundUp p a := by
  rw [alignUp_eq_clear p ha ha', Nat.mod_eq_of_lt h]
  rfl

theorem le_alignUp {p a : Nat} (ha : 1 ≤ a) (ha' : a < 2 ^ 31) (h : p + (a - 1) < 2 ^ 64) : p ≤ alignUp p a := by
  rw [alignUp_eq_roundUp ha ha' h]
  exact Align.le_roundUp p a

theorem two_pow_bounds {k : Nat} (hk : k ≤ 30) : 1 ≤ 2 ^ k ∧ 2 ^ k < 2 ^ 31 :=
  ⟨Nat.one_le_two_pow, Nat.pow_lt_pow_right Nat.one_lt_two (by omega)⟩

theorem dvd_alignUp {k : Nat} (p : Nat) (hk : k ≤ 30) : 2 ^ k ∣ alignUp p (2 ^ k) := by
  obtain ⟨h1, h2⟩ := two_pow_bounds hk
  rw [alignUp_eq_clear p h1 h2]
  exact Align.dvd_clear _ k

theorem alignUp_of_dvd {p k : Nat} (hk : k ≤ 30) (h : p + (2 ^ k - 1) < 2 ^ 64) (hp : 2 ^ k ∣ p) :
    alignUp p (2 ^ k) = p := by
  obtain ⟨h1, h2⟩ := two_pow_bounds hk
  rw [alignUp_eq_roundUp h1 h2 h]
  exact Align.roundUp_of_dvd hp

/-- A page size of `2 ^ 31` is negative as an `i32`. -/
theorem alignUp_half {p : Nat} (h1 : 1 ≤ p) (h2 : p ≤ 2 ^ 31) : alignUp p (2 ^ 31) = 2 ^ 31 := by
  have hsum : wrap64 (p + (i32Cast (2 ^ 31) - 1)) = 2 ^ 31 * (2 ^ 33 - 1) + (p - 1) := by
    unfold wrap64 i32Cast
    rw [Int.bmod_def]
    omega
  have hmask : wrap64 (-(i32Cast (2 ^ 31) - 1) - 1) = 2 ^ 31 := rfl
  have hdiv : (2 ^ 31 * (2 ^ 33 - 1) + (p - 1)) / 2 ^ 31 % 2 = 1 := by omega
  unfold alignUp
  rw [hsum, hmask]
  apply Nat.eq_of_testBit_eq
  intro i
  rw [Nat.testBit_and, Nat.testBit_two_pow]
  by_cases hi : 31 = i
  · rw [← hi, Nat.testBit_eq_decide_div_mod_eq, hdiv]
    rfl
  · rw [decide_eq_false hi, Bool.and_false]

/-! ## What an operation does -/

/-- The bytes that a push takes. -/
def pushSize (arena : Arena) (size : Nat) : Nat :=
  if arena.unsafeRecord = 0 ∧ 1 < arena.alignment then alignUp size arena.alignment else size

/-- None of the sums of the operation leaves 64 bits. -/
def NoWrap (s : ArenaRun) : ArenaOp → Prop
  | .push size =>
    (s.arena.unsafeRecord = 0 → size + (s.arena.alignment - 1) < 2 ^ 64) ∧
      s.arena.pos + pushSize s.arena size < 2 ^ 64
  | .stopUnsafeRecord => s.arena.unsafeRecord = 1 → s.arena.pos + (s.arena.alignment - 1) < 2 ^ 64
  | _ => True

/-- What no operation changes. -/
def Arena.shape (arena : Arena) : Nat × Nat × Nat := (arena.pageSize, arena.alignment, arena.cap)

/-- `commitPos` behind a push that ends at `pos`. -/
def committed (arena : Arena) (pos : Nat) : Nat :=
  if arena.commitPos < pos then min (alignUp pos arena.pageSize) arena.cap else arena.commitPos

theorem le_pushSize {arena : Arena} {size : Nat} (ha : arena.alignment < 2 ^ 31)
    (h : arena.unsafeRecord = 0 → size + (arena.alignment - 1) < 2 ^ 64) : size ≤ pushSize arena size := by
  unfold pushSize
  split
  · rename_i hr
    exact le_alignUp (by omega) ha (h hr.1)
  · exact Nat.le_refl size

theorem memArenaPush_cases {arena : Arena} {size : Nat} (hpos : sizeOfArena ≤ arena.pos)
    (hw : arena.pos + pushSize arena size < 2 ^ 64) :
    (arena.pos + pushSize arena size ≤ arena.cap ∧
      memArenaPush arena size = (some (arena.pos - sizeOfArena),
        { arena with
          pos := arena.pos + pushSize arena size
          commitPos := committed arena (arena.pos + pushSize arena size) })) ∨
    memArenaPush arena size = (none, arena) := by
  have hoff : memGetArenaMemOffsetPos arena = arena.pos - sizeOfArena := memOffsetPos_eq hpos (by omega)
  have hpush : memArenaPush arena size =
      if arena.pos + pushSize arena size ≤ arena.cap then
        (some (arena.pos - sizeOfArena),
          { arena with
            pos := arena.pos + pushSize arena size
            commitPos := committed arena (arena.pos + pushSize arena size) })
      else (none, arena) := by
    rw [← hoff]
    unfold memArenaPush committed
    simp only [← Int.natCast_add, ← pushSize.eq_def, wrap64_of_lt hw]
  by_cases h : arena.pos + pushSize arena size ≤ arena.cap
  · exact .inl ⟨h, by rw [hpush, if_pos h]⟩
  · exact .inr (by rw [hpush, if_neg h])

theorem memArenaPopTo_cases (arena : Arena) (pos : Nat) :
    (max sizeOfArena pos < arena.pos ∧
      memArenaPopTo arena pos =
        { arena with
          pos := max sizeOfArena pos
          commitPos := min arena.commitPos (min (alignUp (max sizeOfArena pos) arena.pageSize) arena.cap) }) ∨
    (arena.pos ≤ max sizeOfArena pos ∧ memArenaPopTo arena pos = arena) := by
  unfold memArenaPopTo
  by_cases h : max sizeOfArena pos < arena.pos
  · exact .inl ⟨h, if_pos h⟩
  · exact .inr ⟨Nat.not_lt.mp h, if_neg h⟩

theorem memArenaStop_cases {arena arena' : Arena} (h : memArenaStopUnsafeRecord arena = some arena') :
    (arena.unsafeRecord = 1 ∧
      arena' = { arena with unsafeRecord := 0, pos := alignUp arena.pos arena.alignment }) ∨
    (1 < arena.unsafeRecord ∧ arena' = { arena with unsafeRecord := arena.unsafeRecord - 1 }) := by
  unfold memArenaStopUnsafeRecord at h
  by_cases hrec : 0 < arena.unsafeRecord
  · rw [if_pos hrec] at h
    by_cases hone : arena.unsafeRecord = 1
    · left
      simp only [hone, Int.sub_self, if_true, Option.some.injEq] at h
      exact ⟨hone, h.symm⟩
    · right
      have hne : ¬ arena.unsafeRecord - 1 = 0 := by omega
      simp only [hne, if_false, Option.some.injEq] at h
      exact ⟨by omega, h.symm⟩
  · rw [if_neg hrec] at h
    cases h

@[simp] theorem pos_popTo (arena : Arena) (pos : Nat) :
    (memArenaPopTo arena pos).pos = min arena.pos (max sizeOfArena pos) := by
  rcases memArenaPopTo_cases arena pos with ⟨h, he⟩ | ⟨h, he⟩
  · rw [he, Nat.min_eq_right (Nat.le_of_lt h)]
  · rw [he, Nat.min_eq_left h]

@[simp] theorem shape_popTo (arena : Arena) (pos : Nat) : (memArenaPopTo arena pos).shape = arena.shape := by
  rcases memArenaPopTo_cases arena pos with ⟨_, he⟩ | ⟨_, he⟩ <;> rw [he]
  rfl

@[simp] theorem shape_push (arena : Arena) (size : Nat) : (memArenaPush arena size).2.shape = arena.shape := by
  unfold memArenaPush
  simp only [← pushSize.eq_def]
  split <;> rfl

theorem shape_stop {arena arena' : Arena} (h : memArenaStopUnsafeRecord arena = some arena') :
    arena'.shape = arena.shape := by
  rcases memArenaStop_cases h with ⟨_, he⟩ | ⟨_, he⟩ <;> (rw [he]; rfl)

theorem arenaStep_shape (s : ArenaRun) (op : ArenaOp) : (arenaStep s op).arena.shape = s.arena.shape := by
  cases op with
  | push size =>
    have h := shape_push s.arena size
    simp only [arenaStep]
    split
    · rename_i hp
      rw [hp] at h
      exact h
    · rename_i hp
      rw [hp] at h
      exact h
  | popTo pos => exact shape_popTo _ _
  | popAmount amount => exact shape_popTo _ _
  | scratchStart => rfl
  | scratchEnd =>
    simp only [arenaStep]
    split
    · exact shape_popTo _ _
    · rfl
  | startUnsafeRecord => rfl
  | stopUnsafeRecord =>
    simp only [arenaStep]
    split
    · rename_i h
      exact shape_stop h
    · rfl

/-- What a step does, unless a sum wraps. -/
inductive Moves (s : ArenaRun) : ArenaOp → ArenaRun → Prop
  | pushed {size : Nat} (hfit : s.arena.pos + pushSize s.arena size ≤ s.arena.cap) :
    Moves s (.push size)
      { s with
        arena := { s.arena with
          pos := s.arena.pos + pushSize s.arena size
          commitPos := committed s.arena (s.arena.pos + pushSize s.arena size) }
        returned := ⟨s.arena.pos, s.arena.pos + size⟩ :: s.returned
        live := ⟨s.arena.pos, s.arena.pos + size⟩ :: s.live }
  | popped {op : ArenaOp} (hop : op ≠ .stopUnsafeRecord) (pos : Nat) (scratches : List MemScratch) :
    Moves s op { s with arena := memArenaPopTo s.arena pos, scratches, live := release pos s.live }
  | realigned (hrec : s.arena.unsafeRecord = 1) :
    Moves s .stopUnsafeRecord
      { s with arena := { s.arena with unsafeRecord := 0, pos := alignUp s.arena.pos s.arena.alignment } }
  | kept {op : ArenaOp} (hop : op = .stopUnsafeRecord → s.arena.unsafeRecord ≠ 1) (unsafeRecord : Int)
    (scratches : List MemScratch) : Moves s op { s with arena := { s.arena with unsafeRecord }, scratches }

theorem arenaStep_moves {s : ArenaRun} {op : ArenaOp} (hpos : sizeOfArena ≤ s.arena.pos) (hw : NoWrap s op) :
    Moves s op (arenaStep s op) := by
  cases op with
  | push size =>
    rcases memArenaPush_cases hpos hw.2 with ⟨hfit, he⟩ | he
    · simp only [arenaStep, he, Nat.add_sub_of_le hpos]
      exact .pushed hfit
    · simp only [arenaStep, he]
      exact .kept (fun h => by cases h) s.arena.unsafeRecord s.scratches
  | popTo pos => exact .popped (fun h => by cases h) pos s.scratches
  | popAmount amount => exact .popped (fun h => by cases h) (wrap64 (s.arena.pos - amount)) s.scratches
  | scratchStart =>
    exact .kept (fun h => by cases h) s.arena.unsafeRecord (memScratchStart s.arena :: s.scratches)
  | scratchEnd =>
    simp only [arenaStep]
    split
    · rename_i scratch scratches _
      exact .popped (fun h => by cases h) scratch.start scratches
    · exact .kept (fun h => by cases h) s.arena.unsafeRecord s.scratches
  | startUnsafeRecord => exact .kept (fun h => by cases h) (s.arena.unsafeRecord + 1) s.scratches
  | stopUnsafeRecord =>
    simp only [arenaStep]
    split
    · rename_i arena hstop
      rcases memArenaStop_cases hstop with ⟨hrec, he⟩ | ⟨hrec, he⟩
      · rw [he]; exact .realigned hrec
      · rw [he]; exact .kept (fun _ => by omega) _ s.scratches
    · rename_i hstop
      refine .kept (fun _ hrec => ?_) s.arena.unsafeRecord s.scratches
      rw [memArenaStopUnsafeRecord, hrec] at hstop
      cases hstop

end CWebServer
