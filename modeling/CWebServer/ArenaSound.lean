import CWebServer.ArenaSteps

/-!
# Blocks and positions of an arena

`blocks_separated`: what a push returns lies behind the header and below the
capacity, and the blocks that no pop has released do not overlap. A record's
end moves `pos` up and neither clamps nor commits, so that the positions stay
in order exactly in the runs where the committed bytes cover it. A push finds
a block for exactly the sizes that there is room for, unless its sums wrap.
-/

namespace CWebServer

open Align (roundUp)
open Blocks (Block Packed release)
open Runs (run Along)

/-! ## Blocks -/

/-- A new arena; `mem_makeArena` makes one with an alignment of 16. -/
inductive NewArena : Arena → Prop
  | aligned (pageSize : Nat) (memory : Nat → UInt8) {cap k : Nat} (hcap : sizeOfArena ≤ cap) (hcap' : cap < 2 ^ 64)
    (hk : k ≤ 30) : NewArena (memMakeArenaAligned pageSize memory cap (2 ^ k))
  | preAllocated (memory : Nat → UInt8) {size : Nat} (hsize : sizeOfArena ≤ size) (hsize' : size < 2 ^ 64) :
    NewArena (memMakeArenaPreAllocated memory size)

structure Separated (s : ArenaRun) : Prop where
  returned : ∀ b ∈ s.returned, sizeOfArena ≤ b.start ∧ b.stop ≤ s.arena.cap
  live : s.live.Pairwise Blocks.Apart

structure BlocksInv (s : ArenaRun) : Prop where
  pos : sizeOfArena ≤ s.arena.pos
  alignment : 1 ≤ s.arena.alignment ∧ s.arena.alignment < 2 ^ 31
  returned : ∀ b ∈ s.returned, sizeOfArena ≤ b.start ∧ b.stop ≤ s.arena.cap
  packed : Packed sizeOfArena s.arena.pos s.live

theorem BlocksInv.separated {s : ArenaRun} (h : BlocksInv s) : Separated s := ⟨h.returned, h.packed.apart⟩

theorem NewArena.blocksInv {arena : Arena} (h : NewArena arena) : BlocksInv (.new arena) := by
  cases h with
  | aligned pageSize memory hcap hcap' hk =>
    exact ⟨Nat.le_refl _, two_pow_bounds hk, fun b hb => absurd hb List.not_mem_nil, Blocks.packed_nil⟩
  | preAllocated memory hsize hsize' =>
    exact ⟨Nat.le_refl _, two_pow_bounds (k := 4) (by decide), fun b hb => absurd hb List.not_mem_nil,
      Blocks.packed_nil⟩

theorem BlocksInv.step {s : ArenaRun} {op : ArenaOp} (h : BlocksInv s) (hw : NoWrap s op) :
    BlocksInv (arenaStep s op) := by
  have hpos := h.pos
  have hmoves := arenaStep_moves hpos hw
  generalize arenaStep s op = s' at hmoves
  cases hmoves with
  | pushed hfit =>
    rename_i size
    have hsize : size ≤ pushSize s.arena size := le_pushSize h.alignment.2 hw.1
    refine ⟨Nat.le_trans hpos (Nat.le_add_right _ _), h.alignment, ?_, ?_⟩
    · intro b hb
      cases List.mem_cons.mp hb with
      | inl he => subst he; exact ⟨hpos, by dsimp only; omega⟩
      | inr hb => exact h.returned b hb
    · apply h.packed.push hpos (Nat.le_refl _)
      · exact Nat.le_add_right _ _
      · exact Nat.add_le_add_left hsize _
  | popped hop pos scratches =>
    have hshape := shape_popTo s.arena pos
    unfold Arena.shape at hshape
    simp only [Prod.mk.injEq] at hshape
    obtain ⟨_, halign, hcap⟩ := hshape
    refine ⟨?_, ?_, ?_, ?_⟩
    · simp only [pos_popTo]
      omega
    · simp only [halign]
      exact h.alignment
    · simp only [hcap]
      exact h.returned
    · apply h.packed.release
      simp only [pos_popTo]
      omega
  | realigned hrec =>
    have hle := le_alignUp h.alignment.1 h.alignment.2 (hw hrec)
    exact ⟨Nat.le_trans hpos hle, h.alignment, h.returned, h.packed.grow hle⟩
  | kept hop unsafeRecord scratches => exact ⟨h.pos, h.alignment, h.returned, h.packed⟩

theorem blocks_separated {arena : Arena} (h : NewArena arena) {ops : List ArenaOp}
    (hw : Along arenaStep NoWrap (.new arena) ops) : Separated (run arenaStep (.new arena) ops) :=
  (Runs.run_invariant_along (fun _ _ => BlocksInv.step) h.blocksInv hw).separated

theorem blocks_separated_scratch :
    Separated (run arenaStep (.new (memMakeArenaPreAllocated (fun _ => 0) 1024))
      [.push 20, .scratchStart, .startUnsafeRecord, .push 3, .stopUnsafeRecord, .push 2000, .scratchEnd, .push 5]) :=
  blocks_separated (.preAllocated _ (by decide) (by decide))
    ⟨⟨fun _ => by decide, by decide⟩, trivial, trivial, ⟨fun _ => by decide, by decide⟩, fun _ => by decide,
      ⟨fun _ => by decide, by decide⟩, trivial, ⟨fun _ => by decide, by decide⟩, trivial⟩

/-! ## Positions -/

inductive PagedArena : Arena → Prop
  | aligned (memory : Nat → UInt8) {j cap k : Nat} (hj : j ≤ 30) (hcap : sizeOfArena ≤ cap) (hcap' : cap ≤ 2 ^ 31)
    (hk : k ≤ 30) : PagedArena (memMakeArenaAligned (2 ^ j) memory cap (2 ^ k))
  | preAllocated (memory : Nat → UInt8) {size : Nat} (hsize : sizeOfArena ≤ size) (hsize' : size ≤ 2 ^ 31) :
    PagedArena (memMakeArenaPreAllocated memory size)

structure Positioned (arena : Arena) : Prop where
  pos : sizeOfArena ≤ arena.pos
  commitPos : arena.pos ≤ arena.commitPos
  cap : arena.commitPos ≤ arena.cap

/-- The stop that ends the outermost record finds the rounded position committed. -/
def StopFits (s : ArenaRun) (op : ArenaOp) : Prop :=
  op = .stopUnsafeRecord → s.arena.unsafeRecord = 1 → alignUp s.arena.pos s.arena.alignment ≤ s.arena.commitPos

structure Sized (arena : Arena) : Prop where
  alignment : 1 ≤ arena.alignment ∧ arena.alignment < 2 ^ 31
  page : ∀ p, sizeOfArena ≤ p → p ≤ arena.cap → p ≤ alignUp p arena.pageSize

theorem le_alignUp_page {p size : Nat} (hp : sizeOfArena ≤ p) (hsize : p ≤ 2 ^ 31) (h1 : 1 ≤ size)
    (h2 : size ≤ 2 ^ 31) : p ≤ alignUp p size := by
  by_cases hhalf : size = 2 ^ 31
  · rw [hhalf, alignUp_half (Nat.le_trans (by decide) hp) hsize]
    exact hsize
  · exact le_alignUp h1 (by omega) (by omega)

theorem Sized.of_shape {a b : Arena} (h : Sized a) (hshape : b.shape = a.shape) : Sized b := by
  unfold Arena.shape at hshape
  simp only [Prod.mk.injEq] at hshape
  obtain ⟨hpage, halign, hcap⟩ := hshape
  exact ⟨halign ▸ h.alignment, by rw [hpage, hcap]; exact h.page⟩

theorem PagedArena.sized {arena : Arena} (h : PagedArena arena) : Sized arena := by
  cases h with
  | aligned memory hj hcap hcap' hk =>
    refine ⟨two_pow_bounds hk, fun p hp hle => ?_⟩
    exact le_alignUp_page hp (Nat.le_trans hle hcap') (two_pow_bounds hj).1 (Nat.le_of_lt (two_pow_bounds hj).2)
  | preAllocated memory hsize hsize' =>
    rename_i size
    have hmod : size % 2 ^ 32 = size := Nat.mod_eq_of_lt (by omega)
    refine ⟨two_pow_bounds (k := 4) (by decide), fun p hp hle => ?_⟩
    show p ≤ alignUp p (size % 2 ^ 32)
    rw [hmod]
    exact le_alignUp_page hp (Nat.le_trans hle hsize') (Nat.le_trans (by decide) hsize) hsize'

theorem PagedArena.positioned {arena : Arena} (h : PagedArena arena) : Positioned arena := by
  have hpage := h.sized.page sizeOfArena (Nat.le_refl _)
  cases h with
  | aligned memory hj hcap hcap' hk =>
    exact ⟨Nat.le_refl _, Nat.le_min.mpr ⟨hpage hcap, hcap⟩, Nat.min_le_right _ _⟩
  | preAllocated memory hsize hsize' => exact ⟨Nat.le_refl _, hsize, Nat.le_refl _⟩

theorem Positioned.push {arena : Arena} {pos : Nat} (h : Positioned arena) (hs : Sized arena)
    (hpos : sizeOfArena ≤ pos) (hfit : pos ≤ arena.cap) :
    Positioned { arena with pos, commitPos := committed arena pos } := by
  refine ⟨hpos, ?_, ?_⟩
  · show pos ≤ committed arena pos
    unfold committed
    split
    · exact Nat.le_min.mpr ⟨hs.page pos hpos hfit, hfit⟩
    · rename_i hle
      exact Nat.not_lt.mp hle
  · show committed arena pos ≤ arena.cap
    unfold committed
    split
    · exact Nat.min_le_right _ _
    · exact h.cap

theorem Positioned.popTo {arena : Arena} (h : Positioned arena) (hs : Sized arena) (pos : Nat) :
    Positioned (memArenaPopTo arena pos) := by
  rcases memArenaPopTo_cases arena pos with ⟨hlt, he⟩ | ⟨_, he⟩
  · have hle : max sizeOfArena pos ≤ arena.commitPos := Nat.le_trans (Nat.le_of_lt hlt) h.commitPos
    have hcap := Nat.le_trans hle h.cap
    have hpage := hs.page _ (Nat.le_max_left _ _) hcap
    rw [he]
    refine ⟨Nat.le_max_left _ _, ?_, ?_⟩
    · exact Nat.le_min.mpr ⟨hle, Nat.le_min.mpr ⟨hpage, hcap⟩⟩
    · exact Nat.le_trans (Nat.min_le_left _ _) h.cap
  · rw [he]; exact h

theorem positioned_step {s : ArenaRun} {op : ArenaOp} (h : Sized s.arena ∧ Positioned s.arena) (hw : NoWrap s op) :
    Sized (arenaStep s op).arena ∧ Positioned (arenaStep s op).arena ↔ StopFits s op := by
  obtain ⟨hs, hp⟩ := h
  have hsized : Sized (arenaStep s op).arena := hs.of_shape (arenaStep_shape s op)
  rw [and_iff_right hsized]
  clear hsized
  have hmoves := arenaStep_moves hp.pos hw
  generalize arenaStep s op = s' at hmoves
  cases hmoves with
  | pushed hfit =>
    apply iff_of_true
    · exact hp.push hs (Nat.le_trans hp.pos (Nat.le_add_right _ _)) hfit
    · intro h
      cases h
  | popped hop pos scratches =>
    apply iff_of_true
    · exact hp.popTo hs pos
    · exact fun h => absurd h hop
  | realigned hrec =>
    have hle := le_alignUp hs.alignment.1 hs.alignment.2 (hw hrec)
    constructor
    · exact fun h _ _ => h.commitPos
    · exact fun h => ⟨Nat.le_trans hp.pos hle, h rfl hrec, hp.cap⟩
  | kept hop unsafeRecord scratches =>
    apply iff_of_true
    · exact ⟨hp.pos, hp.commitPos, hp.cap⟩
    · exact fun h hrec => absurd hrec (hop h)

theorem sized_run {arena : Arena} (h : Sized arena) (ops : List ArenaOp) :
    Sized (run arenaStep (.new arena) ops).arena :=
  Runs.run_invariant (I := fun s => Sized s.arena) (fun s op hs => hs.of_shape (arenaStep_shape s op)) h ops

theorem positioned_iff {arena : Arena} (h : PagedArena arena) {ops : List ArenaOp}
    (hw : Along arenaStep NoWrap (.new arena) ops) :
    (∀ bs, bs <+: ops → Positioned (run arenaStep (.new arena) bs).arena) ↔
      Along arenaStep StopFits (.new arena) ops := by
  rw [← Runs.prefixes_iff_along (I := fun s => Sized s.arena ∧ Positioned s.arena)
    (fun _ _ => positioned_step) ⟨h.sized, h.positioned⟩ hw]
  constructor
  · exact fun hp bs hbs => ⟨sized_run h.sized bs, hp bs hbs⟩
  · exact fun hp bs hbs => (hp bs hbs).2

theorem positioned_iff_record :
    (∀ bs, bs <+: [.startUnsafeRecord, .push 1, .stopUnsafeRecord] →
      Positioned (run arenaStep (.new (memMakeArenaAligned 4096 (fun _ => 0) 8192 16)) bs).arena) ↔
      Along arenaStep StopFits (.new (memMakeArenaAligned 4096 (fun _ => 0) 8192 16))
        [.startUnsafeRecord, .push 1, .stopUnsafeRecord] :=
  positioned_iff (.aligned (j := 12) (k := 4) _ (by decide) (by decide) (by decide) (by decide))
    ⟨trivial, ⟨fun _ => by decide, by decide⟩, fun _ => by decide, trivial⟩

/-- The stop leaves `pos` at 144 of 129 bytes. -/
theorem not_positioned :
    PagedArena (memMakeArenaPreAllocated (fun _ => 0) 129) ∧
      Along arenaStep NoWrap (.new (memMakeArenaPreAllocated (fun _ => 0) 129))
        [.startUnsafeRecord, .push 1, .stopUnsafeRecord] ∧
      ¬ Positioned (run arenaStep (.new (memMakeArenaPreAllocated (fun _ => 0) 129))
        [.startUnsafeRecord, .push 1, .stopUnsafeRecord]).arena := by
  refine ⟨.preAllocated _ (by decide) (by decide),
    ⟨trivial, ⟨fun _ => by decide, by decide⟩, fun _ => by decide, trivial⟩, fun h => ?_⟩
  exact absurd h.commitPos (by decide)

/-! ## Room -/

/-- The bytes that a push has to take, without a bound on them. -/
def takenBytes (arena : Arena) (size : Nat) : Nat :=
  if arena.unsafeRecord = 0 ∧ 1 < arena.alignment then roundUp size arena.alignment else size

theorem le_takenBytes (arena : Arena) (size : Nat) : size ≤ takenBytes arena size := by
  unfold takenBytes
  split
  · exact Align.le_roundUp _ _
  · exact Nat.le_refl size

theorem takenBytes_le (arena : Arena) (size : Nat) : takenBytes arena size ≤ size + (arena.alignment - 1) := by
  unfold takenBytes
  split
  · exact Align.roundUp_le_add _ _
  · exact Nat.le_add_right _ _

theorem takenBytes_mono {arena : Arena} {k size size' : Nat} (ha : arena.alignment = 2 ^ k) (h : size ≤ size') :
    takenBytes arena size ≤ takenBytes arena size' := by
  unfold takenBytes
  split
  · rw [ha]
    exact Align.roundUp_mono k h
  · exact h

/-- The push finds a block exactly if there is room for it. -/
structure PushesInRoom (arena : Arena) (size : Nat) : Prop where
  block : (memArenaPush arena size).1 ≠ none ↔ arena.pos + takenBytes arena size ≤ arena.cap
  grows : (memArenaPush arena size).1 ≠ none → arena.pos + size ≤ (memArenaPush arena size).2.pos
  unchanged : (memArenaPush arena size).1 = none → (memArenaPush arena size).2 = arena

theorem pushSize_eq {arena : Arena} {k size : Nat} (hk : k ≤ 30) (ha : arena.alignment = 2 ^ k)
    (hsize : size < 2 ^ 64) : pushSize arena size = takenBytes arena size % 2 ^ 64 := by
  unfold pushSize takenBytes
  split
  · obtain ⟨h1, h2⟩ := two_pow_bounds hk
    rw [ha, alignUp_eq_clear size h1 h2]
    exact Align.clear_mod (by omega) _
  · exact (Nat.mod_eq_of_lt hsize).symm

theorem pushSize_of_lt {arena : Arena} {k size : Nat} (hk : k ≤ 30) (ha : arena.alignment = 2 ^ k)
    (hlt : takenBytes arena size < 2 ^ 64) : pushSize arena size = takenBytes arena size := by
  rw [pushSize_eq hk ha (Nat.lt_of_le_of_lt (le_takenBytes arena size) hlt)]
  exact Nat.mod_eq_of_lt hlt

theorem memArenaPush_isSome (arena : Arena) (size : Nat) :
    (memArenaPush arena size).1 ≠ none ↔ (arena.pos + pushSize arena size) % 2 ^ 64 ≤ arena.cap := by
  unfold memArenaPush
  simp only [← Int.natCast_add, ← pushSize.eq_def, wrap64_ofNat]
  split
  · rename_i h
    exact iff_of_true (Option.some_ne_none _) h
  · rename_i h
    exact iff_of_false (fun hne => hne rfl) h

theorem takenBytes_bounds {arena : Arena} {k size : Nat} (hk : k ≤ 30) (ha : arena.alignment = 2 ^ k)
    (hsize : size < 2 ^ 64) : size ≤ takenBytes arena size ∧ takenBytes arena size ≤ 2 ^ 64 := by
  refine ⟨le_takenBytes arena size, ?_⟩
  unfold takenBytes
  split
  · rw [ha]
    exact Align.roundUp_le (by omega) (Nat.le_of_lt hsize)
  · exact Nat.le_of_lt hsize

theorem memArenaPush_room {arena : Arena} {k : Nat} (size : Nat) (hk : k ≤ 30) (ha : arena.alignment = 2 ^ k)
    (hpos : sizeOfArena ≤ arena.pos) (hcap : arena.cap < 2 ^ 64)
    (hroom : arena.pos + takenBytes arena size ≤ arena.cap) :
    memArenaPush arena size = (some (arena.pos - sizeOfArena),
      { arena with
        pos := arena.pos + takenBytes arena size
        commitPos := committed arena (arena.pos + takenBytes arena size) }) := by
  have hpush : pushSize arena size = takenBytes arena size := pushSize_of_lt hk ha (by omega)
  have hfit : arena.pos + pushSize arena size < 2 ^ 64 := by omega
  rcases memArenaPush_cases hpos hfit with ⟨-, heq⟩ | heq
  · rw [hpush] at heq
    exact heq
  · have hblock := memArenaPush_isSome arena size
    rw [heq, hpush, Nat.mod_eq_of_lt (by omega)] at hblock
    exact absurd rfl (hblock.mpr hroom)

theorem pushesInRoom_iff {arena : Arena} {k size : Nat} (hpos : sizeOfArena ≤ arena.pos) (hcap : arena.pos ≤ arena.cap)
    (hcap' : arena.cap < 2 ^ 64) (hk : k ≤ 30) (ha : arena.alignment = 2 ^ k) (hsize : size < 2 ^ 64) :
    PushesInRoom arena size ↔ arena.pos + takenBytes arena size < 2 ^ 64 := by
  obtain ⟨hle, hmax⟩ := takenBytes_bounds hk ha hsize
  have hpush := pushSize_eq hk ha hsize
  constructor
  · intro h
    by_contra hover
    -- the sum wraps to at most `pos`, so that the push succeeds
    have hsome : (memArenaPush arena size).1 ≠ none := by
      rw [memArenaPush_isSome, hpush]
      omega
    have := h.block.mp hsome
    omega
  · intro hlt
    have hno : pushSize arena size = takenBytes arena size := pushSize_of_lt hk ha (by omega)
    rcases memArenaPush_cases hpos (hno ▸ hlt) with ⟨hroom, heq⟩ | heq
    · refine ⟨?_, fun _ => ?_, fun hnone => ?_⟩
      · exact iff_of_true (by rw [heq]; exact Option.some_ne_none _) (hno ▸ hroom)
      · rw [heq, hno]
        exact Nat.add_le_add_left hle _
      · rw [heq] at hnone
        cases hnone
    · have hblock := memArenaPush_isSome arena size
      rw [hno, Nat.mod_eq_of_lt hlt] at hblock
      refine ⟨hblock, fun hsome => ?_, fun _ => ?_⟩
      · rw [heq] at hsome
        exact absurd rfl hsome
      · rw [heq]

theorem pushesInRoom_iff_capacity :
    PushesInRoom (memMakeArenaPreAllocated (fun _ => 0) 1024) 1000 ↔
      sizeOfArena + takenBytes (memMakeArenaPreAllocated (fun _ => 0) 1024) 1000 < 2 ^ 64 :=
  pushesInRoom_iff (k := 4) (by decide) (by decide) (by decide) (by decide) rfl (by decide)

/-- The size rounds up to `2 ^ 64`, which is 0, and an arena of 1024 bytes returns a block for it. -/
theorem not_pushesInRoom : ¬ PushesInRoom (memMakeArenaPreAllocated (fun _ => 0) 1024) (2 ^ 64 - 1) := by
  intro h
  have hroom := h.block.mp (by decide)
  revert hroom
  decide

end CWebServer
