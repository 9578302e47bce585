import CWebServer.ArenaSound

/-!
# An arena over the pages of the system

The calls that an arena makes of its base memory, over `os_memoryCommit` and
`os_memorydecommit`. Both replace whole pages, so that a call in the wrong
place would clear bytes that are in use.
-/

namespace CWebServer

open Align (roundUp)
open Blocks (Block release)
open Runs (run Along)

/-! ## The calls -/

inductive BaseCall
  | commit (off size : Nat)
  | decommit (off size : Nat)
  deriving DecidableEq, Repr

def memArenaPushCalls (arena : Arena) (size : Nat) : List BaseCall :=
  let size := if arena.unsafeRecord = 0 ∧ 1 < arena.alignment then alignUp size arena.alignment else size
  let pos := wrap64 (arena.pos + size)
  if pos ≤ arena.cap ∧ arena.commitPos < pos then
    let nextCommitP := min (alignUp pos arena.pageSize) arena.cap
    [.commit arena.commitPos (wrap64 ((nextCommitP : Int) - arena.commitPos))]
  else []

def memArenaPopToCalls (arena : Arena) (pos : Nat) : List BaseCall :=
  let pos := max sizeOfArena pos
  let nextCommitP := min (alignUp pos arena.pageSize) arena.cap
  if pos < arena.pos ∧ nextCommitP < arena.commitPos then [.decommit nextCommitP (arena.commitPos - nextCommitP)]
  else []

def baseCalls (s : ArenaRun) : ArenaOp → List BaseCall
  | .push size => memArenaPushCalls s.arena size
  | .popTo pos => memArenaPopToCalls s.arena pos
  | .popAmount amount => memArenaPopToCalls s.arena (wrap64 (s.arena.pos - amount))
  | .scratchEnd =>
    match s.scratches with
    | scratch :: _ => memArenaPopToCalls s.arena scratch.start
    | [] => []
  | .scratchStart | .startUnsafeRecord | .stopUnsafeRecord => []

/-! ## The pages -/

/-- The byte at an offset from the arena's start, none where an access faults. -/
abbrev Pages := Nat → Option UInt8

/-- `mmap` with `MAP_FIXED` on whole pages of new memory. `none` where an assertion fails: no page begins at the address,
or the size is 0. -/
def mapFixed (byte : Option UInt8) (pageSize off size : Nat) (pages : Pages) : Option Pages :=
  if 0 < size ∧ off % pageSize = 0 then
    some fun x => if off ≤ x ∧ x < roundUp (off + size) pageSize then byte else pages x
  else none

/-- With `PROT_READ | PROT_WRITE`: new pages are zero. -/
def osMemoryCommit : (pageSize off size : Nat) → Pages → Option Pages := mapFixed (some 0)

/-- With `PROT_NONE`. -/
def osMemorydecommit : (pageSize off size : Nat) → Pages → Option Pages := mapFixed none

def baseCall (pageSize : Nat) (pages : Pages) : BaseCall → Option Pages
  | .commit off size => osMemoryCommit pageSize off size pages
  | .decommit off size => osMemorydecommit pageSize off size pages

structure PagedRun where
  run : ArenaRun
  pages : Pages
  fault : Bool

/-- An operation of the arena, or a store by its user. -/
inductive PagedOp
  | arena (op : ArenaOp)
  | store (x : Nat) (byte : UInt8)

/-- What the user finds behind the operation where it had a byte. -/
def PagedOp.stores (x : Nat) (byte : Option UInt8) : PagedOp → Option UInt8
  | .arena _ => byte
  | .store y byte' => if x = y then some byte' else byte

def pagedStep (s : PagedRun) : PagedOp → PagedRun
  | .arena op =>
    match (baseCalls s.run op).foldlM (baseCall s.run.arena.pageSize) s.pages with
    | some pages => { s with run := arenaStep s.run op, pages }
    | none => { s with fault := true }
  | .store x byte =>
    match s.pages x with
    | some _ => { s with pages := Function.update s.pages x (some byte) }
    | none => { s with fault := true }

/-- `mem_makeArenaAligned` over memory that is reserved and not committed. -/
def pagedStart (pageSize cap alignment : Nat) : PagedRun :=
  let arena := memMakeArenaAligned pageSize (fun _ => 0) cap alignment
  let pages := osMemoryCommit pageSize 0 arena.commitPos fun _ => none
  ⟨.new arena, pages.getD fun _ => none, pages.isNone⟩

/-- No sum of the operation wraps, and the user stores into blocks that are not released. -/
def PagedOk (s : PagedRun) : PagedOp → Prop
  | .arena op => NoWrap s.run op
  | .store x _ => ∃ b ∈ s.run.live, b.start ≤ x ∧ x < b.stop

/-! ## What is committed -/

/-- Committed is what the position needs, in whole pages up to the capacity. -/
structure Settled (j : Nat) (r : ArenaRun) : Prop where
  top : r.arena.pos ≤ roundUp r.arena.cap (2 ^ j)
  commitPos : r.arena.commitPos = min (roundUp r.arena.pos (2 ^ j)) r.arena.cap
  live : ∀ b ∈ r.live, b.stop ≤ r.arena.pos ∧ b.stop ≤ r.arena.cap

structure PagesInv (j : Nat) (s : PagedRun) : Prop extends BlocksInv s.run, Settled j s.run where
  page : s.run.arena.pageSize = 2 ^ j
  align : ∃ k ≤ j, s.run.arena.alignment = 2 ^ k
  cap : sizeOfArena ≤ s.run.arena.cap ∧ s.run.arena.cap < 2 ^ 63
  pages : ∀ x, s.pages x ≠ none ↔ x < roundUp s.run.arena.commitPos (2 ^ j)
  noFault : s.fault = false

section
variable {j : Nat} {s : PagedRun}

/-- The calls leave what is below both positions as it is, and the pages up to `commitPos` committed. -/
def Recommits (j : Nat) (s : PagedRun) (calls : List BaseCall) (pos commitPos : Nat) : Prop :=
  ∃ pages, calls.foldlM (baseCall (2 ^ j)) s.pages = some pages ∧
    (∀ x, pages x ≠ none ↔ x < roundUp commitPos (2 ^ j)) ∧ ∀ x, x < s.run.arena.pos → x < pos → pages x = s.pages x

theorem PagesInv.recommits_nil (h : PagesInv j s) (pos : Nat) : Recommits j s [] pos s.run.arena.commitPos :=
  ⟨s.pages, rfl, h.pages, fun _ _ _ => rfl⟩

theorem mapFixed_dvd {off size : Nat} (byte : Option UInt8) (hoff : 2 ^ j ∣ off) (hsize : 0 < size) (pages : Pages) :
    mapFixed byte (2 ^ j) off size pages =
      some fun x => if off ≤ x ∧ x < roundUp (off + size) (2 ^ j) then byte else pages x :=
  if_pos ⟨hsize, Nat.mod_eq_zero_of_dvd hoff⟩

/-- `commitPos` is below the capacity, so that it is the position rounded up. -/
theorem PagesInv.commitPos_lt (h : PagesInv j s) (hlt : s.run.arena.commitPos < s.run.arena.cap) :
    s.run.arena.commitPos = roundUp s.run.arena.pos (2 ^ j) := by
  have := h.commitPos
  omega

theorem PagesInv.recommits_commit (h : PagesInv j s) {pos next : Nat} (hlt : s.run.arena.commitPos < s.run.arena.cap)
    (hnext : s.run.arena.commitPos < next) :
    Recommits j s [.commit s.run.arena.commitPos (next - s.run.arena.commitPos)] pos next := by
  have hround := h.commitPos_lt hlt
  have hdvd : 2 ^ j ∣ s.run.arena.commitPos := hround ▸ Align.dvd_roundUp _ j
  have hself := Align.roundUp_of_dvd hdvd
  have hle := Align.le_roundUp s.run.arena.pos (2 ^ j)
  have hup := Align.le_roundUp next (2 ^ j)
  refine ⟨_, by
    rw [List.foldlM_cons, baseCall, osMemoryCommit, mapFixed_dvd _ hdvd (Nat.sub_pos_of_lt hnext)]
    rfl, fun x => ?_, fun x hx _ => if_neg (by omega)⟩
  rw [Nat.add_sub_of_le (Nat.le_of_lt hnext)]
  have hx := h.pages x
  rw [hself] at hx
  split
  · simp only [ne_eq, reduceCtorEq, not_false_eq_true, true_iff]
    omega
  · rw [hx]
    omega

theorem PagesInv.recommits_decommit (h : PagesInv j s) {pos next : Nat} (hnext : next < s.run.arena.commitPos)
    (hround : next = roundUp pos (2 ^ j)) :
    Recommits j s [.decommit next (s.run.arena.commitPos - next)] pos next := by
  have hdvd : 2 ^ j ∣ next := hround ▸ Align.dvd_roundUp _ j
  have hle := Align.le_roundUp pos (2 ^ j)
  have hself := Align.roundUp_of_dvd hdvd
  have hup := Align.le_roundUp s.run.arena.commitPos (2 ^ j)
  refine ⟨_, by
    rw [List.foldlM_cons, baseCall, osMemorydecommit, mapFixed_dvd _ hdvd (Nat.sub_pos_of_lt hnext)]
    rfl, fun x => ?_, fun x _ hx => if_neg (by omega)⟩
  rw [Nat.add_sub_of_le (Nat.le_of_lt hnext), hself]
  have hx := h.pages x
  split
  · simp only [ne_eq, not_true_eq_false, false_iff]
    omega
  · rw [hx]
    omega

theorem alignUp_page (hj : j ≤ 30) {p : Nat} (hp : p < 2 ^ 63 + 2 ^ 31) : alignUp p (2 ^ j) = roundUp p (2 ^ j) := by
  obtain ⟨h1, h2⟩ := two_pow_bounds hj
  exact alignUp_eq_roundUp h1 h2 (by omega)

theorem PagesInv.pos_lt (h : PagesInv j s) (hj : j ≤ 30) : s.run.arena.pos < 2 ^ 63 + 2 ^ 31 := by
  have h2 := (two_pow_bounds hj).2
  have hround := Align.roundUp_le_add s.run.arena.cap (2 ^ j)
  have := h.top
  have := h.cap.2
  omega

/-! ## Pushes and pops -/

theorem PagesInv.grow (h : PagesInv j s) (hj : j ≤ 30) {pos : Nat} (hle : s.run.arena.pos ≤ pos)
    (hfit : pos ≤ s.run.arena.cap) :
    committed s.run.arena pos = min (roundUp pos (2 ^ j)) s.run.arena.cap ∧
      Recommits j s
        (if s.run.arena.commitPos < pos then
          [.commit s.run.arena.commitPos (committed s.run.arena pos - s.run.arena.commitPos)]
        else []) pos (committed s.run.arena pos) := by
  have hcap := h.cap.2
  have hup := Align.le_roundUp pos (2 ^ j)
  unfold committed
  rw [h.page, alignUp_page hj (by omega)]
  split
  · exact ⟨rfl, h.recommits_commit (by omega) (by omega)⟩
  · refine ⟨?_, h.recommits_nil pos⟩
    have hcommit := h.commitPos
    rw [Align.roundUp_between hle (by omega)]
    exact hcommit

theorem PagesInv.push (h : PagesInv j s) (hj : j ≤ 30) {size : Nat} (hw : NoWrap s.run (.push size)) :
    Recommits j s (baseCalls s.run (.push size)) (arenaStep s.run (.push size)).arena.pos
        (arenaStep s.run (.push size)).arena.commitPos ∧
      Settled j (arenaStep s.run (.push size)) := by
  have hcalls : baseCalls s.run (.push size) =
      if s.run.arena.pos + pushSize s.run.arena size ≤ s.run.arena.cap ∧
        s.run.arena.commitPos < s.run.arena.pos + pushSize s.run.arena size then
        [.commit s.run.arena.commitPos (wrap64 ((min (alignUp (s.run.arena.pos + pushSize s.run.arena size)
          s.run.arena.pageSize) s.run.arena.cap : Nat) - s.run.arena.commitPos))]
      else [] := by
    unfold baseCalls memArenaPushCalls
    simp only [← Int.natCast_add, ← pushSize.eq_def, wrap64_of_lt hw.2]
  rw [hcalls]
  clear hcalls
  have hsize : size ≤ pushSize s.run.arena size := le_pushSize h.alignment.2 hw.1
  rcases memArenaPush_cases h.pos hw.2 with ⟨hfit, he⟩ | he
  · obtain ⟨hcommit, hcalls⟩ := h.grow hj (Nat.le_add_right s.run.arena.pos (pushSize s.run.arena size)) hfit
    simp only [arenaStep, he]
    refine ⟨?_, ?_, hcommit, ?_⟩
    · simp only [hfit, true_and]
      split at hcalls
      · rename_i hlt
        have hnext : committed s.run.arena (s.run.arena.pos + pushSize s.run.arena size) =
            min (alignUp (s.run.arena.pos + pushSize s.run.arena size) s.run.arena.pageSize) s.run.arena.cap :=
          if_pos hlt
        have hup := Align.le_roundUp (s.run.arena.pos + pushSize s.run.arena size) (2 ^ j)
        have hcap := h.cap.2
        rw [if_pos hlt, ← hnext, ← Int.ofNat_sub (by omega), wrap64_of_lt (by omega)]
        exact hcalls
      · rename_i hlt
        rw [if_neg hlt]
        exact hcalls
    · exact Nat.le_trans hfit (Align.le_roundUp _ _)
    · intro b hb
      cases List.mem_cons.mp hb with
      | inl hb =>
        subst hb
        dsimp only
        have := h.pos
        omega
      | inr hb =>
        have := h.live b hb
        dsimp only
        omega
  · have hfull : ¬ s.run.arena.pos + pushSize s.run.arena size ≤ s.run.arena.cap := by
      have hblock := memArenaPush_isSome s.run.arena size
      rw [he, Nat.mod_eq_of_lt hw.2] at hblock
      exact fun hfit => hblock.mpr hfit rfl
    simp only [arenaStep, he, hfull, false_and, if_false]
    exact ⟨h.recommits_nil _, h.toSettled⟩

theorem PagesInv.shrink (h : PagesInv j s) (hj : j ≤ 30) (pos : Nat) :
    Recommits j s (memArenaPopToCalls s.run.arena pos) (memArenaPopTo s.run.arena pos).pos
        (memArenaPopTo s.run.arena pos).commitPos ∧
      (memArenaPopTo s.run.arena pos).commitPos =
        min (roundUp (memArenaPopTo s.run.arena pos).pos (2 ^ j)) s.run.arena.cap := by
  unfold memArenaPopToCalls
  rcases memArenaPopTo_cases s.run.arena pos with ⟨hlt, he⟩ | ⟨hle, he⟩
  · have hpos := h.pos_lt hj
    have hmono := Align.roundUp_mono j (Nat.le_of_lt hlt)
    have hcommit := h.commitPos
    have hup : alignUp (max sizeOfArena pos) (2 ^ j) = roundUp (max sizeOfArena pos) (2 ^ j) := alignUp_page hj (by omega)
    simp only [he, h.page, hup]
    split
    · rename_i hnext
      rw [Nat.min_eq_right (Nat.le_of_lt hnext.2)]
      exact ⟨h.recommits_decommit hnext.2 (by omega), rfl⟩
    · rename_i hnext
      have hkept : s.run.arena.commitPos ≤ min (roundUp (max sizeOfArena pos) (2 ^ j)) s.run.arena.cap :=
        Nat.not_lt.mp fun hlt' => hnext ⟨hlt, hlt'⟩
      rw [Nat.min_eq_left hkept]
      exact ⟨h.recommits_nil _, by omega⟩
  · rw [he, if_neg fun hand => absurd hand.1 (Nat.not_lt.mpr hle)]
    exact ⟨h.recommits_nil _, h.commitPos⟩

/-- A pop and the blocks that it releases. -/
theorem PagesInv.popTo (h : PagesInv j s) (hj : j ≤ 30) (pos : Nat) (scratches : List MemScratch) :
    Recommits j s (memArenaPopToCalls s.run.arena pos) (memArenaPopTo s.run.arena pos).pos
        (memArenaPopTo s.run.arena pos).commitPos ∧
      Settled j { s.run with arena := memArenaPopTo s.run.arena pos, scratches, live := release pos s.run.live } := by
  obtain ⟨hcalls, hcommit⟩ := h.shrink hj pos
  have hshape := shape_popTo s.run.arena pos
  unfold Arena.shape at hshape
  simp only [Prod.mk.injEq] at hshape
  refine ⟨hcalls, ?_, ?_, ?_⟩
  · dsimp only
    rw [pos_popTo, hshape.2.2]
    exact Nat.le_trans (Nat.min_le_left _ _) h.top
  · dsimp only
    rw [hcommit, hshape.2.2]
  · intro b hb
    obtain ⟨hmem, hstop⟩ := List.mem_filter.mp hb
    have hlive := h.live b hmem
    have hstop : b.stop ≤ pos := by simpa using hstop
    dsimp only
    rw [pos_popTo, hshape.2.2]
    omega

/-! ## Runs -/

theorem PagesInv.stop (h : PagesInv j s) (hj : j ≤ 30) :
    Recommits j s [] (arenaStep s.run .stopUnsafeRecord).arena.pos
        (arenaStep s.run .stopUnsafeRecord).arena.commitPos ∧
      Settled j (arenaStep s.run .stopUnsafeRecord) := by
  simp only [arenaStep]
  split
  · rename_i arena hstop
    rcases memArenaStop_cases hstop with ⟨hrec, he⟩ | ⟨hrec, he⟩
    · obtain ⟨k, hk, halign⟩ := h.align
      have hpos := h.pos_lt hj
      have hround : alignUp s.run.arena.pos s.run.arena.alignment = roundUp s.run.arena.pos (2 ^ k) := by
        rw [halign]
        exact alignUp_page (Nat.le_trans hk hj) hpos
      rw [he]
      refine ⟨h.recommits_nil _, ?_, ?_, fun b hb => ?_⟩
      · show alignUp s.run.arena.pos s.run.arena.alignment ≤ _
        rw [hround]
        exact Align.roundUp_le_of_dvd h.top (Nat.dvd_trans (Nat.pow_dvd_pow 2 hk) (Align.dvd_roundUp _ j))
      · show s.run.arena.commitPos = min (roundUp (alignUp s.run.arena.pos s.run.arena.alignment) (2 ^ j)) _
        rw [hround, Align.roundUp_roundUp hk]
        exact h.commitPos
      · have hlive := h.live b hb
        have hle := Align.le_roundUp s.run.arena.pos (2 ^ k)
        show b.stop ≤ alignUp s.run.arena.pos s.run.arena.alignment ∧ _
        rw [hround]
        exact ⟨Nat.le_trans hlive.1 hle, hlive.2⟩
    · rw [he]
      exact ⟨h.recommits_nil _, h.top, h.commitPos, h.live⟩
  · exact ⟨h.recommits_nil _, h.toSettled⟩

theorem PagesInv.arenaOp (h : PagesInv j s) (hj : j ≤ 30) {op : ArenaOp} (hw : NoWrap s.run op) :
    Recommits j s (baseCalls s.run op) (arenaStep s.run op).arena.pos (arenaStep s.run op).arena.commitPos ∧
      Settled j (arenaStep s.run op) := by
  cases op with
  | push size => exact h.push hj hw
  | popTo pos => exact h.popTo hj pos s.run.scratches
  | popAmount amount => exact h.popTo hj (wrap64 (s.run.arena.pos - amount)) s.run.scratches
  | scratchStart => exact ⟨h.recommits_nil _, h.top, h.commitPos, h.live⟩
  | scratchEnd =>
    simp only [arenaStep, baseCalls]
    cases hs : s.run.scratches with
    | nil => exact ⟨h.recommits_nil _, h.toSettled⟩
    | cons scratch scratches => exact h.popTo hj scratch.start scratches
  | startUnsafeRecord => exact ⟨h.recommits_nil _, h.top, h.commitPos, h.live⟩
  | stopUnsafeRecord => exact h.stop hj

/-- The bytes that an operation leaves as they are: those of the record and of the blocks that it does not release. -/
def Kept (r r' : ArenaRun) (x : Nat) : Prop :=
  x < sizeOfArena ∨ ∃ b ∈ r.live, b ∈ r'.live ∧ b.start ≤ x ∧ x < b.stop

theorem PagesInv.below (h : PagesInv j s) {x : Nat} (hx : x < s.run.arena.pos) (hcap : x < s.run.arena.cap) :
    s.pages x ≠ none := by
  rw [h.pages]
  have hup := Align.le_roundUp s.run.arena.commitPos (2 ^ j)
  have hround := Align.le_roundUp s.run.arena.pos (2 ^ j)
  have := h.commitPos
  omega

theorem PagesInv.step (h : PagesInv j s) (hj : j ≤ 30) {op : PagedOp} (hw : PagedOk s op) :
    PagesInv j (pagedStep s op) ∧ ∀ x, Kept s.run (pagedStep s op).run x → s.pages x ≠ none ∧
      (pagedStep s op).pages x = op.stores x (s.pages x) := by
  cases op with
  | arena op =>
    obtain ⟨⟨pages, hcalls, hpages, hkept⟩, hsettled⟩ := h.arenaOp hj hw
    have hblocks := h.toBlocksInv.step hw
    have hshape := arenaStep_shape s.run op
    unfold Arena.shape at hshape
    simp only [Prod.mk.injEq] at hshape
    obtain ⟨hpage, halign, hcap⟩ := hshape
    have hstep : pagedStep s (.arena op) = { s with run := arenaStep s.run op, pages } := by
      rw [pagedStep, h.page, hcalls]
    rw [hstep]
    refine ⟨⟨hblocks, hsettled, hpage.trans h.page, ?_, ?_, hpages, h.noFault⟩, fun x hx => ?_⟩
    · exact halign.symm ▸ h.align
    · exact hcap.symm ▸ h.cap
    · have hx : x < s.run.arena.pos ∧ x < (arenaStep s.run op).arena.pos ∧ x < s.run.arena.cap := by
        rcases hx with hx | ⟨b, hb, hb', -, hx⟩
        · have := h.pos
          have := hblocks.pos
          have := h.cap.1
          omega
        · have := h.live b hb
          have := hsettled.live b hb'
          omega
      exact ⟨h.below hx.1 hx.2.2, hkept x hx.1 hx.2.1⟩
  | store y byte =>
    obtain ⟨b, hb, hstart, hstop⟩ := hw
    have hlive := h.live b hb
    have hne := h.below (Nat.lt_of_lt_of_le hstop hlive.1) (Nat.lt_of_lt_of_le hstop hlive.2)
    obtain ⟨old, hold⟩ := Option.ne_none_iff_exists'.mp hne
    have hstep : pagedStep s (.store y byte) = { s with pages := Function.update s.pages y (some byte) } := by
      rw [pagedStep, hold]
    rw [hstep]
    refine ⟨⟨h.toBlocksInv, h.toSettled, h.page, h.align, h.cap, fun x => ?_, h.noFault⟩, fun x hx => ?_⟩
    · show Function.update s.pages y (some byte) x ≠ none ↔ _
      by_cases hxy : x = y
      · subst hxy
        rw [Function.update_self]
        exact iff_of_true (Option.some_ne_none _) ((h.pages x).mp hne)
      · rw [Function.update_of_ne hxy]
        exact h.pages x
    · refine ⟨?_, Function.update_apply _ _ _ _⟩
      rcases hx with hx | ⟨b, hb, -, -, hx⟩
      · exact h.below (Nat.lt_of_lt_of_le hx h.pos) (Nat.lt_of_lt_of_le hx h.cap.1)
      · have := h.live b hb
        exact h.below (by omega) (by omega)

end

theorem pagesInv_start {j k cap : Nat} (hj : j ≤ 30) (hk : k ≤ j) (hcap : sizeOfArena ≤ cap) (hcap' : cap < 2 ^ 63) :
    PagesInv j (pagedStart (2 ^ j) cap (2 ^ k)) := by
  have hle := Align.le_roundUp sizeOfArena (2 ^ j)
  have hpos : 0 < sizeOfArena := by decide
  have hblocks : BlocksInv (.new (memMakeArenaAligned (2 ^ j) (fun _ => 0) cap (2 ^ k))) :=
    (NewArena.aligned (2 ^ j) (fun _ => 0) hcap (by omega) (Nat.le_trans hk hj)).blocksInv
  have hcommit : (memMakeArenaAligned (2 ^ j) (fun _ => 0) cap (2 ^ k)).commitPos =
      min (roundUp sizeOfArena (2 ^ j)) cap :=
    congrArg (min · cap) (alignUp_page hj (by omega))
  have hstart : osMemoryCommit (2 ^ j) 0 (memMakeArenaAligned (2 ^ j) (fun _ => 0) cap (2 ^ k)).commitPos (fun _ => none) =
      some fun x => if 0 ≤ x ∧ x < roundUp (0 + min (roundUp sizeOfArena (2 ^ j)) cap) (2 ^ j) then some 0 else none := by
    rw [hcommit]
    exact mapFixed_dvd _ (Nat.dvd_zero _) (by omega) _
  rw [pagedStart, hstart]
  refine ⟨hblocks, ⟨?_, hcommit, fun b hb => absurd hb List.not_mem_nil⟩, rfl, ⟨k, hk, rfl⟩, ⟨hcap, hcap'⟩, fun x => ?_, rfl⟩
  · exact Nat.le_trans hcap (Align.le_roundUp _ _)
  · show (if 0 ≤ x ∧ x < _ then some 0 else none) ≠ none ↔ _
    rw [ArenaRun.new, hcommit, Nat.zero_add]
    split
    · rename_i hx
      exact iff_of_true (Option.some_ne_none _) hx.2
    · rename_i hx
      exact iff_of_false (fun hne => hne rfl) fun hlt => hx ⟨Nat.zero_le _, hlt⟩

/-- In every run no assertion of the base memory fails and no store faults; the committed pages are those that hold a byte
below `commitPos`, which is the position rounded up, within the capacity; and the next operation leaves the record and
every block that it does not release as they are, but for the byte that it stores. -/
theorem arena_pages {j k cap : Nat} (hj : j ≤ 30) (hk : k ≤ j) (hcap : sizeOfArena ≤ cap) (hcap' : cap < 2 ^ 63)
    {ops : List PagedOp} (hw : Along pagedStep PagedOk (pagedStart (2 ^ j) cap (2 ^ k)) ops) :
    let s := run pagedStep (pagedStart (2 ^ j) cap (2 ^ k)) ops
    s.fault = false ∧ s.run.arena.commitPos = min (roundUp s.run.arena.pos (2 ^ j)) s.run.arena.cap ∧
      (∀ x, s.pages x ≠ none ↔ x < roundUp s.run.arena.commitPos (2 ^ j)) ∧
      ∀ op, PagedOk s op → ∀ x, Kept s.run (pagedStep s op).run x → s.pages x ≠ none ∧
        (pagedStep s op).pages x = op.stores x (s.pages x) := by
  have h : PagesInv j (run pagedStep (pagedStart (2 ^ j) cap (2 ^ k)) ops) :=
    Runs.run_invariant_along (I := fun s => PagesInv j s) (fun _ _ h hw => (h.step hj hw).1)
      (pagesInv_start hj hk hcap hcap') hw
  exact ⟨h.noFault, h.commitPos, h.pages, fun op hop => (h.step hj hop).2⟩

theorem arena_pages_store :
    let s := run pagedStep (pagedStart (2 ^ 12) 8192 (2 ^ 4)) [.arena (.push 20), .store 130 7, .arena (.push 5000)]
    s.fault = false ∧ s.run.arena.commitPos = min (roundUp s.run.arena.pos (2 ^ 12)) s.run.arena.cap ∧
      (∀ x, s.pages x ≠ none ↔ x < roundUp s.run.arena.commitPos (2 ^ 12)) ∧
      ∀ op, PagedOk s op → ∀ x, Kept s.run (pagedStep s op).run x → s.pages x ≠ none ∧
        (pagedStep s op).pages x = op.stores x (s.pages x) :=
  @arena_pages 12 4 8192 (by decide) (by decide) (by decide) (by decide) _
    ⟨⟨fun _ => by decide, by decide⟩, ⟨⟨128, 148⟩, by decide, by decide, by decide⟩, ⟨fun _ => by decide, by decide⟩,
      trivial⟩

end CWebServer
