import CWebServer.RecordDepth

/-!
# Aligned blocks

Outside of records `pos` stays a multiple of the alignment: a push rounds its
size, a join rounds `pos` at its end. A format rounds to its own alignment of
1, so that its text has to be a multiple of the arena's alignment long.
-/

namespace CWebServer

open Runs (run Along)

inductive StrOp
  | push (size : Nat)
  | join (args : List StrValue)
  | fmt (i : FmtInput)
  | scratchStart
  | scratchEnd

/-- `offsets` are those of the blocks that were returned outside of records, from the start of the arena. -/
structure StrRun where
  arena : Arena
  scratches : List MemScratch
  offsets : List Nat

def StrRun.new (arena : Arena) : StrRun := ⟨arena, [], []⟩

/-- A call that faults leaves the state as it is. -/
def strStep (s : StrRun) : StrOp → StrRun
  | .push size =>
    match memArenaPush s.arena size with
    | (some off, arena) =>
      { s with arena, offsets := if s.arena.unsafeRecord = 0 then (sizeOfArena + off) :: s.offsets else s.offsets }
    | (none, arena) => { s with arena }
  | .join args =>
    match strJoinVargs s.arena args with
    | some (_, arena) => { s with arena }
    | none => s
  | .fmt i =>
    match strFmtVargs s.arena i with
    | some (.str _ arena) => { s with arena }
    | some (.failed arena) => { s with arena }
    | none => s
  | .scratchStart => { s with scratches := memScratchStart s.arena :: s.scratches }
  | .scratchEnd =>
    match s.scratches with
    | scratch :: scratches => { s with arena := memScratchEnd s.arena scratch, scratches }
    | [] => s

def StrOp.Keeps : StrOp → Prop
  | .join args => ∀ arg ∈ args, arg.Keeps
  | .fmt i => i.Keeps
  | _ => True

/-- A new arena whose alignment divides `sizeof(Arena)`. -/
inductive FreshArena : Nat → Arena → Prop
  | aligned {k : Nat} (hk : k ≤ 7) (pageSize cap : Nat) (memory : Nat → UInt8) :
    FreshArena k (memMakeArenaAligned pageSize memory cap (2 ^ k))
  | preAllocated (memory : Nat → UInt8) (size : Nat) : FreshArena 4 (memMakeArenaPreAllocated memory size)

/-- The scan returns early, or there is room for its text and that is a multiple of the alignment long. -/
def AlignedText (arena : Arena) (i : FmtInput) : Prop :=
  ∀ trace, i.loop 0 {} = some trace → trace.error = false →
    ∃ t peak, WritesAll trace.writes t peak ∧ HasRoom arena peak ∧ arena.alignment ∣ t.length

/-- Outside of a record the text of a format is aligned, unless every position is. -/
def FormatFits (s : StrRun) (op : StrOp) : Prop :=
  ∀ i, op = .fmt i → s.arena.unsafeRecord = 0 → s.arena.alignment = 1 ∨ AlignedText s.arena i

structure AlignedInv (k : Nat) (s : StrRun) : Prop where
  alignment : s.arena.alignment = 2 ^ k
  record : 0 ≤ s.arena.unsafeRecord
  pos : s.arena.unsafeRecord = 0 → 2 ^ k ∣ s.arena.pos ∧ ∀ scratch ∈ s.scratches, 2 ^ k ∣ scratch.start
  offsets : ∀ off ∈ s.offsets, 2 ^ k ∣ off

/-! ## Positions -/

theorem dvd_wrap64 {k : Nat} {n : Int} (hk : k ≤ 64) (h : ((2 ^ k : Nat) : Int) ∣ n) : 2 ^ k ∣ wrap64 n := by
  have hmod : ((2 ^ k : Nat) : Int) ∣ n % 2 ^ 64 := by
    rw [Int.emod_def]
    have hpow : ((2 ^ k : Nat) : Int) ∣ 2 ^ 64 := by
      have hnat := Nat.pow_dvd_pow 2 hk
      exact_mod_cast hnat
    exact Int.dvd_sub h (Int.dvd_mul_of_dvd_left hpow)
  unfold wrap64
  rw [← Int.natCast_dvd_natCast, Int.toNat_of_nonneg (Int.emod_nonneg n (by decide))]
  exact hmod

theorem dvd_sizeOfArena {k : Nat} (hk : k ≤ 7) : 2 ^ k ∣ sizeOfArena := Nat.pow_dvd_pow 2 hk

theorem dvd_pushSize {arena : Arena} {k : Nat} (hk : k ≤ 7) (ha : arena.alignment = 2 ^ k)
    (hz : arena.unsafeRecord = 0) (size : Nat) : 2 ^ k ∣ pushSize arena size := by
  unfold pushSize
  by_cases h1 : 1 < arena.alignment
  · rw [if_pos ⟨hz, h1⟩, ha]
    exact dvd_alignUp size (by omega)
  · have hone : 2 ^ k = 1 := by
      have := Nat.one_le_two_pow (n := k)
      omega
    rw [hone]
    exact Nat.one_dvd _

theorem push_aligned {arena arena' : Arena} {k size : Nat} {off : Option Nat} (hk : k ≤ 7)
    (ha : arena.alignment = 2 ^ k) (hz : arena.unsafeRecord = 0) (hpos : 2 ^ k ∣ arena.pos)
    (h : memArenaPush arena size = (off, arena')) :
    2 ^ k ∣ arena'.pos ∧ ∀ o ∈ off, 2 ^ k ∣ sizeOfArena + o := by
  have hsize := dvd_pushSize hk ha hz size
  have hint : ((2 ^ k : Nat) : Int) ∣ (arena.pos : Int) := Int.natCast_dvd_natCast.mpr hpos
  have hpos' : 2 ^ k ∣ wrap64 (arena.pos + pushSize arena size) :=
    dvd_wrap64 (by omega) (Int.dvd_add hint (Int.natCast_dvd_natCast.mpr hsize))
  have hoff : 2 ^ k ∣ memGetArenaMemOffsetPos arena :=
    dvd_wrap64 (by omega) (Int.dvd_sub hint (Int.natCast_dvd_natCast.mpr (dvd_sizeOfArena hk)))
  unfold memArenaPush at h
  simp only [← pushSize.eq_def] at h
  split at h <;> cases h
  · refine ⟨hpos', fun o ho => ?_⟩
    cases ho
    exact Nat.dvd_add (dvd_sizeOfArena hk) hoff
  · exact ⟨hpos, fun o ho => by cases ho⟩

theorem popTo_aligned {arena : Arena} {k pos : Nat} (hk : k ≤ 7) (hpos : 2 ^ k ∣ arena.pos) (hstart : 2 ^ k ∣ pos) :
    2 ^ k ∣ (memArenaPopTo arena pos).pos := by
  rw [pos_popTo]
  rcases Nat.le_total arena.pos (max sizeOfArena pos) with h | h
  · rw [Nat.min_eq_left h]
    exact hpos
  · rw [Nat.min_eq_right h]
    rcases Nat.le_total sizeOfArena pos with h | h
    · rw [Nat.max_eq_right h]
      exact hstart
    · rw [Nat.max_eq_left h]
      exact dvd_sizeOfArena hk

theorem recordEnd_pos {arena arena' : Arena} {startIdx : Nat} {str : S8} (hone : arena.unsafeRecord = 1)
    (h : strRecordEnd startIdx arena = some (str, arena')) : arena'.pos = alignUp arena.pos arena.alignment := by
  obtain ⟨arena'', hstop, hsome⟩ := Option.bind_eq_some_iff.mp h
  cases hsome
  rcases memArenaStop_cases hstop with ⟨_, he⟩ | ⟨hrec, _⟩
  · rw [he]
  · omega

theorem join_pos {arena arena' : Arena} {args : List StrValue} {str : S8} (hz : arena.unsafeRecord = 0)
    (hargs : ∀ arg ∈ args, arg.Keeps) (h : strJoinVargs arena args = some (str, arena')) :
    ∃ p, arena'.pos = alignUp p arena.alignment := by
  rw [strJoinVargs, strRecord_eq] at h
  obtain ⟨written, hbody, hend⟩ := Option.bind_eq_some_iff.mp h
  have hmode := Keeps.foldlM (fun arg harg => keeps_value (hargs arg harg)) _ _ hbody
  unfold Arena.mode memArenaStartUnsafeRecord at hmode
  rw [Prod.mk.injEq] at hmode
  rw [recordEnd_pos (by rw [hmode.1, hz]; rfl) hend, hmode.2]
  exact ⟨_, rfl⟩

theorem loop_of_fmt {arena arena' : Arena} {i : FmtInput} {str : S8}
    (h : strFmtVargs arena i = some (.str str arena')) : ∃ writes, i.loop 0 {} = some ⟨writes, false⟩ := by
  obtain ⟨trace, hloop, hrun⟩ := Option.bind_eq_some_iff.mp h
  obtain ⟨ended, _, hresult⟩ := Option.bind_eq_some_iff.mp hrun
  cases herror : trace.error with
  | true =>
    rw [if_pos herror] at hresult
    cases hresult
  | false => exact ⟨trace.writes, herror ▸ hloop⟩

theorem format_pos {arena arena' : Arena} {i : FmtInput} {str : S8} (hz : arena.unsafeRecord = 0)
    (hi : AlignedText arena i) (h : strFmtVargs arena i = some (.str str arena')) :
    ∃ n, arena.alignment ∣ n ∧ arena'.pos = arena.pos + n := by
  obtain ⟨writes, hloop⟩ := loop_of_fmt h
  obtain ⟨t, peak, hwrites, hroom, hdvd⟩ := hi _ hloop rfl
  have hroom' : HasRoom { arena with alignment := 1 } peak := ⟨hroom.record, hroom.pos, hroom.room, hroom.cap⟩
  obtain ⟨c, hrun⟩ := hwrites.run _ hroom'.recording
  have hone : ((memArenaStartUnsafeRecord { arena with alignment := 1 }).append t c).unsafeRecord = 1 := by
    show arena.unsafeRecord + 1 = 1
    rw [hz]
    rfl
  rw [strFmtVargs_of_loop hloop, strRecord_eq, hrun, Option.bind_some] at h
  obtain ⟨⟨_, ended⟩, hend, hresult⟩ := Option.map_eq_some_iff.mp h
  cases hresult
  have hlen := hwrites.length_le
  have hfit := hroom.room
  have hcap := hroom.cap
  have hsame : alignUp (arena.pos + t.length) (2 ^ 0) = arena.pos + t.length :=
    alignUp_of_dvd (Nat.zero_le _) (by omega) (Nat.one_dvd _)
  exact ⟨_, hdvd, (recordEnd_pos hone hend).trans hsame⟩

/-! ## Runs -/

theorem AlignedInv.start {k : Nat} {arena : Arena} (h : FreshArena k arena) : k ≤ 7 ∧ AlignedInv k (.new arena) := by
  have hnil : ∀ {α : Type} {P : α → Prop}, ∀ a ∈ ([] : List α), P a := fun a ha => absurd ha List.not_mem_nil
  cases h with
  | aligned hk pageSize cap memory => exact ⟨hk, rfl, Int.le_refl _, fun _ => ⟨dvd_sizeOfArena hk, hnil⟩, hnil⟩
  | preAllocated memory size =>
    exact ⟨by decide, rfl, Int.le_refl _, fun _ => ⟨dvd_sizeOfArena (by decide), hnil⟩, hnil⟩

theorem AlignedInv.keep {k : Nat} {s : StrRun} {arena : Arena} (h : AlignedInv k s) (hmode : arena.mode = s.arena.mode)
    (hpos : s.arena.unsafeRecord = 0 → 2 ^ k ∣ arena.pos) : AlignedInv k { s with arena } := by
  unfold Arena.mode at hmode
  rw [Prod.mk.injEq] at hmode
  refine ⟨hmode.2.trans h.alignment, ?_, fun hz => ?_, h.offsets⟩
  · show 0 ≤ arena.unsafeRecord
    rw [hmode.1]
    exact h.record
  · have hz' : s.arena.unsafeRecord = 0 := hmode.1.symm.trans hz
    exact ⟨hpos hz', (h.pos hz').2⟩

theorem AlignedInv.push {k : Nat} (hk : k ≤ 7) {s : StrRun} (h : AlignedInv k s) (size : Nat) :
    AlignedInv k (strStep s (.push size)) := by
  have hmode := mode_push s.arena size
  simp only [strStep]
  cases hpush : memArenaPush s.arena size with
  | mk off arena =>
    rw [hpush] at hmode
    have haligned := fun hz => push_aligned hk h.alignment hz (h.pos hz).1 hpush
    have hkeep := h.keep hmode fun hz => (haligned hz).1
    cases off with
    | none => exact hkeep
    | some off =>
      refine ⟨hkeep.alignment, hkeep.record, hkeep.pos, ?_⟩
      by_cases hz : s.arena.unsafeRecord = 0
      · intro o ho
        simp only [hz, if_true] at ho
        cases List.mem_cons.mp ho with
        | inl ho => rw [ho]; exact (haligned hz).2 off rfl
        | inr ho => exact h.offsets o ho
      · simp only [hz, if_false]
        exact h.offsets

theorem AlignedInv.join {k : Nat} (hk : k ≤ 7) {s : StrRun} (h : AlignedInv k s) {args : List StrValue}
    (hkeeps : ∀ arg ∈ args, arg.Keeps) : AlignedInv k (strStep s (.join args)) := by
  simp only [strStep]
  split
  · rename_i str arena hjoin
    apply h.keep (mode_join hkeeps hjoin)
    intro hz
    obtain ⟨p, hp⟩ := join_pos hz hkeeps hjoin
    rw [hp, h.alignment]
    exact dvd_alignUp p (by omega)
  · exact h

theorem AlignedInv.fmt {k : Nat} (hk : k ≤ 7) {s : StrRun} (h : AlignedInv k s) {i : FmtInput} (hkeeps : i.Keeps)
    (hfits : FormatFits s (.fmt i)) : AlignedInv k (strStep s (.fmt i)) := by
  have hsame : s.arena.alignment % 2 ^ 32 = s.arena.alignment := by
    rw [h.alignment]
    exact Nat.mod_eq_of_lt (Nat.pow_lt_pow_right Nat.one_lt_two (by omega))
  simp only [strStep]
  split
  · rename_i str arena hfmt
    have hmode : arena.mode = (s.arena.unsafeRecord, s.arena.alignment % 2 ^ 32) := mode_fmt hkeeps hfmt
    rw [hsame] at hmode
    apply h.keep hmode
    intro hz
    cases hfits i rfl hz with
    | inl hone =>
      rw [← h.alignment, hone]
      exact Nat.one_dvd _
    | inr hwhole =>
      obtain ⟨n, hn, hpos⟩ := format_pos hz hwhole hfmt
      rw [hpos]
      exact Nat.dvd_add (h.pos hz).1 (h.alignment ▸ hn)
  · -- the record stays open, and outside of records there is nothing left to show
    rename_i arena hfmt
    have hmode : arena.mode = (s.arena.unsafeRecord + 1, s.arena.alignment % 2 ^ 32) := mode_fmt hkeeps hfmt
    unfold Arena.mode at hmode
    rw [Prod.mk.injEq] at hmode
    have hrecord := h.record
    refine ⟨hmode.2.trans (hsame.trans h.alignment), ?_, fun hz => ?_, h.offsets⟩
    · show 0 ≤ arena.unsafeRecord
      omega
    · have hz' : arena.unsafeRecord = 0 := hz
      omega
  · exact h

theorem AlignedInv.scratchStart {k : Nat} {s : StrRun} (h : AlignedInv k s) :
    AlignedInv k (strStep s .scratchStart) := by
  refine ⟨h.alignment, h.record, fun hz => ⟨(h.pos hz).1, ?_⟩, h.offsets⟩
  intro scratch hs
  cases List.mem_cons.mp hs with
  | inl hs => rw [hs]; exact (h.pos hz).1
  | inr hs => exact (h.pos hz).2 scratch hs

theorem AlignedInv.scratchEnd {k : Nat} (hk : k ≤ 7) {s : StrRun} (h : AlignedInv k s) :
    AlignedInv k (strStep s .scratchEnd) := by
  simp only [strStep]
  split
  · rename_i scratch scratches hs
    have hmode : (memScratchEnd s.arena scratch).mode = s.arena.mode := mode_popTo _ _
    have hkeep := h.keep hmode fun hz => by
      apply popTo_aligned hk (h.pos hz).1
      exact (h.pos hz).2 scratch (hs ▸ List.mem_cons_self)
    refine ⟨hkeep.alignment, hkeep.record, fun hz => ⟨(hkeep.pos hz).1, fun scratch' hs' => ?_⟩, hkeep.offsets⟩
    exact (hkeep.pos hz).2 scratch' (hs ▸ List.mem_cons_of_mem _ hs')
  · exact h

theorem AlignedInv.step {k : Nat} (hk : k ≤ 7) {s : StrRun} {op : StrOp} (h : AlignedInv k s)
    (hop : op.Keeps ∧ FormatFits s op) : AlignedInv k (strStep s op) := by
  cases op with
  | push size => exact h.push hk size
  | join args => exact h.join hk hop.1
  | fmt i => exact h.fmt hk hop.1 hop.2
  | scratchStart => exact h.scratchStart
  | scratchEnd => exact h.scratchEnd hk

theorem alignedText_template {arena : Arena} {text : List UInt8} {texts : List (List UInt8)} {args : List FmtArg}
    (hn : texts.length ≤ args.length) (hroom : HasRoom arena (fmtPeak text texts args))
    (hdvd : arena.alignment ∣ (fmtText text texts args).length) (behind : Nat → Option UInt8) (ndebug : Bool) :
    AlignedText arena ⟨fmtTemplate text texts, behind, args.map FmtArg.toStrKeyValue, ndebug⟩ := by
  intro trace hloop _
  obtain ⟨writes, hloop', hwrites⟩ := loop_template hn behind ndebug
  rw [hloop'] at hloop
  cases hloop
  exact ⟨_, _, hwrites, hroom, hdvd⟩

theorem blocks_aligned {k : Nat} {arena : Arena} (h : FreshArena k arena) {ops : List StrOp}
    (hk : ∀ op ∈ ops, op.Keeps) (hfits : Along strStep FormatFits (.new arena) ops) :
    ∀ off ∈ (run strStep (.new arena) ops).offsets, (run strStep (.new arena) ops).arena.alignment ∣ off := by
  obtain ⟨hk7, hstart⟩ := AlignedInv.start h
  have hinv := Runs.run_invariant_along (fun _ _ => AlignedInv.step hk7) hstart (hfits.and_forall hk)
  rw [hinv.alignment]
  exact hinv.offsets

/-- A text of 16 bytes, and a scope with a push and a join. -/
def scopeOps : List StrOp :=
  [.fmt ⟨fmtTemplate (s8 "n = ") [s8 ", m = 12345"], fun _ => none,
      [⟨s8 "n", .char 55⟩].map FmtArg.toStrKeyValue, false⟩,
    .scratchStart, .push 5, .join [.u32 7, .str (s8 "ab")], .scratchEnd, .push 3]

theorem blocks_aligned_join :
    Along strStep FormatFits (.new (memMakeArenaPreAllocated (fun _ => 0) 1024)) scopeOps ∧
      ∀ off ∈ (run strStep (.new (memMakeArenaPreAllocated (fun _ => 0) 1024)) scopeOps).offsets,
        (run strStep (.new (memMakeArenaPreAllocated (fun _ => 0) 1024)) scopeOps).arena.alignment ∣ off := by
  have hother : ∀ {s : StrRun} {op : StrOp}, (∀ i, op ≠ .fmt i) → FormatFits s op := fun hop i hi _ => absurd hi (hop i)
  have hfits : Along strStep FormatFits (.new (memMakeArenaPreAllocated (fun _ => 0) 1024)) scopeOps := by
    refine ⟨fun i hi _ => .inr ?_, hother nofun, hother nofun, hother nofun, hother nofun, hother nofun, trivial⟩
    cases hi
    exact alignedText_template (by decide) ⟨by decide, by decide, by decide, by decide⟩ (by decide) _ _
  refine ⟨hfits, blocks_aligned (.preAllocated (fun _ => 0) 1024) ?_ hfits⟩
  intro op hop
  simp only [scopeOps, List.mem_cons, List.not_mem_nil, or_false] at hop
  rcases hop with rfl | rfl | rfl | rfl | rfl | rfl
  · intro arg harg
    cases List.mem_singleton.mp harg
    trivial
  · trivial
  · trivial
  · intro arg harg
    simp only [List.mem_cons, List.not_mem_nil, or_false] at harg
    rcases harg with rfl | rfl <;> trivial
  · trivial
  · trivial

/-- A text of one byte leaves `pos` at 129, where the next block starts. -/
theorem not_blocks_aligned :
    FreshArena 4 (memMakeArenaPreAllocated (fun _ => 0) 1024) ∧
      ¬ ∀ off ∈ (run strStep (.new (memMakeArenaPreAllocated (fun _ => 0) 1024))
          [.fmt ⟨s8 "a", fun _ => none, [], false⟩, .push 8]).offsets,
        (run strStep (.new (memMakeArenaPreAllocated (fun _ => 0) 1024))
          [.fmt ⟨s8 "a", fun _ => none, [], false⟩, .push 8]).arena.alignment ∣ off := by
  refine ⟨.preAllocated _ _, fun h => ?_⟩
  have hloop : FmtInput.loop ⟨s8 "a", fun _ => none, [], false⟩ 0 {} = some ⟨[.text (s8 "a")], false⟩ := by
    rw [FmtInput.loop_turn (by decide)]
    show (FmtInput.loop ⟨s8 "a", fun _ => none, [], false⟩ 1 ⟨chr 'a', 0, none, 0⟩).map _ = _
    rw [FmtInput.loop_end (by decide)]
    rfl
  have hfmt : strFmtVargs (memMakeArenaPreAllocated (fun _ => 0) 1024) ⟨s8 "a", fun _ => none, [], false⟩ =
      some (.str (.slice 0 1) { memMakeArenaPreAllocated (fun _ => 0) 1024 with
        pos := 129, memory := Memory.write (fun _ => 0) 0 (s8 "a") }) := by
    rw [strFmtVargs_of_loop hloop]
    rfl
  simp only [run, List.foldl_cons, List.foldl_nil, StrRun.new, strStep, hfmt] at h
  exact absurd (h 129 (by decide)) (by decide)

end CWebServer
