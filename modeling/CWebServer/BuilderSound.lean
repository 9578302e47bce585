import CWebServer.Builder

/-!
# What the blocks of a builder hold

A step keeps the blocks of a builder filled by their texts if each call finds
the end of the last text where it goes on, and a header that is not rounded
up where it starts a block.
-/

namespace CWebServer

open Runs (run Along)

/-! ## Blocks in the arena -/

def BuiltBlock.extent (block : BuiltBlock) : Blocks.Block := ⟨block.header, block.finish⟩

structure Filled (memory : Nat → UInt8) (block : BuiltBlock) : Prop where
  finish : block.header + sizeOfBuilderBlock + block.texts.flatten.length = block.finish
  text : Memory.read memory (block.header + sizeOfBuilderBlock) block.texts.flatten.length = block.texts.flatten

/-- The blocks lie below `limit`, filled by their texts. -/
structure Laid (memory : Nat → UInt8) (limit : Nat) (blocks : List BuiltBlock) : Prop where
  packed : Blocks.Packed 0 limit (blocks.map BuiltBlock.extent)
  filled : ∀ block ∈ blocks, Filled memory block

section
variable {memory : Nat → UInt8} {limit off : Nat} {block : BuiltBlock} {blocks : List BuiltBlock}

theorem Laid.textsTogether {s : BuilderRun} (h : Laid s.builder.arena.memory limit s.blocks) : TextsTogether s := by
  intro block hblock
  obtain ⟨hfinish, htext⟩ := h.filled block hblock
  rw [← hfinish, Nat.add_sub_cancel_left]
  exact htext

theorem Filled.write (h : Filled memory block) {t : List UInt8}
    (hoff : off + t.length ≤ block.header + sizeOfBuilderBlock ∨ block.finish ≤ off) :
    Filled (Memory.write memory off t) block where
  finish := h.finish
  text := (Memory.read_write_apart memory (by have := h.finish; omega)).trans h.text

theorem Laid.below (h : Laid memory limit blocks) (hblock : block ∈ blocks) : block.finish ≤ limit :=
  (h.packed.within _ (List.mem_map_of_mem hblock)).2

theorem Laid.below_last {older : BuiltBlock} (h : Laid memory limit (block :: blocks)) (holder : older ∈ blocks) :
    older.finish ≤ block.header :=
  (List.pairwise_cons.mp h.packed.stacked).1 _ (List.mem_map_of_mem holder)

theorem Laid.write_behind (h : Laid memory limit blocks) (hoff : limit ≤ off) (t : List UInt8) :
    Laid (Memory.write memory off t) limit blocks where
  packed := h.packed
  filled := fun _ hblock => (h.filled _ hblock).write (Or.inr (Nat.le_trans (h.below hblock) hoff))

theorem Laid.write_next (h : Laid memory limit (block :: blocks)) (value : Nat) :
    Laid (LittleEndian.writeWord memory (block.header + 8) value) limit (block :: blocks) where
  packed := h.packed
  filled := by
    intro older holder
    apply (h.filled older holder).write
    rcases List.mem_cons.mp holder with rfl | holder
    · left
      rw [LittleEndian.length_bytes]
      unfold sizeOfBuilderBlock
      omega
    · right
      exact Nat.le_trans (h.below_last holder) (Nat.le_add_right _ _)

theorem Laid.append (h : Laid memory limit (block :: blocks)) (text : List UInt8) {limit' : Nat}
    (hlimit : limit ≤ limit') (hle : block.finish + text.length ≤ limit') :
    Laid (Memory.write memory block.finish text) limit'
      ({ block with texts := block.texts ++ [text], finish := block.finish + text.length } :: blocks) where
  packed := h.packed.extend hlimit hle
  filled := by
    intro other hother
    rcases List.mem_cons.mp hother with rfl | hother
    · obtain ⟨hfinish, htext⟩ := h.filled block List.mem_cons_self
      constructor
      · simp only [List.flatten_append, List.flatten_singleton, List.length_append]
        omega
      · simp only [List.flatten_append, List.flatten_singleton]
        refine Memory.read_append_iff.mpr ⟨?_, ?_⟩
        · exact (Memory.read_write_apart memory (Or.inr (Nat.le_of_eq hfinish))).trans htext
        · rw [hfinish]
          exact Memory.read_write ..
    · apply (h.filled other (List.mem_cons_of_mem _ hother)).write
      right
      have hfinish := (h.filled block List.mem_cons_self).finish
      have hbelow := h.below_last hother
      omega

theorem Laid.start (h : Laid memory limit blocks) {header : Nat} (hheader : limit ≤ header) (text : List UInt8)
    {limit' : Nat} (hle : header + sizeOfBuilderBlock + text.length ≤ limit') :
    Laid (Memory.write memory (header + sizeOfBuilderBlock) text) limit'
      (⟨header, [text], header + sizeOfBuilderBlock + text.length⟩ :: blocks) where
  packed := by
    have hlimit : limit ≤ limit' := by omega
    exact h.packed.push (Nat.zero_le _) hheader hlimit hle
  filled := by
    intro other hother
    rcases List.mem_cons.mp hother with rfl | hother
    · have hflat : [text].flatten = text := List.flatten_singleton
      constructor
      · rw [hflat]
      · rw [hflat]
        exact Memory.read_write ..
    · apply (h.filled other hother).write
      right
      have hbelow := h.below hother
      omega

end

/-! ## One call -/

structure Building (k : Nat) (s : BuilderRun) : Prop where
  alignment : s.builder.arena.alignment = 2 ^ k
  sized : Sized s.builder.arena
  first : s.builder.firstBlock = none ↔ s.builder.lastBlock = none
  last : s.builder.lastBlock = s.blocks.head?.map BuiltBlock.header
  laid : Laid s.builder.arena.memory (s.builder.arena.pos - sizeOfArena) s.blocks
  committed : s.pushed = true → s.builder.arena.pos ≤ s.builder.arena.commitPos

/-- The builder `started` has the block for the next text, which then fills it. -/
structure Started (s : BuilderRun) (started : StrBuilder) : Prop where
  shape : started.arena.shape = s.builder.arena.shape
  record : started.arena.unsafeRecord = s.builder.arena.unsafeRecord
  le_pos : s.builder.arena.pos ≤ started.arena.pos
  pos_le : started.arena.pos ≤ s.builder.arena.pos + sizeOfBuilderBlock
  first : started.firstBlock = none ↔ started.lastBlock = none
  last : ∀ text, started.lastBlock = (s.built started text).head?.map BuiltBlock.header
  laid : ∀ text limit, started.arena.pos - sizeOfArena + text.length ≤ limit →
    Laid (Memory.write started.arena.memory (started.arena.pos - sizeOfArena) text) limit (s.built started text)

section
variable {k base : Nat} {s : BuilderRun}

theorem Building.continued (h : Building k s) (hfit : BlockFits s) (hcont : s.builder.continues = true) :
    Started s s.builder := by
  have hsome : s.builder.lastBlock.isSome = true := (Bool.and_eq_true_iff.mp hcont).1
  have hlast := h.last
  have hexact := hfit.exact hcont
  have hlaid := h.laid
  cases hblocks : s.blocks with
  | nil =>
    rw [hlast, hblocks] at hsome
    cases hsome
  | cons block blocks =>
    rw [hblocks] at hlast hexact hlaid
    have hfinish := hexact block rfl
    refine ⟨rfl, rfl, Nat.le_refl _, Nat.le_add_right _ _, h.first, fun text => ?_, fun text limit hle => ?_⟩
    · unfold BuilderRun.built
      rw [hcont, hblocks, hlast]
      rfl
    · unfold BuilderRun.built
      rw [hcont, hblocks]
      rw [hfinish] at hle hlaid ⊢
      exact hlaid.append text (by omega) hle

theorem Building.newBlock (h : Building k s) (hk : k ≤ 30) (hfit : BlockFits s) (hcont : s.builder.continues = false)
    (hroom : HasRoom s.builder.arena sizeOfBuilderBlock) :
    ∃ started, builderBlock base s.builder = some started ∧ Started s started := by
  have htaken := hfit.header hcont
  have hpos := hroom.pos
  have hpush := memArenaPush_room sizeOfBuilderBlock hk h.alignment hpos hroom.cap (by rw [htaken]; exact hroom.room)
  rw [htaken] at hpush
  have hplace : s.builder.arena.pos + sizeOfBuilderBlock - sizeOfArena =
      s.builder.arena.pos - sizeOfArena + sizeOfBuilderBlock := by omega
  have hlast := h.last
  unfold builderBlock
  rw [hcont, hpush]
  cases hfirst : s.builder.firstBlock with
  | none =>
    refine ⟨_, rfl, rfl, rfl, Nat.le_add_right _ _, Nat.le_refl _, by simp, fun text => ?_, fun text limit hle => ?_⟩
    · unfold BuilderRun.built
      rw [hcont]
      rfl
    · unfold BuilderRun.built
      rw [hcont]
      dsimp only at hle ⊢
      rw [hplace] at hle ⊢
      exact h.laid.start (Nat.le_refl _) text hle
  | some first =>
    have hsome : s.builder.lastBlock ≠ none := fun hnone => by
      rw [h.first.mpr hnone] at hfirst
      cases hfirst
    cases hblocks : s.blocks with
    | nil =>
      rw [hlast, hblocks] at hsome
      exact absurd rfl hsome
    | cons block blocks =>
      have hlaid := h.laid
      rw [hblocks] at hlast hlaid
      rw [hlast]
      refine ⟨_, rfl, rfl, rfl, Nat.le_add_right _ _, Nat.le_refl _, by simp, fun text => ?_,
        fun text limit hle => ?_⟩
      · unfold BuilderRun.built
        rw [hcont]
        rfl
      · unfold BuilderRun.built
        rw [hcont, hblocks]
        dsimp only at hle ⊢
        rw [hplace] at hle ⊢
        exact ((hlaid.write_next _).write_behind (Nat.le_refl _) _).start (Nat.le_refl _) text hle

theorem Building.started (h : Building k s) (base : Nat) (hk : k ≤ 30) (hfit : BlockFits s)
    (hroom : HasRoom s.builder.arena sizeOfBuilderBlock) :
    ∃ started, builderBlock base s.builder = some started ∧ Started s started := by
  cases hcont : s.builder.continues with
  | true => exact ⟨s.builder, by unfold builderBlock; rw [hcont]; rfl, h.continued hfit hcont⟩
  | false => exact h.newBlock hk hfit hcont hroom

end

/-- What a call writes into the arena. -/
structure Texted (arena : Arena) (text : List UInt8) (arena' : Arena) : Prop where
  memory : arena'.memory = Memory.write arena.memory (arena.pos - sizeOfArena) text
  pageSize : arena'.pageSize = arena.pageSize
  cap : arena'.cap = arena.cap
  le_pos : arena.pos + text.length ≤ arena'.pos

theorem Recorded.texted {arena arena' : Arena} {text : List UInt8} (h : Recorded arena text arena') :
    Texted arena text arena' := ⟨h.memory, h.pageSize, h.cap, h.le_pos⟩

section
variable {arena : Arena} {text : List UInt8} {peak k : Nat}

theorem join_texted {args : List StrValue} (hk : k ≤ 30) (ha : arena.alignment = 2 ^ k)
    (hwrites : Writes (fun arena => args.foldlM strRecordValue arena) text peak)
    (hroom : HasRoom arena (peak + (arena.alignment - 1))) :
    ∃ str arena', strJoinVargs arena args = some (str, arena') ∧ Texted arena text arena' := by
  obtain ⟨arena', hrun, hrecorded⟩ := strRecord_ends hwrites hk ha hroom
  exact ⟨_, arena', hrun, hrecorded.texted⟩

/-- The text is written also where the format fails and leaves its record open. -/
theorem fmt_texted {fmt : FmtInput} {trace : FmtTrace} (hloop : fmt.loop 0 {} = some trace)
    (hwrites : WritesAll trace.writes text peak) (hroom : HasRoom arena peak) :
    ∃ arena', (strFmtVargs arena fmt = some (.failed arena') ∨ ∃ str, strFmtVargs arena fmt = some (.str str arena')) ∧
      Texted arena text arena' := by
  obtain ⟨writes, error⟩ := trace
  have hroom' : HasRoom { arena with alignment := 1 } peak := ⟨hroom.record, hroom.pos, hroom.room, hroom.cap⟩
  cases error with
  | false =>
    obtain ⟨arena', hrun, hrecorded⟩ := strRecord_ends (k := 0) hwrites (by decide) rfl hroom'
    rw [strFmtVargs_of_loop hloop, hrun]
    exact ⟨_, Or.inr ⟨_, rfl⟩, hrecorded.memory, hrecorded.pageSize, hrecorded.cap, hrecorded.le_pos⟩
  | true =>
    obtain ⟨commitPos, hrun⟩ := hwrites.run _ hroom'.recording
    unfold strFmtVargs
    rw [hloop]
    simp only [Option.bind_eq_bind, Option.bind_some, hrun, if_true]
    refine ⟨_, Or.inl rfl, ?_, rfl, rfl, ?_⟩
    · dsimp only [memArenaStartUnsafeRecord, Arena.append]
    · exact Nat.le_refl (arena.pos + text.length)

end

/-! ## Runs of calls and pushes -/

section
variable {k base : Nat} {s : BuilderRun}

theorem Building.start {arena : Arena} (ha : arena.alignment = 2 ^ k) (hs : Sized arena) (arenaLastOffset : Nat) :
    Building k (.new arena arenaLastOffset) where
  alignment := ha
  sized := hs
  first := iff_of_true rfl rfl
  last := rfl
  laid := ⟨Blocks.packed_nil, fun _ hblock => absurd hblock List.not_mem_nil⟩
  committed := fun hpushed => by cases hpushed

theorem Building.call (h : Building k s) (hk : k ≤ 30) {started : StrBuilder} {text : List UInt8} {arena : Arena}
    (hblock : builderBlock base s.builder = some started) (hs : Started s started)
    (ht : Texted started.arena text arena) (hpos : sizeOfArena ≤ s.builder.arena.pos) :
    Building k (s.call base text (some (builderEnd started (s.builder.arena.alignment % 2 ^ 32) arena))) := by
  have halign : s.builder.arena.alignment % 2 ^ 32 = s.builder.arena.alignment := by
    have hlt := (two_pow_bounds hk).2
    rw [h.alignment]
    exact Nat.mod_eq_of_lt (by omega)
  have hshape := hs.shape
  unfold Arena.shape at hshape
  simp only [Prod.mk.injEq] at hshape
  obtain ⟨hpage, -, hcap⟩ := hshape
  have hle := hs.le_pos
  have hend := ht.le_pos
  unfold BuilderRun.call builderEnd
  rw [hblock, halign]
  refine ⟨h.alignment, h.sized.of_shape ?_, hs.first, hs.last text, ?_, fun hpushed => by cases hpushed⟩
  · unfold Arena.shape
    rw [ht.pageSize, ht.cap, hpage, hcap]
  · dsimp only
    rw [ht.memory]
    exact hs.laid text _ (by omega)

theorem Building.push (h : Building k s) (hk : k ≤ 30) {bytes : List UInt8} (hfits : OpFits s (.push bytes)) :
    Building k (builderStep base s (.push bytes)) := by
  have hroom : HasRoom s.builder.arena (bytes.length + (s.builder.arena.alignment - 1)) := hfits
  have htaken := takenBytes_le s.builder.arena bytes.length
  have hsum := hroom.room
  have hpos := hroom.pos
  have hcap := hroom.cap
  have hfit : s.builder.arena.pos + takenBytes s.builder.arena bytes.length ≤ s.builder.arena.cap := by omega
  have hpush := memArenaPush_room bytes.length hk h.alignment hpos hcap hfit
  simp only [builderStep, hpush]
  refine ⟨h.alignment, h.sized.of_shape rfl, h.first, h.last, ?_, fun _ => ?_⟩
  · dsimp only
    have hbehind := h.laid.write_behind (Nat.le_refl _) bytes
    have hgrow : s.builder.arena.pos - sizeOfArena ≤
        s.builder.arena.pos + takenBytes s.builder.arena bytes.length - sizeOfArena :=
      Nat.sub_le_sub_right (Nat.le_add_right _ _) _
    exact ⟨hbehind.packed.grow hgrow, hbehind.filled⟩
  · show s.builder.arena.pos + takenBytes s.builder.arena bytes.length ≤ CWebServer.committed s.builder.arena _
    unfold CWebServer.committed
    split
    · exact Nat.le_min.mpr ⟨h.sized.page _ (by omega) hfit, hfit⟩
    · rename_i hle
      exact Nat.not_lt.mp hle

theorem Building.startedRoom (h : Building k s) (base : Nat) (hk : k ≤ 30) {peak : Nat} (hfit : BlockFits s)
    (hroom : HasRoom s.builder.arena (sizeOfBuilderBlock + peak + 2 * (s.builder.arena.alignment - 1))) :
    ∃ started, builderBlock base s.builder = some started ∧ Started s started ∧
      started.arena.alignment = 2 ^ k ∧ HasRoom started.arena (peak + (started.arena.alignment - 1)) := by
  obtain ⟨started, hblock, hs⟩ := h.started base hk hfit (hroom.mono (by omega))
  have hshape := hs.shape
  unfold Arena.shape at hshape
  simp only [Prod.mk.injEq] at hshape
  obtain ⟨-, halign, hcap⟩ := hshape
  have hle := hs.le_pos
  have hge := hs.pos_le
  have hpos := hroom.pos
  have hsum := hroom.room
  refine ⟨started, hblock, hs, halign.trans h.alignment, hs.record ▸ hroom.record, by omega, ?_, hcap ▸ hroom.cap⟩
  rw [halign, hcap]
  omega

theorem Building.step (h : Building k s) (hk : k ≤ 30) {op : BuilderOp} (hfits : OpFits s op) (hcall : CallFits s op) :
    Building k (builderStep base s op) := by
  cases op with
  | joinRaw args text =>
    obtain ⟨peak, hwrites, hroom⟩ := hfits
    obtain ⟨started, hblock, hs, halign, hroom'⟩ := h.startedRoom base hk (hcall trivial) hroom
    obtain ⟨str, arena, hjoin, ht⟩ := join_texted hk halign hwrites hroom'
    have hrun : strBuilderJoinRaw base s.builder args =
        some (builderEnd started (s.builder.arena.alignment % 2 ^ 32) arena) := by
      unfold strBuilderJoinRaw
      rw [hblock, Option.bind_eq_bind, Option.bind_some, hjoin]
      rfl
    show Building k (s.call base text (strBuilderJoinRaw base s.builder args))
    rw [hrun]
    exact h.call hk hblock hs ht hroom.pos
  | fmtRaw fmt text =>
    obtain ⟨trace, peak, hloop, hwrites, hroom⟩ := hfits
    obtain ⟨started, hblock, hs, halign, hroom'⟩ := h.startedRoom base hk (hcall trivial) hroom
    obtain ⟨arena, hfmt, ht⟩ := fmt_texted hloop hwrites (hroom'.mono (Nat.le_add_right _ _))
    have hrun : strBuilderFmtRaw base s.builder fmt =
        some (builderEnd started (s.builder.arena.alignment % 2 ^ 32) arena) := by
      unfold strBuilderFmtRaw
      rw [hblock, Option.bind_eq_bind, Option.bind_some]
      rcases hfmt with hfmt | ⟨str, hfmt⟩
      · rw [hfmt]
        rfl
      · rw [hfmt]
        rfl
    show Building k (s.call base text (strBuilderFmtRaw base s.builder fmt))
    rw [hrun]
    exact h.call hk hblock hs ht hroom.pos
  | push bytes => exact h.push hk hfits

theorem Building.continuesAlone (h : Building k s) {op : BuilderOp} (hcall : CallFits s op) : ContinuesAlone s op := by
  intro hop hcont
  obtain ⟨hsome, hsame⟩ := Bool.and_eq_true_iff.mp hcont
  have hcommit : s.builder.arena.commitPos = s.builder.arenaLastOffset := eq_of_beq hsame
  cases hpushed : s.pushed with
  | false => rfl
  | true =>
    have hmoved := (hcall hop).moved hpushed (Option.isSome_iff_ne_none.mp hsome)
    have hle := h.committed hpushed
    omega

end

theorem textsTogether_run {base k : Nat} {arena : Arena} (hk : k ≤ 30) (ha : arena.alignment = 2 ^ k) (hs : Sized arena)
    {arenaLastOffset : Nat} {ops : List BuilderOp}
    (hfits : Along (builderStep base) OpFits (.new arena arenaLastOffset) ops)
    (hcalls : Along (builderStep base) CallFits (.new arena arenaLastOffset) ops) :
    TextsTogether (run (builderStep base) (.new arena arenaLastOffset) ops) ∧
      Along (builderStep base) ContinuesAlone (.new arena arenaLastOffset) ops := by
  have hstep : ∀ s op, Building k s → OpFits s op ∧ CallFits s op → Building k (builderStep base s op) :=
    fun s op h hop => h.step hk hop.1 hop.2
  have hstart := Building.start ha hs arenaLastOffset
  have hops := hfits.and hcalls
  constructor
  · exact (Runs.run_invariant_along hstep hstart hops).laid.textsTogether
  · exact hops.of_invariant hstep (fun s op h hop => h.continuesAlone hop.2) hstart

def joinText (text : String) : BuilderOp := .joinRaw [.str (s8 text)] (s8 text)

theorem joinText_fits {s : BuilderRun} {text : String}
    (h : HasRoom s.builder.arena (sizeOfBuilderBlock + (s8 text).length + 2 * (s.builder.arena.alignment - 1))) :
    OpFits s (joinText text) := by
  have hwrites : Writes (fun arena => [StrValue.str (s8 text)].foldlM strRecordValue arena) (s8 text)
      (s8 text).length := by
    simp only [List.foldlM_cons, List.foldlM_nil, bind_pure]
    exact (emits_pushCopy (s8 text)).writes
  exact ⟨_, hwrites, h⟩

/-- With pages of 64 bytes the push of one byte is enough to start a new block. -/
theorem textsTogether_run_pushed :
    TextsTogether (run (builderStep 4096) (.new (memMakeArenaAligned (2 ^ 6) (fun _ => 0) 1024 (2 ^ 4)) 0)
        [joinText "a text of 16 ch.", joinText "ab", .push [1], joinText "c"]) ∧
      Along (builderStep 4096) ContinuesAlone (.new (memMakeArenaAligned (2 ^ 6) (fun _ => 0) 1024 (2 ^ 4)) 0)
        [joinText "a text of 16 ch.", joinText "ab", .push [1], joinText "c"] := by
  have hpaged : PagedArena (memMakeArenaAligned (2 ^ 6) (fun _ => 0) 1024 (2 ^ 4)) :=
    .aligned _ (by decide) (by decide) (by decide) (by decide)
  refine textsTogether_run (k := 4) (by decide) rfl hpaged.sized ?_ ?_
  · exact ⟨joinText_fits (by decide +kernel), joinText_fits (by decide +kernel), by unfold OpFits; decide +kernel,
      joinText_fits (by decide +kernel), trivial⟩
  · exact ⟨fun _ => by decide +kernel, fun _ => by decide +kernel, fun h => h.elim, fun _ => by decide +kernel, trivial⟩

/-- All of the memory is committed: the text goes on behind the byte that was pushed. -/
theorem not_textsTogether :
    Along (builderStep 4096) OpFits (.new (memMakeArenaPreAllocated (fun _ => 0) 1024) 0)
        [joinText "a", .push [1], joinText "b"] ∧
      ¬ (TextsTogether (run (builderStep 4096) (.new (memMakeArenaPreAllocated (fun _ => 0) 1024) 0)
          [joinText "a", .push [1], joinText "b"]) ∧
        Along (builderStep 4096) ContinuesAlone (.new (memMakeArenaPreAllocated (fun _ => 0) 1024) 0)
          [joinText "a", .push [1], joinText "b"]) := by
  constructor
  · exact ⟨joinText_fits (by decide +kernel), by unfold OpFits; decide +kernel, joinText_fits (by decide +kernel),
      trivial⟩
  · rintro ⟨-, -, -, halone, -⟩
    exact absurd (halone trivial (by decide +kernel)) (by decide +kernel)

end CWebServer
