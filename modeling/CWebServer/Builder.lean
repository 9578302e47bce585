import CWebServer.ArenaSound
import CWebServer.FormatSound
import CWebServer.Lib.LittleEndian

/-!
# The string builder

A builder collects texts in blocks of its arena, each behind a header. A call
goes on in the last block if the arena has committed no more than at the end
of the call before, which says little about what was pushed in between.
-/

namespace CWebServer

/-- The blocks are offsets of their headers; `none` is `NULL`. -/
structure StrBuilder where
  arena : Arena
  arenaLastOffset : Nat
  firstBlock : Option Nat
  lastBlock : Option Nat

def sizeOfBuilderBlock : Nat := 32

def blockAddress (base : Nat) (block : Option Nat) : Nat := block.elim 0 (base + ·)

def StrBuilder.continues (builder : StrBuilder) : Bool :=
  builder.lastBlock.isSome && builder.arena.commitPos == builder.arenaLastOffset

/-- The start of both calls: a new block, unless the last one goes on. `none` where a field of `NULL` is written. -/
def builderBlock (base : Nat) (builder : StrBuilder) : Option StrBuilder :=
  if builder.continues then some builder
  else
    match memArenaPush builder.arena sizeOfBuilderBlock, builder.firstBlock with
    | (block, arena), none => some { builder with arena, firstBlock := block, lastBlock := block }
    | (block, arena), some _ => do
      let lastBlock ← builder.lastBlock
      let memory := LittleEndian.writeWord arena.memory (lastBlock + 8) (blockAddress base block)
      let block ← block
      let memory := LittleEndian.writeWord memory block (base + lastBlock)
      some { builder with arena := { arena with memory }, lastBlock := some block }

/-- The end of both calls. -/
def builderEnd (builder : StrBuilder) (storedAlignment : Nat) (arena : Arena) : StrBuilder :=
  { builder with arena := { arena with alignment := storedAlignment }, arenaLastOffset := arena.commitPos }

def strBuilderJoinRaw (base : Nat) (builder : StrBuilder) (args : List StrValue) : Option StrBuilder := do
  -- kept in a `u32`
  let storedAlignment := builder.arena.alignment % 2 ^ 32
  let builder ← builderBlock base builder
  let (_, arena) ← strJoinVargs builder.arena args
  some (builderEnd builder storedAlignment arena)

def strBuilderFmtRaw (base : Nat) (builder : StrBuilder) (fmt : FmtInput) : Option StrBuilder := do
  let storedAlignment := builder.arena.alignment % 2 ^ 32
  let builder ← builderBlock base builder
  match ← strFmtVargs builder.arena fmt with
  | .str _ arena => some (builderEnd builder storedAlignment arena)
  | .failed arena => some (builderEnd builder storedAlignment arena)

/-! ## Runs -/

/-- A call with the text that it writes, or a block with these bytes that is pushed by someone else. -/
inductive BuilderOp
  | joinRaw (args : List StrValue) (text : List UInt8)
  | fmtRaw (fmt : FmtInput) (text : List UInt8)
  | push (bytes : List UInt8)

/-- A block with its header, the texts that were appended to it, and the end of the last one. -/
structure BuiltBlock where
  header : Nat
  texts : List (List UInt8)
  finish : Nat

/-- The blocks, the newest first; `pushed` if anything was pushed since the last call. -/
structure BuilderRun where
  builder : StrBuilder
  blocks : List BuiltBlock
  pushed : Bool

def BuilderRun.new (arena : Arena) (arenaLastOffset : Nat) : BuilderRun :=
  ⟨⟨arena, arenaLastOffset, none, none⟩, [], false⟩

/-- The blocks behind a call that writes its text where the arena of `started` ends. -/
def BuilderRun.built (s : BuilderRun) (started : StrBuilder) (text : List UInt8) : List BuiltBlock :=
  let finish := started.arena.pos - sizeOfArena + text.length
  match s.builder.continues, s.blocks with
  | true, block :: blocks => { block with texts := block.texts ++ [text], finish } :: blocks
  | _, blocks => { header := started.lastBlock.getD 0, texts := [text], finish } :: blocks

/-- A call that faults leaves the state as it is. -/
def BuilderRun.call (s : BuilderRun) (base : Nat) (text : List UInt8) (result : Option StrBuilder) : BuilderRun :=
  match builderBlock base s.builder, result with
  | some started, some builder => { builder, blocks := s.built started text, pushed := false }
  | _, _ => s

def builderStep (base : Nat) (s : BuilderRun) : BuilderOp → BuilderRun
  | .joinRaw args text => s.call base text (strBuilderJoinRaw base s.builder args)
  | .fmtRaw fmt text => s.call base text (strBuilderFmtRaw base s.builder fmt)
  | .push bytes =>
    match memArenaPush s.builder.arena bytes.length with
    | (some off, arena) =>
      { s with
        builder := { s.builder with arena := { arena with memory := Memory.write arena.memory off bytes } }
        pushed := true }
    | (none, _) => s

def BuilderOp.IsCall : BuilderOp → Prop
  | .push _ => False
  | _ => True

/-- The call writes its text, and there is room for it and for a header. A format may fail with its text written. -/
def OpFits (s : BuilderRun) : BuilderOp → Prop
  | .joinRaw args text => ∃ peak, Writes (fun arena => args.foldlM strRecordValue arena) text peak ∧
      HasRoom s.builder.arena (sizeOfBuilderBlock + peak + 2 * (s.builder.arena.alignment - 1))
  | .fmtRaw fmt text => ∃ trace peak, fmt.loop 0 {} = some trace ∧ WritesAll trace.writes text peak ∧
      HasRoom s.builder.arena (sizeOfBuilderBlock + peak + 2 * (s.builder.arena.alignment - 1))
  | .push bytes => HasRoom s.builder.arena (bytes.length + (s.builder.arena.alignment - 1))

/-- Between its header and the end of its last text a block holds its texts and nothing else. -/
def TextsTogether (s : BuilderRun) : Prop :=
  ∀ block ∈ s.blocks, Memory.read s.builder.arena.memory (block.header + sizeOfBuilderBlock)
    (block.finish - (block.header + sizeOfBuilderBlock)) = block.texts.flatten

/-- A block goes on only if nothing else was pushed since. -/
def ContinuesAlone (s : BuilderRun) (op : BuilderOp) : Prop :=
  op.IsCall → s.builder.continues = true → s.pushed = false

structure BlockFits (s : BuilderRun) : Prop where
  /-- What was pushed since the last call ends behind what was committed then. -/
  moved : s.pushed = true → s.builder.lastBlock ≠ none → s.builder.arenaLastOffset < s.builder.arena.pos
  /-- The end of the last text was not rounded up. -/
  exact : s.builder.continues = true → ∀ block ∈ s.blocks.head?, s.builder.arena.pos - sizeOfArena = block.finish
  /-- Neither is the size of a header. -/
  header : s.builder.continues = false → takenBytes s.builder.arena sizeOfBuilderBlock = sizeOfBuilderBlock

instance (s : BuilderRun) : Decidable (BlockFits s) :=
  decidable_of_iff ((s.pushed = true → s.builder.lastBlock ≠ none → s.builder.arenaLastOffset < s.builder.arena.pos) ∧
    (s.builder.continues = true → ∀ block ∈ s.blocks.head?, s.builder.arena.pos - sizeOfArena = block.finish) ∧
    (s.builder.continues = false → takenBytes s.builder.arena sizeOfBuilderBlock = sizeOfBuilderBlock))
    ⟨fun h => ⟨h.1, h.2.1, h.2.2⟩, fun h => ⟨h.moved, h.exact, h.header⟩⟩

def CallFits (s : BuilderRun) (op : BuilderOp) : Prop := op.IsCall → BlockFits s

end CWebServer
