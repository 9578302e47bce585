import CWebServer.Lib.Components
import CWebServer.Replace

/-!
# Fixing a path

`os_fixFilepath` is to resolve the `.` and `..` of a path. Its assertion wants
a result no shorter than the path, and its loop looks for the slash before a
`..` from that place on, so that nothing it removes passes.
-/

namespace CWebServer

open Occurrences (OccursAt count replace)

/-- The path that is handed in, and what is behind it in memory. -/
structure FixPathInput where
  path : List UInt8
  behind : Nat → UInt8

/-- The path itself, or a slice of the arena. -/
inductive PathStr
  | path
  | slice (start size : Nat)

/-- What a turn of the loop finds in a path of this size. -/
structure FixTurn where
  dotdot : Nat
  lastSlash : Nat
  size : Nat

structure FixResult where
  turns : List FixTurn
  resultPath : PathStr
  arena : Arena

namespace FixPathInput
variable (i : FixPathInput)

def byteAt (arena : Arena) (idx : Nat) : PathStr → UInt8
  | .path => i.path.getD idx (i.behind (idx - i.path.length))
  | .slice start _ => arena.memory (start + idx)

def size : PathStr → Nat
  | .path => i.path.length
  | .slice _ size => size

def read (arena : Arena) (str : PathStr) (start n : Nat) : List UInt8 :=
  (List.range n).map fun idx => i.byteAt arena (start + idx) str

def bytes (arena : Arena) (str : PathStr) : List UInt8 := i.read arena str 0 (i.size str)

/-- `memcpy(&arena->memory[dst], str.content + start, n)` -/
def copy (arena : Arena) (dst : Nat) (str : PathStr) (start n : Nat) : Arena :=
  { arena with memory := Memory.write arena.memory dst (i.read arena str start n) }

def replaceAll (arena : Arena) (str : PathStr) (replaceStr replacement : List UInt8) : Option (PathStr × Arena) := do
  let (res, arena) ← strReplaceAll arena (i.bytes arena str) replaceStr replacement
  match res with
  | .str => some (str, arena)
  | .ret block size _ => some (.slice (block.getD 0) size, arena)

/-- The loop, for fewer than `turns` turns. A copy into a `NULL` block is a fault. -/
def fixLoop : Nat → Arena → PathStr → Option (List FixTurn × PathStr × Arena)
  | 0, _, _ => none
  | turns + 1, arena, fixedPath =>
    let str := i.bytes arena fixedPath
    let size := i.size fixedPath
    let dotdot := strFindFirst str (s8 "..") 0
    if dotdot = size then some ([], fixedPath, arena)
    else
      let lastSlash := strFindLast str (s8 "/") (wrap64 (dotdot - 1))
      let range := wrap64 (dotdot + 3 - lastSlash)
      match memArenaPush arena (wrap64 (size - range)) with
      | (some off, arena) =>
        let arena := i.copy arena off fixedPath 0 lastSlash
        let arena := i.copy arena (off + lastSlash) fixedPath (dotdot + 3) (wrap64 (size - range - lastSlash + 1))
        (fixLoop turns arena (.slice off (wrap64 (size - range)))).map fun r => (⟨dotdot, lastSlash, size⟩ :: r.1, r.2)
      | (none, _) => none

def osFixFilepath (turns : Nat) (arena : Arena) : Option FixResult := do
  let scratch := memScratchStart arena
  let (resultPath, arena) := memArenaPush arena i.path.length
  let (fixedPath, arena) ← i.replaceAll arena .path (s8 "\\") (s8 "/")
  let (fixedPath, arena) ← i.replaceAll arena fixedPath (s8 "/./") (s8 "/")
  let (turns, fixedPath, arena) ← i.fixLoop turns arena fixedPath
  let size := i.size fixedPath
  -- the assertion
  if size < i.path.length then none
  else if resultPath = none ∧ 0 < size then none
  else
    let arena := i.copy arena (resultPath.getD 0) fixedPath 0 size
    let scratch := { scratch with start := scratch.start + size }
    some { turns, resultPath := .slice (resultPath.getD 0) size, arena := memScratchEnd arena scratch }

end FixPathInput

/-! ## What the call is for -/

def slashed (path : List UInt8) : List UInt8 := path.map fun c => if c = chr '\\' then chr '/' else c

def normalPath (path : List UInt8) : List UInt8 := Components.normal (chr '/') (s8 ".") (s8 "..") (slashed path)

/-- Each `..` stands behind a component. -/
def DotdotsPreceded (path : List UInt8) : Prop :=
  Components.Resolvable (s8 ".") (s8 "..") [] ((slashed path).splitOn (chr '/'))

/-- What the turn cuts out. -/
def FixTurn.range (t : FixTurn) : Nat := t.dotdot + 3 - t.lastSlash

structure FixTurn.NoUnderflow (t : FixTurn) : Prop where
  offset : 1 ≤ t.dotdot
  range : t.lastSlash ≤ t.dotdot + 3
  size : t.range ≤ t.size
  rest : t.range + t.lastSlash ≤ t.size + 1

/-- The call returns, with the normal path, and no difference in its loop was below 0. -/
structure FixesFilepath (i : FixPathInput) (r : FixResult) : Prop where
  noUnderflow : ∀ t ∈ r.turns, t.NoUnderflow
  normal : i.bytes r.arena r.resultPath = normalPath i.path
  clean : chr '\\' ∉ i.bytes r.arena r.resultPath ∧ ¬ s8 "/./" <:+: i.bytes r.arena r.resultPath ∧
    s8 ".." ∉ (i.bytes r.arena r.resultPath).splitOn (chr '/')

/-- Behind slashes in place of its backslashes the path has nothing to resolve, nor two points in a name. -/
structure PlainPath (path : List UInt8) : Prop where
  dotdot : ¬ s8 ".." <:+: slashed path
  dot : ¬ s8 "/./" <:+: slashed path
  first : ¬ s8 "./" <+: slashed path

end CWebServer
