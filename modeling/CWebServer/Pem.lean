import CWebServer.Lib.Base64
import CWebServer.Lib.Scan
import CWebServer.Str

/-!
# The certificate files

`tls_pem_decode` finds the block of a number between its lines that begin with
a dash and decodes what stands between them. A failed allocation is left out.
-/

namespace CWebServer

open Scan (scanTo)

/-! ## Base64 -/

def cd64 : List UInt8 :=
  s8 "|$$$\x7drstuvwxyz\x7b$$$$$$$>?@ABCDEFGHIJKLMNOPQRSTUVW$$$$$$XYZ[\\]^_`abcdefghijklmnopq"

/-- `v` of a character: 0 if it says nothing, else its value and 1. -/
def b64Char (c : UInt8) : UInt8 :=
  let v := if c < 43 ∨ 122 < c then 0 else cd64.getD (c.toNat - 43) 0
  if v ≠ 0 then if v = chr '$' then 0 else v - 61 else v

def privateB64Decodeblock (block : Nat → UInt8) : List UInt8 :=
  [block 0 <<< 2 ||| block 1 >>> 4, block 1 <<< 4 ||| block 2 >>> 2, ((block 2 <<< 6) &&& 0xc0) ||| block 3]

/-- The loop that reads up to a character that says something: `v` and `ptr`. `none` is a read behind the buffer. -/
def b64Next (inBuffer : List UInt8) (size ptr : Nat) : Option (UInt8 × Nat) :=
  if size < ptr then some (0, ptr)
  else
    match inBuffer[ptr]? with
    | none => none
    | some c => if b64Char c = 0 then b64Next inBuffer size (ptr + 1) else some (b64Char c, ptr + 1)
termination_by size + 1 - ptr

/-- The turns of the loop over `in` that are left: `ptr`, `in` and `len` behind them. The character at `size` ends the
loop and is not counted. -/
def b64Gather (inBuffer : List UInt8) (size : Nat) :
    Nat → Nat → (Nat → UInt8) → Nat → Option (Nat × (Nat → UInt8) × Nat)
  | 0, ptr, block, len => some (ptr, block, len)
  | left + 1, ptr, block, len =>
    if size < ptr then some (ptr, block, len)
    else do
      let (v, ptr) ← b64Next inBuffer size ptr
      if ptr ≤ size then
        let block := if v ≠ 0 then Function.update block (3 - left) (v - 1) else block
        b64Gather inBuffer size left ptr block (len + 1)
      else b64Gather inBuffer size left ptr (Function.update block (3 - left) 0) len

/-- The outer loop. `none` is a read behind the buffer, a write behind `capacity` bytes or too little fuel. -/
def b64Loop (inBuffer : List UInt8) (size capacity : Nat) : Nat → Nat → (Nat → UInt8) → List UInt8 → Option (List UInt8)
  | 0, _, _, _ => none
  | fuel + 1, ptr, block, out =>
    if size < ptr then some out
    else do
      let (ptr, block, len) ← b64Gather inBuffer size 4 ptr block 0
      let out := if len ≠ 0 then out ++ (privateB64Decodeblock block).take (len - 1) else out
      if out.length ≤ capacity then b64Loop inBuffer size capacity fuel ptr block out else none

/-- `block` is what `in` holds at the start: nothing has been stored there. -/
def privateB64Decode (block : Nat → UInt8) (inBuffer : List UInt8) (size capacity : Nat) : Option (List UInt8) :=
  b64Loop inBuffer size capacity (size + 2) 0 block []

/-! ## Blocks -/

def lineEnd (dataIn : List UInt8) (i : Nat) : Nat := scanTo (· == chr '\n') dataIn i

/-- The loop of `tls_pem_decode`, from `i` on. Nothing is decoded where no block is left. -/
def pemScan (block : Nat → UInt8) (dataIn : List UInt8) (capacity i startAt certIndex : Nat) : Option (List UInt8) :=
  if dataIn.length ≤ i then some []
  else
    let c := dataIn.getD i 0
    if c = chr '\n' ∨ c = chr '\r' then pemScan block dataIn capacity (i + 1) startAt certIndex
    else if c ≠ chr '-' then pemScan block dataIn capacity (lineEnd dataIn i + 1) startAt certIndex
    else if startAt ≠ 0 then
      if 0 < certIndex then pemScan block dataIn capacity (lineEnd dataIn i + 1) 0 (certIndex - 1)
      else privateB64Decode block (dataIn.drop startAt) (i - startAt) capacity
    else pemScan block dataIn capacity (lineEnd dataIn i + 1) (lineEnd dataIn i + 1) certIndex
termination_by dataIn.length - i
decreasing_by
  all_goals
    have : i ≤ lineEnd dataIn i := Scan.le_scanTo _ dataIn i
    omega

/-- `tls_pem_decode`: the bytes of the block. No bytes stand for `NULL`, `none` is a fault. -/
def tlsPemDecode (block : Nat → UInt8) (dataIn : List UInt8) (certIndex : Nat) : Option (List UInt8) :=
  pemScan block dataIn (dataIn.length / 4 * 3) 0 0 certIndex

/-! ## What the decoder says -/

theorem b64Char_eq (c : UInt8) : b64Char c = (Base64.value c).elim 0 fun v => UInt8.ofNat (v + 1) := by
  have hall : ∀ n : Fin 256,
      b64Char (UInt8.ofNat n) = (Base64.value (UInt8.ofNat n)).elim 0 fun v => UInt8.ofNat (v + 1) := by decide +kernel
  have := hall ⟨c.toNat, c.toNat_lt⟩
  simpa using this

theorem value_lt {c : UInt8} {v : Nat} (h : Base64.value c = some v) : v < 64 := by
  have hall : ∀ n : Fin 256, ∀ v ∈ Base64.value (UInt8.ofNat n), v < 64 := by decide +kernel
  refine hall ⟨c.toNat, c.toNat_lt⟩ v ?_
  simpa using h

end CWebServer
