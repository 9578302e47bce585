import CWebServer.Lib.Memory
import Mathlib.Algebra.Order.Ring.Nat

/-!
# Words in a memory of bytes

Words of eight bytes, the least significant one first. A word that is written
reads back, and a write apart from it leaves it as it was.
-/

namespace LittleEndian

/-- The lowest `n` bytes of a number. -/
def bytes : Nat → Nat → List UInt8
  | 0, _ => []
  | n + 1, value => value.toUInt8 :: bytes n (value / 256)

def value : List UInt8 → Nat
  | [] => 0
  | b :: bs => b.toNat + 256 * value bs

@[simp] theorem length_bytes (n v : Nat) : (bytes n v).length = n := by
  induction n generalizing v with
  | zero => rfl
  | succ n ih => rw [bytes, List.length_cons, ih]

theorem value_bytes (n v : Nat) : value (bytes n v) = v % 256 ^ n := by
  induction n generalizing v with
  | zero => exact (Nat.mod_one v).symm
  | succ n ih =>
    have hlow : v.toUInt8.toNat = v % 256 := by rw [Nat.toUInt8_eq, UInt8.toNat_ofNat']
    rw [bytes, value, ih, hlow, Nat.pow_succ', Nat.mod_mul]

def readWord (m : Nat → UInt8) (off : Nat) : Nat := value (Memory.read m off 8)

def writeWord (m : Nat → UInt8) (off v : Nat) : Nat → UInt8 := Memory.write m off (bytes 8 v)

theorem readWord_writeWord (m : Nat → UInt8) (off : Nat) {v : Nat} (h : v < 2 ^ 64) :
    readWord (writeWord m off v) off = v := by
  have hread : Memory.read (Memory.write m off (bytes 8 v)) off 8 = bytes 8 v := by
    have h := Memory.read_write m off (bytes 8 v)
    rwa [length_bytes] at h
  unfold readWord writeWord
  rw [hread, value_bytes]
  exact Nat.mod_eq_of_lt h

theorem read_writeWord (m : Nat → UInt8) {off off' n : Nat} (v : Nat) (h : off + 8 ≤ off' ∨ off' + n ≤ off) :
    Memory.read (writeWord m off v) off' n = Memory.read m off' n := by
  apply Memory.read_write_apart
  rw [length_bytes]
  exact h

theorem readWord_apart (m : Nat → UInt8) {off off' : Nat} (v : Nat) (h : off + 8 ≤ off' ∨ off' + 8 ≤ off) :
    readWord (writeWord m off v) off' = readWord m off' := congrArg value (read_writeWord m v h)

theorem writeWord_apart (m : Nat → UInt8) {off i : Nat} (v : Nat) (h : off + 8 ≤ i ∨ i < off) :
    writeWord m off v i = m i := by
  apply Memory.write_apart
  rw [length_bytes]
  exact h

end LittleEndian
