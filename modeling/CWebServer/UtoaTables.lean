import CWebServer.JoinSound
import CWebServer.Wide

/-!
# The tables of `str__ufast_utoa10`

The tables as the macros of the source write them out, and the copies from
their rows to `str`. Some copies are longer than the digits of the row; the
copy behind them covers what is too much.
-/

namespace CWebServer

namespace Utoa

/-! ## The macros -/

def join (n : List UInt8) : List (List UInt8) := (List.range 10).map fun d => n ++ [digit d]

def join2 (n : List UInt8) : List (List UInt8) := (List.range 10).flatMap fun d => join (n ++ [digit d])

def join3 (n : List UInt8) : List (List UInt8) := (List.range 10).flatMap fun d => join2 (n ++ [digit d])

def join4 : List (List UInt8) := (List.range 10).flatMap fun d => join3 [digit d]

/-- `JOIN(N), JOIN(N "1"), …` -/
def join5 (n : List UInt8) : List (List UInt8) :=
  (List.range 10).flatMap fun d => join (if d = 0 then n else n ++ [digit d])

/-- `JOIN5(""), JOIN2("1"), …` -/
def join6 : List (List UInt8) := (List.range 10).flatMap fun d => if d = 0 then join5 [] else join2 [digit d]

def f (n : Nat) : Nat := if 100 ≤ n then 3 else if 10 ≤ n then 2 else 1

def f10 (n : Nat) : List Nat := (List.range 10).map fun i => f (n + i)

def f100 (n : Nat) : List Nat := (List.range 10).flatMap fun i => f10 (n + 10 * i)

/-! ## The tables -/

/-- A string literal in an array of `size` characters. -/
def row (size : Nat) (text : List UInt8) : List UInt8 := text ++ List.replicate (size - text.length) 0

def offsets : List Nat := (List.range 10).flatMap fun i => f100 (100 * i)

def table1 : List (List UInt8) := (join []).map (row 4)

def table2 : List (List UInt8) := (join2 []).map (row 4)

def table3 : List (List UInt8) := (join3 []).map (row 4)

def table4 : List (List UInt8) := join4.map (row 8)

def table5 : List (List UInt8) := join6.map (row 4)

/-- `memcpy(str, table[idx], count)`; `none` for a read behind the table or its row, or a write behind `memory`. -/
def copyRow (memory : List UInt8) (str : Nat) (table : List (List UInt8)) (idx count : Nat) : Option (List UInt8) := do
  let bytes ← table[idx]?
  if count ≤ bytes.length then writeUnits memory str (bytes.take count) else none

/-- `v2`, `remains[1]` and `remains[0]` of a value with nine digits or more. -/
def remains (x64 : Bool) (value : UInt32) : UInt32 × Nat × Nat :=
  if x64 then
    let remains0 := (value.toUInt64 * 3518437209) >>> 45
    let remains1 := (value.toUInt64 * 2882303762) >>> 58
    let v2 := remains1.toUInt32
    (v2, (remains0 - remains1 * 10000).toNat, (value.toUInt64 - remains0 * 10000).toNat)
  else
    let remains0 := value / 10000
    let remains1 := value / 100000000
    let v2 := remains1
    (v2, (remains0 - remains1 * 10000).toNat, (value - remains0 * 10000).toNat)

/-- `v2` of a value with five to eight digits. -/
def quotient (x64 : Bool) (value : UInt32) : UInt32 :=
  if x64 then ((value.toUInt64 * 3518437209) >>> 45).toUInt32 else value / 10000

end Utoa

open Utoa (remains quotient offsets copyRow)

/-- `memory` is the buffer of the caller from `str` on. The result is what it holds then and the length. -/
def strUfastUtoa10Copies (x64 : Bool) (value : UInt32) (memory : List UInt8) : Option (List UInt8 × Nat) :=
  if 100000000 ≤ value then
    let (v2, remains1, remains0) := remains x64 value
    if 10 ≤ v2 then do
      let memory ← copyRow memory 0 Utoa.table5 v2.toNat 2
      let memory ← copyRow memory 2 Utoa.table4 remains1 4
      let memory ← copyRow memory 6 Utoa.table4 remains0 4
      some (memory, 10)
    else do
      let memory ← writeUnits memory 0 [v2.toUInt8 + chr '0']
      let memory ← copyRow memory 1 Utoa.table4 remains1 4
      let memory ← copyRow memory 5 Utoa.table4 remains0 4
      some (memory, 9)
  else if 10000 ≤ value then
    let v2 := quotient x64 value
    let remains0 := value - v2 * 10000
    if 1000 ≤ v2 then do
      let memory ← copyRow memory 0 Utoa.table4 v2.toNat 4
      let memory ← copyRow memory 4 Utoa.table4 remains0.toNat 4
      some (memory, 8)
    else do
      let wstr := 0
      let memory ← copyRow memory wstr Utoa.table5 v2.toNat 4
      let offset ← offsets[v2.toNat]?
      let wstr := wstr + offset
      let memory ← copyRow memory wstr Utoa.table4 remains0.toNat 4
      let wstr := wstr + 4
      some (memory, wstr)
  else if 1000 ≤ value then do
    let memory ← copyRow memory 0 Utoa.table4 value.toNat 4
    some (memory, 4)
  else if 100 ≤ value then do
    let memory ← copyRow memory 0 Utoa.table3 value.toNat 3
    some (memory, 3)
  else if 10 ≤ value then do
    let memory ← copyRow memory 0 Utoa.table2 value.toNat 2
    some (memory, 2)
  else do
    let memory ← copyRow memory 0 Utoa.table1 value.toNat 1
    some (memory, 1)

/-! ## The rows -/

theorem flatMap_get {α β : Type} {g : α → List β} {k : Nat} (hg : ∀ a, (g a).length = k) (l : List α) (i : Nat)
    {j : Nat} (hj : j < k) : (l.flatMap g)[i * k + j]? = l[i]?.bind fun a => (g a)[j]? := by
  induction l generalizing i with
  | nil => rfl
  | cons a l ih =>
    rw [List.flatMap_cons]
    cases i with
    | zero =>
      rw [Nat.zero_mul, Nat.zero_add, List.getElem?_append_left (by rw [hg]; exact hj)]
      rfl
    | succ i =>
      have hidx : (i + 1) * k + j = k + (i * k + j) := by
        rw [Nat.succ_mul]
        omega
      rw [hidx, List.getElem?_append_right (by rw [hg]; exact Nat.le_add_right _ _), hg, Nat.add_sub_cancel_left, ih i]
      rfl

namespace Utoa

theorem blocks_get {β : Type} {g : Nat → List β} {k : Nat} (hg : ∀ d, (g d).length = k) {n : Nat} (hn : n < 10 * k) :
    ((List.range 10).flatMap g)[n]? = (g (n / k))[n % k]? := by
  have hk : 0 < k := by omega
  have hidx : n / k * k + n % k = n := Nat.div_add_mod' n k
  have hdiv : n / k < 10 := Nat.div_lt_of_lt_mul (by rwa [Nat.mul_comm])
  have hget := flatMap_get hg (List.range 10) (n / k) (Nat.mod_lt n hk)
  rw [hidx, List.getElem?_range hdiv] at hget
  exact hget

theorem join_get (n : List UInt8) {d : Nat} (hd : d < 10) : (join n)[d]? = some (n ++ [digit d]) := by
  unfold join
  rw [List.getElem?_map, List.getElem?_range hd]
  rfl

theorem join_length (n : List UInt8) : (join n).length = 10 := by
  unfold join
  rw [List.length_map, List.length_range]

theorem blocks_length {β : Type} {g : Nat → List β} {k : Nat} (hg : ∀ d, (g d).length = k) :
    ((List.range 10).flatMap g).length = 10 * k := by
  rw [List.length_flatMap, List.map_congr_left fun d _ => hg d]
  simp
  omega

theorem join2_length (n : List UInt8) : (join2 n).length = 100 := blocks_length fun _ => join_length _

theorem join3_length (n : List UInt8) : (join3 n).length = 1000 := blocks_length fun _ => join2_length _

theorem join5_length (n : List UInt8) : (join5 n).length = 100 := blocks_length fun _ => join_length _

theorem join2_get (n : List UInt8) {v : Nat} (hv : v < 100) : (join2 n)[v]? = some (n ++ CWebServer.table2 v) := by
  unfold join2
  rw [blocks_get (fun _ => join_length _) hv, join_get _ (Nat.mod_lt v (by decide)), List.append_assoc]
  rfl

theorem join3_get (n : List UInt8) {v : Nat} (hv : v < 1000) : (join3 n)[v]? = some (n ++ CWebServer.table3 v) := by
  unfold join3
  rw [blocks_get (fun _ => join2_length _) hv, join2_get _ (Nat.mod_lt v (by decide)), List.append_assoc]
  rfl

theorem join4_get {v : Nat} (hv : v < 10000) : join4[v]? = some (CWebServer.table4 v) := by
  unfold join4
  rw [blocks_get (fun _ => join3_length _) hv, join3_get _ (Nat.mod_lt v (by decide))]
  rfl

theorem join6_get {v : Nat} (hv : v < 1000) : join6[v]? = some (CWebServer.table5 v) := by
  have hlen : ∀ d, (if d = 0 then join5 [] else join2 [digit d]).length = 100 := by
    intro d
    by_cases hd : d = 0
    · rw [if_pos hd, join5_length]
    · rw [if_neg hd, join2_length]
  unfold join6 CWebServer.table5
  rw [blocks_get hlen hv]
  by_cases h100 : 100 ≤ v
  · have hd : v / 100 ≠ 0 := by omega
    rw [if_pos h100, if_neg hd, join2_get _ (Nat.mod_lt v (by decide))]
    rfl
  · have hd : v / 100 = 0 := by omega
    have hmod : v % 100 = v := by omega
    unfold join5
    rw [if_neg h100, if_pos hd, hmod, blocks_get (fun _ => join_length _) (by omega),
      join_get _ (Nat.mod_lt v (by decide))]
    by_cases h10 : 10 ≤ v
    · have hd : v / 10 ≠ 0 := by omega
      rw [if_pos h10, if_neg hd]
      rfl
    · have hd : v / 10 = 0 := by omega
      have hmod : v % 10 = v := by omega
      rw [if_neg h10, if_pos hd, hmod]
      rfl

theorem f10_length (n : Nat) : (f10 n).length = 10 := by
  unfold f10
  rw [List.length_map, List.length_range]

theorem f100_length (n : Nat) : (f100 n).length = 100 := blocks_length fun _ => f10_length _

theorem offsets_get {v : Nat} (hv : v < 1000) : offsets[v]? = some (CWebServer.table5 v).length := by
  unfold offsets
  rw [blocks_get (fun _ => f100_length _) hv]
  unfold f100
  rw [blocks_get (fun _ => f10_length _) (Nat.mod_lt v (by decide))]
  unfold f10
  rw [List.getElem?_map, List.getElem?_range (Nat.mod_lt _ (by decide)), Option.map_some]
  have hsum : 100 * (v / 100) + 10 * (v % 100 / 10) + v % 100 % 10 = v := by omega
  rw [hsum]
  unfold f CWebServer.table5
  by_cases h100 : 100 ≤ v
  · rw [if_pos h100, if_pos h100]
    rfl
  · by_cases h10 : 10 ≤ v
    · rw [if_neg h100, if_neg h100, if_pos h10, if_pos h10]
      rfl
    · rw [if_neg h100, if_neg h100, if_neg h10, if_neg h10]
      rfl

/-- The buffer with the first bytes written. -/
def written (done str : List UInt8) : List UInt8 := done ++ str.drop done.length

theorem write_behind {done units str : List UInt8} (h : done.length + units.length ≤ str.length) :
    writeUnits (written done str) done.length units = some (written (done ++ units) str) := by
  have hlen : done.length + units.length ≤ (written done str).length := by
    unfold written
    rw [List.length_append, List.length_drop]
    omega
  unfold writeUnits
  rw [if_pos hlen]
  unfold written
  rw [List.take_left, ← List.drop_drop, List.drop_left, List.drop_drop, List.length_append]

theorem write_first {units str : List UInt8} (h : units.length ≤ str.length) :
    writeUnits str 0 units = some (written units str) := by
  have hwrite : writeUnits (written [] str) 0 units = some (written ([] ++ units) str) :=
    write_behind (by rwa [List.length_nil, Nat.zero_add])
  exact hwrite

theorem row_length (size : Nat) (text : List UInt8) (h : text.length ≤ size) : (row size text).length = size := by
  unfold row
  rw [List.length_append, List.length_replicate]
  omega

theorem copyRow_text {table : List (List UInt8)} {idx : Nat} {text rest : List UInt8}
    (hrow : table[idx]? = some (text ++ rest)) (memory : List UInt8) (str : Nat) :
    copyRow memory str table idx text.length = writeUnits memory str text := by
  have hle : text.length ≤ (text ++ rest).length := by
    rw [List.length_append]
    exact Nat.le_add_right _ _
  unfold copyRow
  rw [hrow, Option.bind_eq_bind, Option.bind_some, if_pos hle, List.take_left]

theorem map_get {texts : List (List UInt8)} {v : Nat} {text : List UInt8} (h : texts[v]? = some text) (size : Nat) :
    (texts.map (row size))[v]? = some (row size text) := by
  rw [List.getElem?_map, h]
  rfl

theorem copyRow_behind {table : List (List UInt8)} {idx size : Nat} {done text str : List UInt8}
    (hrow : table[idx]? = some (row size text)) (hroom : done.length + text.length ≤ str.length) {m n : Nat}
    (hm : m = done.length) (hn : n = text.length) :
    copyRow (written done str) m table idx n = some (written (done ++ text) str) := by
  subst hm hn
  rw [copyRow_text hrow, write_behind hroom]

theorem copyRow_first {table : List (List UInt8)} {idx size : Nat} {text : List UInt8}
    (hrow : table[idx]? = some (row size text)) {str : List UInt8} (hroom : text.length ≤ str.length) {n : Nat}
    (hn : n = text.length) :
    copyRow str 0 table idx n = some (written text str) := by
  subst hn
  rw [copyRow_text hrow, write_first hroom]

theorem table5_length (v : Nat) : 1 ≤ (CWebServer.table5 v).length ∧ (CWebServer.table5 v).length ≤ 3 := by
  unfold CWebServer.table5
  by_cases h100 : 100 ≤ v
  · rw [if_pos h100, show (CWebServer.table3 v).length = 3 from rfl]
    decide
  · by_cases h10 : 10 ≤ v
    · rw [if_neg h100, if_pos h10, show (CWebServer.table2 v).length = 2 from rfl]
      decide
    · rw [if_neg h100, if_neg h10, List.length_singleton]
      decide

theorem written_drop (done str : List UInt8) (n : Nat) :
    (written done str).drop (done.length + n) = str.drop (done.length + n) := by
  unfold written
  rw [← List.drop_drop, List.drop_left, List.drop_drop]

/-- Four bytes of a row with less digits, and four digits that cover the rest of them. -/
theorem copyRow_cover {idx v : Nat} {str : List UInt8} (hidx : idx < 1000) (hv : v < 10000) (hroom : 10 ≤ str.length) :
    ∃ memory, copyRow str 0 table5 idx 4 = some memory ∧
      copyRow memory (CWebServer.table5 idx).length table4 v 4 =
        some (written (CWebServer.table5 idx ++ CWebServer.table4 v) str) := by
  obtain ⟨hpos, hle⟩ := table5_length idx
  generalize htext : CWebServer.table5 idx = text at hpos hle
  have hlen : (row 4 text).length = 4 := row_length 4 text (by omega)
  have hrow : table5[idx]? = some (row 4 text ++ []) := by
    rw [List.append_nil, ← htext]
    exact map_get (join6_get hidx) 4
  refine ⟨written (row 4 text) str, ?_, ?_⟩
  · have hcopy := copyRow_text hrow str 0
    rw [hlen] at hcopy
    rw [hcopy, write_first (by omega)]
  · have hroom' : text.length + (CWebServer.table4 v).length ≤ (written (row 4 text) str).length := by
      unfold written
      rw [List.length_append, List.length_drop, hlen, show (CWebServer.table4 v).length = 4 from rfl]
      omega
    have htake : (written (row 4 text) str).take text.length = text := by
      unfold written row
      rw [List.append_assoc, List.take_left]
    have hdrop : (written (row 4 text) str).drop (text.length + 4) = str.drop (text.length + 4) := by
      have hbehind := written_drop (row 4 text) str text.length
      rwa [hlen, Nat.add_comm] at hbehind
    have hcopy := copyRow_text (map_get (join4_get hv) 8) (written (row 4 text) str) text.length
    have hfour : (CWebServer.table4 v).length = 4 := rfl
    rw [hfour] at hcopy hroom'
    unfold table4
    rw [hcopy]
    unfold writeUnits
    rw [hfour, if_pos hroom', htake, hdrop]
    unfold written
    rw [List.length_append, hfour]

/-! ## The quotients -/

theorem quotient_10000 (value : UInt32) :
    ((value.toUInt64 * 3518437209) >>> 45).toNat = value.toNat / 10000 := by
  have hv := value.toNat_lt
  have hmul : value.toNat * 3518437209 < 2 ^ 64 := by omega
  rw [UInt64.toNat_shiftRight, UInt64.toNat_mul, UInt32.toNat_toUInt64]
  rw [show (3518437209 : UInt64).toNat = 3518437209 from rfl, show (45 : UInt64).toNat % 64 = 45 from rfl,
    Nat.mod_eq_of_lt hmul, Nat.shiftRight_eq_div_pow, div_10000 hv]

theorem quotient_100000000 (value : UInt32) :
    ((value.toUInt64 * 2882303762) >>> 58).toNat = value.toNat / 100000000 := by
  have hv := value.toNat_lt
  have hmul : value.toNat * 2882303762 < 2 ^ 64 := by omega
  rw [UInt64.toNat_shiftRight, UInt64.toNat_mul, UInt32.toNat_toUInt64]
  rw [show (2882303762 : UInt64).toNat = 2882303762 from rfl, show (58 : UInt64).toNat % 64 = 58 from rfl,
    Nat.mod_eq_of_lt hmul, Nat.shiftRight_eq_div_pow, div_100000000 hv]

theorem remains_eq (x64 : Bool) (value : UInt32) :
    (remains x64 value).1.toNat = value.toNat / 100000000 ∧
      (remains x64 value).2.1 = value.toNat / 10000 - value.toNat / 100000000 * 10000 ∧
      (remains x64 value).2.2 = value.toNat - value.toNat / 10000 * 10000 := by
  have hv := value.toNat_lt
  cases x64 with
  | true =>
    have h0 := quotient_10000 value
    have h1 := quotient_100000000 value
    unfold remains
    rw [if_pos rfl]
    dsimp only
    generalize (value.toUInt64 * 3518437209) >>> 45 = remains0 at h0
    generalize (value.toUInt64 * 2882303762) >>> 58 = remains1 at h1
    refine ⟨?_, ?_, ?_⟩
    · rw [UInt64.toNat_toUInt32, h1]
      omega
    · rw [UInt64.toNat_sub, UInt64.toNat_mul, h0, h1, show (10000 : UInt64).toNat = 10000 from rfl]
      omega
    · rw [UInt64.toNat_sub, UInt64.toNat_mul, h0, UInt32.toNat_toUInt64, show (10000 : UInt64).toNat = 10000 from rfl]
      omega
  | false =>
    unfold remains
    rw [if_neg Bool.false_ne_true]
    dsimp only
    refine ⟨?_, ?_, ?_⟩
    · exact UInt32.toNat_div value 100000000
    · rw [UInt32.toNat_sub, UInt32.toNat_mul, UInt32.toNat_div, UInt32.toNat_div,
        show (10000 : UInt32).toNat = 10000 from rfl, show (100000000 : UInt32).toNat = 100000000 from rfl]
      omega
    · rw [UInt32.toNat_sub, UInt32.toNat_mul, UInt32.toNat_div, show (10000 : UInt32).toNat = 10000 from rfl]
      omega

theorem quotient_eq (x64 : Bool) (value : UInt32) : (quotient x64 value).toNat = value.toNat / 10000 := by
  have hv := value.toNat_lt
  unfold quotient
  cases x64 with
  | true =>
    rw [if_pos rfl, UInt64.toNat_toUInt32, quotient_10000]
    omega
  | false =>
    rw [if_neg Bool.false_ne_true]
    exact UInt32.toNat_div value 10000

theorem toNat_le_iff {n : Nat} (hn : n < 2 ^ 32) (value : UInt32) : n.toUInt32 ≤ value ↔ n ≤ value.toNat := by
  rw [UInt32.le_iff_toNat_le, Nat.toUInt32_eq, UInt32.toNat_ofNat', Nat.mod_eq_of_lt hn]

theorem table4_row {v : Nat} (hv : v < 10000) : table4[v]? = some (row 8 (CWebServer.table4 v)) :=
  map_get (join4_get hv) 8

theorem table5_row {v : Nat} (hv : v < 1000) : table5[v]? = some (row 4 (CWebServer.table5 v)) :=
  map_get (join6_get hv) 4

/-- The digits of `value` are all that is written. -/
def WritesDecimal (x64 : Bool) (value : UInt32) (str : List UInt8) : Prop :=
  strUfastUtoa10Copies x64 value str = some (written (decimal value.toNat) str, (decimal value.toNat).length)

section
variable (x64 : Bool) {value : UInt32} {str : List UInt8} (hroom : 10 ≤ str.length)

include hroom

/-- Eight digits behind those that are written. -/
theorem copy_eight {done : List UInt8} {v w m : Nat} (hv : v < 10000) (hw : w < 10000) (hdone : done.length ≤ 2)
    (hm : m = done.length) :
    ∃ memory, copyRow (written done str) m table4 v 4 = some memory ∧ copyRow memory (m + 4) table4 w 4 =
      some (written (done ++ (CWebServer.table4 v ++ CWebServer.table4 w)) str) := by
  have hfour : ∀ u, (CWebServer.table4 u).length = 4 := fun u => rfl
  refine ⟨_, copyRow_behind (table4_row hv) ?_ hm rfl, ?_⟩
  · rw [hfour]
    omega
  · have hroom' : (done ++ CWebServer.table4 v).length + (CWebServer.table4 w).length ≤ str.length := by
      rw [List.length_append, hfour, hfour]
      omega
    have hend : m + 4 = (done ++ CWebServer.table4 v).length := by rw [List.length_append, hfour, hm]
    have hcopy := copyRow_behind (table4_row hw) hroom' hend (show 4 = _ from rfl)
    rwa [List.append_assoc] at hcopy

theorem writes_nine (h : 100000000 ≤ value.toNat) : WritesDecimal x64 value str := by
  have hv := value.toNat_lt
  have hle : 100000000 ≤ value := (toNat_le_iff (by decide) value).mpr h
  obtain ⟨h2, h1, h0⟩ := remains_eq x64 value
  unfold WritesDecimal strUfastUtoa10Copies
  rw [if_pos hle, decimal_low_low h, ← h0, ← h1, ← h2]
  generalize remains x64 value = r at h2 h1 h0
  obtain ⟨v2, remains1, remains0⟩ := r
  dsimp only at h2 h1 h0 ⊢
  by_cases h10 : 10 ≤ v2.toNat
  · have hle10 : 10 ≤ v2 := (toNat_le_iff (by decide) v2).mpr h10
    have htwo : CWebServer.table2 v2.toNat = decimal v2.toNat := table2_eq h10 (by omega)
    have hrow : table5[v2.toNat]? = some (row 4 (CWebServer.table2 v2.toNat)) := by
      rw [table5_row (by omega), table5_eq (by omega), htwo]
    have hfirst := copyRow_first hrow (show 2 ≤ str.length by omega) (show 2 = _ from rfl)
    have hlen : (CWebServer.table2 v2.toNat).length = 2 := rfl
    obtain ⟨memory, hsecond, hthird⟩ := copy_eight hroom (show remains1 < 10000 by omega)
      (show remains0 < 10000 by omega) (Nat.le_of_eq hlen) (show 2 = _ from hlen.symm)
    rw [if_pos hle10, ← htwo]
    simp only [hfirst, Option.bind_eq_bind, Option.bind_some, hsecond, hthird]
    rfl
  · have hlt10 : ¬ 10 ≤ v2 := fun hle10 => h10 ((toNat_le_iff (by decide) v2).mp hle10)
    have hone : [v2.toUInt8 + chr '0'] = decimal v2.toNat := by
      rw [decimal_of_lt (Nat.lt_of_not_le h10), List.singleton_inj, ← UInt8.toNat_inj]
      unfold digit
      rw [UInt8.toNat_add, UInt32.toNat_toUInt8, Nat.toUInt8_eq, UInt8.toNat_ofNat', show (chr '0').toNat = 48 from rfl]
      omega
    have hlen : [v2.toUInt8 + chr '0'].length = 1 := rfl
    have hfirst := write_first (show [v2.toUInt8 + chr '0'].length ≤ str.length by omega)
    obtain ⟨memory, hsecond, hthird⟩ := copy_eight hroom (show remains1 < 10000 by omega)
      (show remains0 < 10000 by omega) (show [v2.toUInt8 + chr '0'].length ≤ 2 by omega) (show 1 = _ from rfl)
    rw [if_neg hlt10, ← hone]
    simp only [hfirst, Option.bind_eq_bind, Option.bind_some, hsecond, hthird]
    rfl

theorem writes_five (h : 10000 ≤ value.toNat) (hlt : value.toNat < 100000000) : WritesDecimal x64 value str := by
  have hlt8 : ¬ 100000000 ≤ value := fun hle => absurd ((toNat_le_iff (by decide) value).mp hle) (Nat.not_le.mpr hlt)
  have hle : 10000 ≤ value := (toNat_le_iff (by decide) value).mpr h
  have h2 := quotient_eq x64 value
  have h0 : (value - quotient x64 value * 10000).toNat = value.toNat - value.toNat / 10000 * 10000 := by
    have hv := value.toNat_lt
    rw [UInt32.toNat_sub, UInt32.toNat_mul, h2, show (10000 : UInt32).toNat = 10000 from rfl]
    omega
  unfold WritesDecimal strUfastUtoa10Copies
  rw [if_neg hlt8, if_pos hle, decimal_low h, ← h0, ← h2]
  generalize quotient x64 value = v2 at h2 h0
  dsimp only
  generalize (value - v2 * 10000).toNat = remains0 at h0
  have hlow : remains0 < 10000 := by omega
  by_cases h1000 : 1000 ≤ v2.toNat
  · have hle1000 : 1000 ≤ v2 := (toNat_le_iff (by decide) v2).mpr h1000
    have htext : CWebServer.table4 v2.toNat = decimal v2.toNat := table4_eq h1000 (by omega)
    have hfirst := copyRow_first (table4_row (show v2.toNat < 10000 by omega))
      (show 4 ≤ str.length by omega) (show 4 = _ from rfl)
    have hbehind : (CWebServer.table4 v2.toNat).length + (CWebServer.table4 remains0).length ≤ str.length := by
      show 4 + 4 ≤ str.length
      omega
    have hsecond := copyRow_behind (table4_row hlow) hbehind (show 4 = _ from rfl) (show 4 = _ from rfl)
    rw [if_pos hle1000, ← htext]
    simp only [hfirst, Option.bind_eq_bind, Option.bind_some, hsecond]
    rfl
  · have hlt1000 : ¬ 1000 ≤ v2 := fun hle => h1000 ((toNat_le_iff (by decide) v2).mp hle)
    have hidx := Nat.lt_of_not_le h1000
    obtain ⟨memory, hfirst, hsecond⟩ := copyRow_cover hidx hlow hroom
    rw [if_neg hlt1000, ← table5_eq hidx, List.length_append]
    simp only [hfirst, Option.bind_eq_bind, Option.bind_some, offsets_get hidx, Nat.zero_add, hsecond]
    rfl

theorem writes_one (h : value.toNat < 10000) : WritesDecimal x64 value str := by
  have hle_iff : ∀ n < 2 ^ 32, n.toUInt32 ≤ value ↔ n ≤ value.toNat := fun n hn => toNat_le_iff hn value
  have hlt8 : ¬ 100000000 ≤ value := fun hle => absurd ((hle_iff 100000000 (by decide)).mp hle) (by omega)
  have hlt5 : ¬ 10000 ≤ value := fun hle => absurd ((hle_iff 10000 (by decide)).mp hle) (by omega)
  unfold WritesDecimal strUfastUtoa10Copies
  rw [if_neg hlt8, if_neg hlt5]
  by_cases h1000 : 1000 ≤ value.toNat
  · have hle : 1000 ≤ value := (hle_iff 1000 (by decide)).mpr h1000
    have hcopy := copyRow_first (table4_row h) (show 4 ≤ str.length by omega) (show 4 = _ from rfl)
    rw [if_pos hle, ← table4_eq h1000 h, hcopy]
    rfl
  · have hlt4 : ¬ 1000 ≤ value := fun hle => h1000 ((hle_iff 1000 (by decide)).mp hle)
    rw [if_neg hlt4]
    by_cases h100 : 100 ≤ value.toNat
    · have hle : 100 ≤ value := (hle_iff 100 (by decide)).mpr h100
      have hrow := map_get (join3_get [] (Nat.lt_of_not_le h1000)) 4
      have hcopy := copyRow_first hrow (show 3 ≤ str.length by omega) (show 3 = _ from rfl)
      rw [if_pos hle, ← table3_eq h100 (Nat.lt_of_not_le h1000)]
      unfold table3
      rw [hcopy]
      rfl
    · have hlt3 : ¬ 100 ≤ value := fun hle => h100 ((hle_iff 100 (by decide)).mp hle)
      rw [if_neg hlt3]
      by_cases h10 : 10 ≤ value.toNat
      · have hle : 10 ≤ value := (hle_iff 10 (by decide)).mpr h10
        have hrow := map_get (join2_get [] (Nat.lt_of_not_le h100)) 4
        have hcopy := copyRow_first hrow (show 2 ≤ str.length by omega) (show 2 = _ from rfl)
        rw [if_pos hle, ← table2_eq h10 (Nat.lt_of_not_le h100)]
        unfold table2
        rw [hcopy]
        rfl
      · have hlt2 : ¬ 10 ≤ value := fun hle => h10 ((hle_iff 10 (by decide)).mp hle)
        have hrow := map_get (join_get [] (Nat.lt_of_not_le h10)) 4
        have hcopy := copyRow_first hrow (show 1 ≤ str.length by omega) (show 1 = _ from rfl)
        rw [if_neg hlt2, decimal_of_lt (Nat.lt_of_not_le h10)]
        unfold table1
        rw [hcopy]
        rfl

theorem writesDecimal : WritesDecimal x64 value str := by
  by_cases h5 : 10000 ≤ value.toNat
  · by_cases h9 : 100000000 ≤ value.toNat
    · exact writes_nine x64 hroom h9
    · exact writes_five x64 hroom h5 (Nat.lt_of_not_le h9)
  · exact writes_one x64 hroom (Nat.lt_of_not_le h5)

end

end Utoa

/-- Both variants write the numeral, at most ten bytes, and `str_recordU64` the same. -/
theorem strUfastUtoa10_decimal (x64 : Bool) (value : UInt32) (str : List UInt8) (hroom : 10 ≤ str.length) :
    strUfastUtoa10Copies x64 value str =
        some (decimal value.toNat ++ str.drop (decimal value.toNat).length, (decimal value.toNat).length) ∧
      (decimal value.toNat).length ≤ 10 ∧ Emits (strRecordU64 · value.toNat false) (decimal value.toNat) := by
  refine ⟨Utoa.writesDecimal x64 hroom, decimal_length_le (by decide) ?_, ?_⟩
  · exact Nat.lt_trans value.toNat_lt (by decide)
  · have hexact : Exact _ (strRecordU64 · value.toNat false) _ _ := exact_u64 false (Nat.le_refl _)
    have hrun := hexact.run
    rw [signText, if_neg Bool.false_ne_true, List.length_nil, Nat.zero_add, List.nil_append] at hrun
    exact hrun

theorem strUfastUtoa10_decimal_five :
    strUfastUtoa10Copies true 12345 (List.replicate 10 0) = some (s8 "12345" ++ List.replicate 5 0, 5) :=
  (strUfastUtoa10_decimal true 12345 (List.replicate 10 0) (by decide)).1

end CWebServer
