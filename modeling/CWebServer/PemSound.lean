import CWebServer.Pem

/-!
# What the decoder of the certificate files returns

The decoder reads no byte behind the file and writes none behind its buffer,
whatever the file is. Every block of a file is found under its number and
decoded to the bytes that were encoded.
-/

namespace CWebServer

open Base64 (values)

/-! ## Characters -/

theorem b64Char_none {c : UInt8} (h : Base64.value c = none) : b64Char c = 0 := by rw [b64Char_eq, h]; rfl

theorem b64Char_some {c : UInt8} {v : Nat} (h : Base64.value c = some v) : b64Char c = UInt8.ofNat (v + 1) := by
  rw [b64Char_eq, h]
  rfl

theorem ofNat_succ_ne {v : Nat} (h : v < 64) : UInt8.ofNat (v + 1) ≠ 0 := by
  intro heq
  have hnat := congrArg UInt8.toNat heq
  rw [UInt8.toNat_ofNat_of_lt' (by show v + 1 < 256; omega)] at hnat
  exact Nat.succ_ne_zero v hnat

theorem ofNat_succ_sub (v : Nat) : UInt8.ofNat (v + 1) - 1 = UInt8.ofNat v := by
  rw [UInt8.ofNat_add]
  exact UInt8.add_sub_cancel _ _

theorem values_lt {text : List UInt8} : ∀ v ∈ values text, v < 64 := by
  intro v hv
  obtain ⟨c, _, hc⟩ := List.mem_filterMap.mp hv
  exact value_lt hc

section
variable {inBuffer : List UInt8} {size : Nat} (hsize : size < inBuffer.length)

/-- The text that is decoded, from `ptr` on. -/
def textFrom (inBuffer : List UInt8) (size ptr : Nat) : List UInt8 := (inBuffer.take size).drop ptr

theorem textFrom_end (inBuffer : List UInt8) {size ptr : Nat} (h : size ≤ ptr) : textFrom inBuffer size ptr = [] := by
  rw [textFrom, List.drop_eq_nil_of_le]
  rw [List.length_take]
  omega

theorem values_end (inBuffer : List UInt8) (size : Nat) : values (textFrom inBuffer size (size + 1)) = [] := by
  rw [textFrom_end inBuffer (Nat.le_succ size)]
  rfl

theorem b64Next_skip {ptr : Nat} (h : ptr ≤ size) {c : UInt8} (hc : inBuffer[ptr]? = some c)
    (hvalue : Base64.value c = none) : b64Next inBuffer size ptr = b64Next inBuffer size (ptr + 1) := by
  rw [b64Next, if_neg (Nat.not_lt.mpr h), hc]
  simp only [if_pos (b64Char_none hvalue)]

/-- From `ptr` to `p` the next `left` values were stored behind those that `in` had, or all that were there. -/
structure Gathered (inBuffer : List UInt8) (size left ptr : Nat) (block : Nat → UInt8) (p : Nat)
    (block' : Nat → UInt8) : Prop where
  le : ptr ≤ p
  bound : p ≤ size + 1
  progress : ptr ≤ size → left ≠ 0 → ptr < p
  rest : values (textFrom inBuffer size p) = (values (textFrom inBuffer size ptr)).drop left
  last : (values (textFrom inBuffer size ptr)).length < left → p = size + 1
  kept : ∀ k, k < 4 - left → block' k = block k
  stored : ∀ k v, k < left → (values (textFrom inBuffer size ptr))[k]? = some v → block' (4 - left + k) = UInt8.ofNat v

theorem gathered_none {left : Nat} {block : Nat → UInt8} :
    Gathered inBuffer size left (size + 1) block (size + 1) block where
  le := Nat.le_refl _
  bound := Nat.le_refl _
  progress h := absurd h (Nat.not_succ_le_self size)
  rest := by rw [values_end, List.drop_nil]
  last _ := rfl
  kept _ _ := rfl
  stored k v _ hk := by rw [values_end] at hk; cases hk

/-- The bytes of four values, checked for every pair. -/
theorem group_bytes : ∀ x y : Fin 64,
    UInt8.ofNat x <<< 2 ||| UInt8.ofNat y >>> 4 = UInt8.ofNat (x * 4 + y / 16) ∧
      UInt8.ofNat x <<< 4 ||| UInt8.ofNat y >>> 2 = UInt8.ofNat (x % 16 * 16 + y / 4) ∧
      ((UInt8.ofNat x <<< 6) &&& 0xc0) ||| UInt8.ofNat y = UInt8.ofNat (x % 4 * 64 + y) := by
  decide +kernel

theorem pair_bytes {x y : Nat} (hx : x < 64) (hy : y < 64) :
    UInt8.ofNat x <<< 2 ||| UInt8.ofNat y >>> 4 = UInt8.ofNat (x * 4 + y / 16) ∧
      UInt8.ofNat x <<< 4 ||| UInt8.ofNat y >>> 2 = UInt8.ofNat (x % 16 * 16 + y / 4) ∧
      ((UInt8.ofNat x <<< 6) &&& 0xc0) ||| UInt8.ofNat y = UInt8.ofNat (x % 4 * 64 + y) :=
  group_bytes ⟨x, hx⟩ ⟨y, hy⟩

/-- What a turn of the outer loop writes: what is stored behind the counted values is not looked at. -/
theorem group_out {ptr p : Nat} {block block' : Nat → UInt8} (h : Gathered inBuffer size 4 ptr block p block')
    (out : List UInt8) :
    (if min 4 (values (textFrom inBuffer size ptr)).length ≠ 0 then
        out ++ (privateB64Decodeblock block').take (min 4 (values (textFrom inBuffer size ptr)).length - 1) else out) =
      out ++ Base64.toBytes ((values (textFrom inBuffer size ptr)).take 4) := by
  have hstored := h.stored
  have hlt := @values_lt (textFrom inBuffer size ptr)
  generalize values (textFrom inBuffer size ptr) = vs at hstored hlt
  match vs with
  | [] => simp [Base64.toBytes]
  | [w] => simp [Base64.toBytes]
  | [w, x] =>
    have hw : block' 0 = UInt8.ofNat w := hstored 0 w (by decide) rfl
    have hx : block' 1 = UInt8.ofNat x := hstored 1 x (by decide) rfl
    have hpair := pair_bytes (hlt w (by simp)) (hlt x (by simp))
    simp [Base64.toBytes, privateB64Decodeblock, hw, hx, hpair]
  | [w, x, y] =>
    have hw : block' 0 = UInt8.ofNat w := hstored 0 w (by decide) rfl
    have hx : block' 1 = UInt8.ofNat x := hstored 1 x (by decide) rfl
    have hy : block' 2 = UInt8.ofNat y := hstored 2 y (by decide) rfl
    have hfirst := pair_bytes (hlt w (by simp)) (hlt x (by simp))
    have hsecond := pair_bytes (hlt x (by simp)) (hlt y (by simp))
    simp [Base64.toBytes, privateB64Decodeblock, hw, hx, hy, hfirst, hsecond]
  | w :: x :: y :: z :: rest =>
    have hw : block' 0 = UInt8.ofNat w := hstored 0 w (by decide) rfl
    have hx : block' 1 = UInt8.ofNat x := hstored 1 x (by decide) rfl
    have hy : block' 2 = UInt8.ofNat y := hstored 2 y (by decide) rfl
    have hz : block' 3 = UInt8.ofNat z := hstored 3 z (by decide) rfl
    have hfirst := pair_bytes (hlt w (by simp)) (hlt x (by simp))
    have hsecond := pair_bytes (hlt x (by simp)) (hlt y (by simp))
    have hthird := pair_bytes (hlt y (by simp)) (hlt z (by simp))
    simp [Base64.toBytes, privateB64Decodeblock, hw, hx, hy, hz, hfirst, hsecond, hthird]

/-! ## The loops -/

include hsize

theorem textFrom_cons {ptr : Nat} (h : ptr < size) {c : UInt8} (hc : inBuffer[ptr]? = some c) :
    textFrom inBuffer size ptr = c :: textFrom inBuffer size (ptr + 1) := by
  have hlt : ptr < (inBuffer.take size).length := by rw [List.length_take]; omega
  rw [textFrom, List.drop_eq_getElem_cons hlt, List.getElem_take]
  have := List.getElem?_eq_some_iff.mp hc
  obtain ⟨_, rfl⟩ := this
  rfl

theorem values_skip {ptr : Nat} (h : ptr < size) {c : UInt8} (hc : inBuffer[ptr]? = some c)
    (hvalue : Base64.value c = none) : values (textFrom inBuffer size (ptr + 1)) = values (textFrom inBuffer size ptr) := by
  rw [textFrom_cons hsize h hc, Base64.values_cons_none hvalue]

/-- Where nothing is said any more, the character at `size` is read too. -/
theorem b64Next_end (ptr : Nat) (hptr : ptr ≤ size + 1) (h : values (textFrom inBuffer size ptr) = []) :
    ∃ v, b64Next inBuffer size ptr = some (v, size + 1) := by
  induction hn : size + 1 - ptr generalizing ptr with
  | zero =>
    obtain rfl : ptr = size + 1 := by omega
    exact ⟨0, by rw [b64Next, if_pos (Nat.lt_succ_self size)]⟩
  | succ n ih =>
    have hget : inBuffer[ptr]? = some inBuffer[ptr] := List.getElem?_eq_getElem (by omega)
    cases hvalue : Base64.value inBuffer[ptr] with
    | none =>
      rw [b64Next_skip (by omega) hget hvalue]
      refine ih (ptr + 1) (by omega) ?_ (by omega)
      by_cases hlt : ptr < size
      · rw [values_skip hsize hlt hget hvalue, h]
      · rw [textFrom_end inBuffer (by omega)]
        rfl
    | some v =>
      have hend : ptr = size := by
        by_contra hne
        rw [textFrom_cons hsize (by omega) hget, Base64.values_cons_some hvalue] at h
        cases h
      subst hend
      refine ⟨UInt8.ofNat (v + 1), ?_⟩
      rw [b64Next, if_neg (Nat.lt_irrefl ptr), hget]
      simp only [b64Char_some hvalue, if_neg (ofNat_succ_ne (value_lt hvalue))]

theorem b64Next_value (ptr : Nat) {v : Nat} {vs : List Nat} (h : values (textFrom inBuffer size ptr) = v :: vs) :
    ∃ p, ptr < p ∧ p ≤ size ∧ b64Next inBuffer size ptr = some (UInt8.ofNat (v + 1), p) ∧
      values (textFrom inBuffer size p) = vs := by
  have hlt : ptr < size := by
    by_contra hle
    rw [textFrom_end inBuffer (by omega)] at h
    cases h
  induction hn : size - ptr generalizing ptr with
  | zero => omega
  | succ n ih =>
    have hget : inBuffer[ptr]? = some inBuffer[ptr] := List.getElem?_eq_getElem (by omega)
    cases hvalue : Base64.value inBuffer[ptr] with
    | none =>
      have hskip := values_skip hsize hlt hget hvalue
      have hnext : ptr + 1 < size := by
        by_contra hle
        rw [textFrom_end inBuffer (by omega), h] at hskip
        cases hskip
      obtain ⟨p, hp, hle, heq, hrest⟩ := ih (ptr + 1) (hskip.trans h) hnext (by omega)
      rw [← b64Next_skip (by omega) hget hvalue] at heq
      exact ⟨p, by omega, hle, heq, hrest⟩
    | some w =>
      rw [textFrom_cons hsize hlt hget, Base64.values_cons_some hvalue] at h
      obtain ⟨rfl, rfl⟩ := List.cons.inj h
      refine ⟨ptr + 1, Nat.lt_succ_self ptr, hlt, ?_, rfl⟩
      rw [b64Next, if_neg (by omega), hget]
      simp only [b64Char_some hvalue, if_neg (ofNat_succ_ne (value_lt hvalue))]

theorem b64Gather_eq {left : Nat} (hleft : left ≤ 4) {ptr : Nat} (hptr : ptr ≤ size + 1) (block : Nat → UInt8)
    (len : Nat) :
    ∃ p block', b64Gather inBuffer size left ptr block len =
        some (p, block', len + min left (values (textFrom inBuffer size ptr)).length) ∧
      Gathered inBuffer size left ptr block p block' := by
  induction left generalizing ptr block len with
  | zero =>
    refine ⟨ptr, block, ?_, Nat.le_refl ptr, hptr, fun _ h => absurd rfl h, rfl, fun h => absurd h (Nat.not_lt_zero _),
      fun k _ => rfl, fun k v hk => absurd hk (Nat.not_lt_zero k)⟩
    rw [b64Gather, Nat.zero_min, Nat.add_zero]
  | succ left ih =>
    by_cases hend : size < ptr
    · obtain rfl : ptr = size + 1 := by omega
      refine ⟨size + 1, block, ?_, gathered_none⟩
      rw [b64Gather, if_pos hend, values_end]
      rfl
    rw [b64Gather, if_neg hend]
    cases hvs : values (textFrom inBuffer size ptr) with
    | nil =>
      obtain ⟨v, hnext⟩ := b64Next_end hsize ptr hptr hvs
      obtain ⟨p, block', hrun, hg⟩ := ih (by omega) (Nat.le_refl (size + 1)) (Function.update block (3 - left) 0) len
      have hp : p = size + 1 := Nat.le_antisymm hg.bound hg.le
      refine ⟨p, block', ?_, by omega, hg.bound, fun _ _ => by omega, ?_, fun _ => hp, fun k hk => ?_, ?_⟩
      · rw [hnext, Option.bind_eq_bind, Option.bind_some]
        simp only [if_neg (Nat.not_succ_le_self size)]
        rw [hrun, values_end, List.length_nil, Nat.min_zero, Nat.min_zero]
      · rw [hp, values_end, hvs, List.drop_nil]
      · rw [hg.kept k (by omega), Function.update_of_ne (by omega)]
      · rw [hvs]
        intro k v _ hk
        cases hk
    | cons v vs =>
      obtain ⟨q, hlt, hle, hnext, hrest⟩ := b64Next_value hsize ptr hvs
      have hv : v < 64 := values_lt v (by rw [hvs]; exact List.mem_cons_self)
      obtain ⟨p, block', hrun, hg⟩ := ih (by omega) (Nat.le_succ_of_le hle)
        (Function.update block (3 - left) (UInt8.ofNat v)) (len + 1)
      refine ⟨p, block', ?_, by have := hg.le; omega, hg.bound, fun _ _ => by have := hg.le; omega, ?_, ?_,
        fun k hk => ?_, ?_⟩
      · rw [hnext, Option.bind_eq_bind, Option.bind_some]
        simp only [if_pos hle, ne_eq, ofNat_succ_ne hv, not_false_eq_true, if_true, ofNat_succ_sub]
        rw [hrun, hrest, List.length_cons, Nat.succ_min_succ, Nat.add_assoc, Nat.add_comm 1]
      · rw [hg.rest, hrest, hvs]
        rfl
      · rw [hvs, List.length_cons]
        intro hlast
        exact hg.last (by rw [hrest]; omega)
      · rw [hg.kept k (by omega), Function.update_of_ne (by omega)]
      · rw [hvs]
        intro k w hk hget
        cases k with
        | zero =>
          obtain rfl : v = w := Option.some.inj hget
          rw [hg.kept _ (by omega), show 4 - (left + 1) + 0 = 3 - left by omega, Function.update_self]
        | succ k =>
          rw [show 4 - (left + 1) + (k + 1) = 4 - left + k by omega]
          exact hg.stored k w (by omega) (by rw [hrest]; exact hget)

/-- The loop decodes the text, if the buffer has room for it. -/
theorem b64Loop_eq {capacity : Nat} (fuel ptr : Nat) (hptr : ptr ≤ size + 1) (hfuel : size + 2 - ptr ≤ fuel)
    (block : Nat → UInt8) (out : List UInt8)
    (hroom : out.length + (Base64.decode (textFrom inBuffer size ptr)).length ≤ capacity) :
    b64Loop inBuffer size capacity fuel ptr block out = some (out ++ Base64.decode (textFrom inBuffer size ptr)) := by
  induction fuel generalizing ptr block out with
  | zero => omega
  | succ fuel ih =>
    by_cases hend : size < ptr
    · rw [b64Loop, if_pos hend, textFrom_end inBuffer (Nat.le_of_lt hend)]
      exact congrArg some (List.append_nil out).symm
    obtain ⟨p, block', hrun, hg⟩ := b64Gather_eq hsize (Nat.le_refl 4) hptr block 0
    have hdecode : Base64.decode (textFrom inBuffer size ptr) =
        Base64.toBytes ((values (textFrom inBuffer size ptr)).take 4) ++ Base64.decode (textFrom inBuffer size p) := by
      rw [Base64.decode, Base64.toBytes_drop, ← hg.rest]
      rfl
    rw [hdecode, List.length_append, ← Nat.add_assoc] at hroom
    have hprogress := hg.progress (by omega) (by decide)
    have hout := group_out hg out
    rw [b64Loop, if_neg hend, hrun, Option.bind_eq_bind, Option.bind_some]
    simp only [Nat.zero_add] at *
    rw [hout, if_pos (by rw [List.length_append]; omega), ih p hg.bound (by omega) block' _
      (by rw [List.length_append]; exact hroom), hdecode, List.append_assoc]

theorem privateB64Decode_eq {capacity : Nat} (block : Nat → UInt8)
    (hroom : (Base64.decode (inBuffer.take size)).length ≤ capacity) :
    privateB64Decode block inBuffer size capacity = some (Base64.decode (inBuffer.take size)) := by
  have htext : textFrom inBuffer size 0 = inBuffer.take size := rfl
  have hloop := @b64Loop_eq inBuffer size hsize capacity (size + 2) 0 (Nat.zero_le _) (Nat.le_refl _) block []
    (by rw [htext, List.length_nil, Nat.zero_add]; exact hroom)
  rwa [htext, List.nil_append] at hloop

end

/-! ## Every file -/

theorem lt_lineEnd {dataIn : List UInt8} {i : Nat} (hi : i < dataIn.length) (hc : dataIn.getD i 0 ≠ chr '\n') :
    i < lineEnd dataIn i := by
  have hget : dataIn.getD i 0 = dataIn[i] := by simp [List.getD_eq_getElem?_getD, hi]
  have hsucc := Scan.scanTo_succ (p := (· == chr '\n')) hi (by rw [hget] at hc; simpa using hc)
  rw [lineEnd, hsucc]
  exact Scan.le_scanTo _ dataIn (i + 1)

/-- What stands between the two lines with a dash fits the buffer. -/
theorem room_of_lines {n i startAt : Nat} (hi : i < n) (hstart : 2 ≤ startAt) (text : List UInt8)
    (ht : text.length ≤ i - startAt) : (Base64.decode text).length ≤ n / 4 * 3 := by
  have hdecode := Base64.length_decode text
  omega

theorem pemScan_total {dataIn : List UInt8} (i startAt certIndex : Nat)
    (h : startAt = 0 ∨ 2 ≤ startAt ∧ startAt ≤ i) :
    ∃ out, out.length ≤ dataIn.length / 4 * 3 ∧
      ∀ block, pemScan block dataIn (dataIn.length / 4 * 3) i startAt certIndex = some out := by
  induction hn : dataIn.length - i using Nat.strongRecOn generalizing i startAt certIndex with
  | ind n ih =>
    by_cases hi : dataIn.length ≤ i
    · refine ⟨[], Nat.zero_le _, fun block => ?_⟩
      rw [pemScan, if_pos hi]
    -- every turn goes on behind `i`
    have hnext : ∀ j startAt certIndex, i ≤ j → (startAt = 0 ∨ 2 ≤ startAt ∧ startAt ≤ j + 1) →
        ∃ out, out.length ≤ dataIn.length / 4 * 3 ∧
          ∀ block, pemScan block dataIn (dataIn.length / 4 * 3) (j + 1) startAt certIndex = some out :=
      fun j startAt certIndex hj hs => ih _ (by omega) (j + 1) startAt certIndex hs rfl
    have hle : i ≤ lineEnd dataIn i := Scan.le_scanTo _ dataIn i
    have hstart : startAt = 0 ∨ 2 ≤ startAt ∧ startAt ≤ lineEnd dataIn i + 1 := by omega
    by_cases hblank : dataIn.getD i 0 = chr '\n' ∨ dataIn.getD i 0 = chr '\r'
    · obtain ⟨out, hlen, hout⟩ := hnext i startAt certIndex (Nat.le_refl i) (by omega)
      refine ⟨out, hlen, fun block => ?_⟩
      rw [pemScan, if_neg hi]
      simp only [if_pos hblank, hout]
    by_cases hdash : dataIn.getD i 0 ≠ chr '-'
    · obtain ⟨out, hlen, hout⟩ := hnext _ startAt certIndex hle hstart
      refine ⟨out, hlen, fun block => ?_⟩
      rw [pemScan, if_neg hi]
      simp only [if_neg hblank, if_pos hdash, hout]
    by_cases hopen : startAt ≠ 0
    · by_cases hindex : 0 < certIndex
      · obtain ⟨out, hlen, hout⟩ := hnext _ 0 (certIndex - 1) hle (Or.inl rfl)
        refine ⟨out, hlen, fun block => ?_⟩
        rw [pemScan, if_neg hi]
        simp only [if_neg hblank, if_neg hdash, if_pos hopen, if_pos hindex, hout]
      · obtain ⟨htwo, hsi⟩ := h.resolve_left hopen
        have hroom := room_of_lines (Nat.not_le.mp hi) htwo ((dataIn.drop startAt).take (i - startAt))
          (List.length_take_le _ _)
        refine ⟨_, hroom, fun block => ?_⟩
        rw [pemScan, if_neg hi]
        simp only [if_neg hblank, if_neg hdash, if_pos hopen, if_neg hindex]
        exact privateB64Decode_eq (by rw [List.length_drop]; omega) block hroom
    · have hlt := lt_lineEnd (Nat.not_le.mp hi) fun hc => hblank (Or.inl hc)
      obtain ⟨out, hlen, hout⟩ := hnext _ (lineEnd dataIn i + 1) certIndex hle (by omega)
      refine ⟨out, hlen, fun block => ?_⟩
      rw [pemScan, if_neg hi]
      simp only [if_neg hblank, if_neg hdash, if_neg hopen, hout]

/-- Whatever the file is, the decoder returns: it reads no byte behind the file, writes no byte behind its buffer, and
does not depend on what `in` held before. -/
theorem tlsPemDecode_total (dataIn : List UInt8) (certIndex : Nat) :
    ∃ out, out.length ≤ dataIn.length / 4 * 3 ∧ ∀ block, tlsPemDecode block dataIn certIndex = some out :=
  pemScan_total 0 0 certIndex (Or.inl rfl)

/-! ## Files of blocks -/

def linesText (lines : List (List UInt8)) : List UInt8 := lines.flatMap (· ++ [chr '\n'])

/-- A line that is not the border of a block. Carriage returns in front of a line are skipped. -/
def PlainLine (line : List UInt8) : Prop :=
  chr '\n' ∉ line ∧ (line.dropWhile (· = chr '\r')).head? ≠ some (chr '-')

instance (line : List UInt8) : Decidable (PlainLine line) := inferInstanceAs (Decidable (_ ∧ _))

/-- A block between its two border lines, and the lines behind it. The lines spell the bytes of `data`. -/
structure PemBlock where
  label : List UInt8
  lines : List (List UInt8)
  endLabel : List UInt8
  behind : List (List UInt8)
  data : List UInt8
  label_line : chr '\n' ∉ label
  lines_plain : ∀ line ∈ lines, PlainLine line
  endLabel_line : chr '\n' ∉ endLabel
  behind_plain : ∀ line ∈ behind, PlainLine line
  spells : values (linesText lines) = Base64.ofBytes data

namespace PemBlock

def body (b : PemBlock) : List UInt8 := linesText b.lines

def text (b : PemBlock) : List UInt8 :=
  chr '-' :: (b.label ++ chr '\n' :: (b.body ++ chr '-' :: (b.endLabel ++ chr '\n' :: linesText b.behind)))

end PemBlock

structure PemFile where
  front : List (List UInt8)
  blocks : List PemBlock
  front_plain : ∀ line ∈ front, PlainLine line

def PemFile.text (file : PemFile) : List UInt8 := linesText file.front ++ file.blocks.flatMap PemBlock.text

section
variable {dataIn : List UInt8} {capacity : Nat} (block : Nat → UInt8)

theorem lineEnd_line {i : Nat} {line rest : List UInt8} (h : dataIn.drop i = line ++ chr '\n' :: rest)
    (hline : chr '\n' ∉ line) : lineEnd dataIn i = i + line.length := by
  have hfind : ∀ line : List UInt8, chr '\n' ∉ line →
      (line ++ chr '\n' :: rest).findIdx (· == chr '\n') = line.length := by
    intro line
    induction line with
    | nil => simp [List.findIdx_cons]
    | cons c line ih =>
      intro hmem
      rw [List.mem_cons, not_or] at hmem
      have hc : (c == chr '\n') = false := beq_eq_false_iff_ne.mpr (Ne.symm hmem.1)
      rw [List.cons_append, List.findIdx_cons, hc, ih hmem.2]
      rfl
  rw [lineEnd, Scan.scanTo, h, hfind line hline]

theorem getD_of_drop {i : Nat} {c : UInt8} {rest : List UInt8} (h : dataIn.drop i = c :: rest) :
    i < dataIn.length ∧ dataIn.getD i 0 = c ∧ dataIn.drop (i + 1) = rest := by
  have hlt : i < dataIn.length := by
    by_contra hle
    rw [List.drop_eq_nil_of_le (by omega)] at h
    cases h
  rw [List.drop_eq_getElem_cons hlt] at h
  obtain ⟨hc, hrest⟩ := List.cons.inj h
  refine ⟨hlt, ?_, hrest⟩
  simp [List.getD_eq_getElem?_getD, hlt, hc]

theorem pemScan_line {i startAt certIndex : Nat} {line rest : List UInt8} (h : dataIn.drop i = line ++ chr '\n' :: rest)
    (hline : PlainLine line) :
    pemScan block dataIn capacity i startAt certIndex =
      pemScan block dataIn capacity (i + line.length + 1) startAt certIndex := by
  induction line generalizing i with
  | nil =>
    obtain ⟨hlt, hc, _⟩ := getD_of_drop h
    rw [pemScan, if_neg (Nat.not_le.mpr hlt)]
    simp only [hc, true_or, if_true, List.length_nil, Nat.add_zero]
  | cons c line ih =>
    obtain ⟨hlt, hc, hdrop⟩ := getD_of_drop h
    obtain ⟨hmem, hhead⟩ := hline
    rw [List.mem_cons, not_or] at hmem
    rw [pemScan, if_neg (Nat.not_le.mpr hlt)]
    by_cases hcr : c = chr '\r'
    · have hplain : PlainLine line := ⟨hmem.2, by simpa [hcr] using hhead⟩
      simp only [hc, hcr, or_true, if_true]
      rw [ih hdrop hplain, List.length_cons]
      congr 1
      omega
    · have hend := lineEnd_line h (by simpa using hmem)
      have hdash : c ≠ chr '-' := by simpa [hcr] using hhead
      simp only [hc, Ne.symm hmem.1, hcr, or_self, if_false, hdash, ne_eq, not_false_eq_true, if_true, hend]

theorem pemScan_lines {i startAt certIndex : Nat} {lines : List (List UInt8)} {rest : List UInt8}
    (h : dataIn.drop i = linesText lines ++ rest) (hlines : ∀ line ∈ lines, PlainLine line) :
    pemScan block dataIn capacity i startAt certIndex =
      pemScan block dataIn capacity (i + (linesText lines).length) startAt certIndex := by
  induction lines generalizing i with
  | nil => rfl
  | cons line lines ih =>
    have hcons : linesText (line :: lines) = line ++ chr '\n' :: linesText lines := by simp [linesText]
    rw [hcons, List.append_assoc, List.cons_append] at h
    have hdrop : dataIn.drop (i + line.length + 1) = linesText lines ++ rest := by
      rw [Nat.add_assoc, ← List.drop_drop, h, List.drop_append]
      simp
    rw [pemScan_line block h (hlines line List.mem_cons_self),
      ih hdrop fun l hl => hlines l (List.mem_cons_of_mem _ hl), hcons, List.length_append, List.length_cons]
    congr 1
    omega

/-- The lines with a dash: the first of a block begins it, the second ends or decodes it. -/
theorem pemScan_dash {i startAt certIndex : Nat} {label rest : List UInt8}
    (h : dataIn.drop i = chr '-' :: (label ++ chr '\n' :: rest)) (hlabel : chr '\n' ∉ label) :
    pemScan block dataIn capacity i startAt certIndex =
      (if startAt ≠ 0 then
        if 0 < certIndex then pemScan block dataIn capacity (i + label.length + 2) 0 (certIndex - 1)
        else privateB64Decode block (dataIn.drop startAt) (i - startAt) capacity
      else pemScan block dataIn capacity (i + label.length + 2) (i + label.length + 2) certIndex) := by
  obtain ⟨hlt, hc, _⟩ := getD_of_drop h
  have hend : lineEnd dataIn i + 1 = i + label.length + 2 := by
    have hmem : chr '\n' ∉ chr '-' :: label := by
      rw [List.mem_cons, not_or]
      exact ⟨by decide, hlabel⟩
    rw [@lineEnd_line dataIn i (chr '-' :: label) rest h hmem, List.length_cons]
    omega
  have hnewline : ¬ (chr '-' = chr '\n' ∨ chr '-' = chr '\r') := by decide
  rw [pemScan, if_neg (Nat.not_le.mpr hlt)]
  simp only [hc, if_neg hnewline, ne_eq, not_true_eq_false, if_false, hend]

theorem drop_of_drop {i n : Nat} {xs ys : List UInt8} (h : dataIn.drop i = xs ++ ys) (hn : n = xs.length) :
    dataIn.drop (i + n) = ys := by
  rw [← List.drop_drop, h, hn, List.drop_left]

/-- A block is skipped, or decoded where its number has come. -/
theorem pemScan_block {i certIndex : Nat} {b : PemBlock} {rest : List UInt8} (h : dataIn.drop i = b.text ++ rest) :
    pemScan block dataIn (dataIn.length / 4 * 3) i 0 certIndex =
      if 0 < certIndex then pemScan block dataIn (dataIn.length / 4 * 3) (i + b.text.length) 0 (certIndex - 1)
      else some b.data := by
  have hbegin : dataIn.drop i = chr '-' :: (b.label ++ chr '\n' :: (b.body ++
      (chr '-' :: (b.endLabel ++ chr '\n' :: (linesText b.behind ++ rest))))) := by
    rw [h, PemBlock.text]
    simp
  have hbody : dataIn.drop (i + b.label.length + 2) =
      b.body ++ (chr '-' :: (b.endLabel ++ chr '\n' :: (linesText b.behind ++ rest))) := by
    rw [Nat.add_assoc]
    refine @drop_of_drop dataIn i (b.label.length + 2) (chr '-' :: (b.label ++ [chr '\n'])) _ ?_ (by simp)
    rw [hbegin]
    simp
  have hend := drop_of_drop hbody rfl
  have hbehind : dataIn.drop (i + b.label.length + 2 + b.body.length + b.endLabel.length + 2) =
      linesText b.behind ++ rest := by
    rw [Nat.add_assoc _ b.endLabel.length 2]
    refine @drop_of_drop dataIn _ (b.endLabel.length + 2) (chr '-' :: (b.endLabel ++ [chr '\n'])) _ ?_ (by simp)
    rw [hend]
    simp
  have hlength : i + b.text.length =
      i + b.label.length + 2 + b.body.length + b.endLabel.length + 2 + (linesText b.behind).length := by
    simp only [PemBlock.text, List.length_cons, List.length_append]
    omega
  have hlt := (getD_of_drop hend).1
  rw [pemScan_dash block hbegin b.label_line, if_neg (not_not.mpr rfl), pemScan_lines block hbody b.lines_plain,
    ← PemBlock.body, pemScan_dash block hend b.endLabel_line, if_pos (Nat.succ_ne_zero _),
    pemScan_lines block hbehind b.behind_plain, hlength, Nat.add_sub_cancel_left]
  congr 1
  have htake : (dataIn.drop (i + b.label.length + 2)).take b.body.length = b.body := by rw [hbody, List.take_left]
  have hdecode : Base64.decode b.body = b.data := Base64.decode_of_values b.spells
  have hroom := room_of_lines hlt (show 2 ≤ i + b.label.length + 2 by omega) b.body (by omega)
  rw [privateB64Decode_eq (by rw [List.length_drop]; omega) block (by rwa [htake]), htake, hdecode]

theorem pemScan_blocks {i : Nat} (certIndex : Nat) {blocks : List PemBlock}
    (h : dataIn.drop i = blocks.flatMap PemBlock.text) :
    pemScan block dataIn (dataIn.length / 4 * 3) i 0 certIndex = some ((blocks[certIndex]?).elim [] PemBlock.data) := by
  induction blocks generalizing i certIndex with
  | nil =>
    have hle : dataIn.length ≤ i := List.drop_eq_nil_iff.mp h
    rw [pemScan, if_pos hle]
    rfl
  | cons b blocks ih =>
    rw [List.flatMap_cons] at h
    rw [pemScan_block block h]
    cases certIndex with
    | zero => rfl
    | succ certIndex => exact ih certIndex (drop_of_drop h rfl)

end

/-- The block of every number is found and decoded to its bytes; where the file has no such block, nothing is decoded. -/
theorem tlsPemDecode_blocks (block : Nat → UInt8) (file : PemFile) (certIndex : Nat) :
    tlsPemDecode block file.text certIndex = some ((file.blocks[certIndex]?).elim [] PemBlock.data) := by
  have hfront : file.text.drop 0 = linesText file.front ++ file.blocks.flatMap PemBlock.text := rfl
  rw [tlsPemDecode, pemScan_lines block hfront file.front_plain]
  exact pemScan_blocks block certIndex (drop_of_drop hfront rfl)

/-! ## Encoded files -/

end CWebServer
