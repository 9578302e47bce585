import CWebServer.Wide

/-!
# Counting code points

`str_length` and `str_utf8Count` step from one lead byte to the next, and take
the last step back where it goes beyond the string.
-/

namespace CWebServer

/-! ## The counters -/

def runeSize (c : UInt8) : Nat :=
  if 0xf0 = 0xf8 &&& c then 4 else if 0xe0 = 0xf0 &&& c then 3 else if 0xc0 = 0xe0 &&& c then 2 else 1

/-- The step at a `char`, which is signed and promoted to an `int`. -/
def runeSizeChar (s : Int8) : Nat :=
  if 0xf0 = 0xf8 &&& s.toInt32 then 4 else if 0xe0 = 0xf0 &&& s.toInt32 then 3
  else if 0xc0 = 0xe0 &&& s.toInt32 then 2 else 1

/-- Where the loop of `str_length` ends, and the length. A read behind the string is a fault, `none`. -/
def lengthLoop (str : List UInt8) : Nat → Nat → Nat → Option (Nat × Nat)
  | 0, s, length => if s < str.length then none else some (s, length)
  | turns + 1, s, length =>
    if s < str.length then do
      let c ← str[s]?
      if c.toInt8 = 0 then some (s, length)
      else lengthLoop str turns (s + runeSizeChar c.toInt8) (length + 1)
    else some (s, length)

def strLength (str : List UInt8) : Option Nat := do
  let (s, length) ← lengthLoop str str.length 0 0
  some (if str.length < s then length - 1 else length)

def utf8CountLoop (str : List UInt8) : Nat → Nat → Nat → Option (Nat × Nat)
  | 0, idx, length => if idx < str.length then none else some (idx, length)
  | turns + 1, idx, length =>
    if idx < str.length then do
      let c ← str[idx]?
      utf8CountLoop str turns (idx + runeSize c) (length + 1)
    else some (idx, length)

def strUtf8Count (str : List UInt8) : Option Nat := do
  let (idx, length) ← utf8CountLoop str str.length 0 0
  some (if str.length < idx then length - 1 else length)

/-! ## Steps -/

theorem forall_byte {p : UInt8 → Prop} (h : ∀ n < 256, p (UInt8.ofNat n)) (c : UInt8) : p c := by
  rw [← UInt8.ofNat_toNat (x := c)]
  exact h c.toNat c.toNat_lt

theorem runeSizeChar_eq (c : UInt8) : runeSizeChar c.toInt8 = runeSize c := by
  revert c
  exact forall_byte (by decide +kernel)

theorem runeSize_pos (c : UInt8) : 0 < runeSize c := by
  unfold runeSize
  split
  · decide
  · split
    · decide
    · split <;> decide

theorem runeSize_one : ∀ c : UInt8, c ≤ 0x7f → runeSize c = 1 := forall_byte (by decide +kernel)

theorem runeSize_two : ∀ c : UInt8, runeSize (c &&& 0x1f ||| 0xc0) = 2 := forall_byte (by decide +kernel)

theorem runeSize_three : ∀ c : UInt8, runeSize (c &&& 0x0f ||| 0xe0) = 3 := forall_byte (by decide +kernel)

theorem runeSize_four : ∀ c : UInt8, runeSize (c &&& 0x07 ||| 0xf0) = 4 := forall_byte (by decide +kernel)

theorem runeSize_lead (cp : Char) : ∃ c bytes, String.utf8EncodeChar cp = c :: bytes ∧ runeSize c = cp.utf8Size := by
  rcases cp.utf8Size_eq with h | h | h | h
  · refine ⟨_, _, String.utf8EncodeChar_eq_singleton h, ?_⟩
    rw [h]
    apply runeSize_one
    have hle := UInt32.le_iff_toNat_le.mp (Char.utf8Size_eq_one_iff.mp h)
    rw [UInt8.le_iff_toNat_le, UInt32.toNat_toUInt8]
    exact Nat.le_trans (Nat.mod_le _ _) hle
  · exact ⟨_, _, String.utf8EncodeChar_eq_cons_cons h, h ▸ runeSize_two _⟩
  · exact ⟨_, _, String.utf8EncodeChar_eq_cons_cons_cons h, h ▸ runeSize_three _⟩
  · exact ⟨_, _, String.utf8EncodeChar_eq_cons_cons_cons_cons h, h ▸ runeSize_four _⟩

section
variable {str : List UInt8}

theorem utf8CountLoop_end {idx : Nat} (h : str.length ≤ idx) (turns length : Nat) :
    utf8CountLoop str turns idx length = some (idx, length) := by
  cases turns <;> exact if_neg (Nat.not_lt.mpr h)

theorem utf8CountLoop_some {turns idx : Nat} (h : str.length ≤ idx + turns) (length : Nat) :
    ∃ r, utf8CountLoop str turns idx length = some r := by
  induction turns generalizing idx length with
  | zero => exact ⟨_, utf8CountLoop_end h 0 length⟩
  | succ turns ih =>
    by_cases hlt : idx < str.length
    · have hpos := runeSize_pos str[idx]
      rw [utf8CountLoop, if_pos hlt, List.getElem?_eq_getElem hlt]
      exact ih (by omega) _
    · exact ⟨_, utf8CountLoop_end (Nat.not_lt.mp hlt) _ length⟩

/-- Without a NUL byte both loops take the same steps. -/
theorem lengthLoop_eq (h : 0 ∉ str) (turns s length : Nat) :
    lengthLoop str turns s length = utf8CountLoop str turns s length := by
  induction turns generalizing s length with
  | zero => rfl
  | succ turns ih =>
    rw [lengthLoop, utf8CountLoop]
    by_cases hlt : s < str.length
    · have hne : str[s].toInt8 ≠ 0 := fun hz => h (by
        have hzero : str[s] = 0 := congrArg Int8.toUInt8 hz
        rw [← hzero]
        exact List.getElem_mem hlt)
      rw [if_pos hlt, if_pos hlt, List.getElem?_eq_getElem hlt]
      simp only [Option.bind_eq_bind, Option.bind_some]
      rw [if_neg hne, ih, runeSizeChar_eq]
    · rw [if_neg hlt, if_neg hlt]

theorem utf8CountLoop_lead {cp : Char} {idx : Nat} (h : str[idx]? = (String.utf8EncodeChar cp).head?)
    (turns length : Nat) :
    utf8CountLoop str (turns + 1) idx length = utf8CountLoop str turns (idx + cp.utf8Size) (length + 1) := by
  obtain ⟨c, bytes, hbytes, hsize⟩ := runeSize_lead cp
  rw [hbytes, List.head?_cons] at h
  have hlt : idx < str.length := (List.getElem?_eq_some_iff.mp h).1
  rw [utf8CountLoop, if_pos hlt, h, ← hsize]
  rfl

theorem utf8CountLoop_text (chars : List Char) {rest : List UInt8} {idx : Nat}
    (h : str.drop idx = utf8Text chars ++ rest) (turns length : Nat) :
    utf8CountLoop str (turns + chars.length) idx length =
      utf8CountLoop str turns (idx + (utf8Text chars).length) (length + chars.length) := by
  induction chars generalizing idx length with
  | nil => rfl
  | cons cp chars ih =>
    have htext : utf8Text (cp :: chars) = String.utf8EncodeChar cp ++ utf8Text chars := List.flatMap_cons ..
    have hlen := String.length_utf8EncodeChar cp
    rw [htext, List.append_assoc] at h
    have hlead : str[idx]? = (String.utf8EncodeChar cp).head? := by
      obtain ⟨c, bytes, hbytes, -⟩ := runeSize_lead cp
      rw [← List.head?_drop, h, hbytes]
      rfl
    have hrest : str.drop (idx + cp.utf8Size) = utf8Text chars ++ rest := by
      rw [← List.drop_drop, h, ← hlen, List.drop_left]
    rw [List.length_cons, ← Nat.add_assoc, utf8CountLoop_lead hlead, ih hrest, htext, List.length_append, hlen]
    congr 1
    · omega
    · omega

end

/-! ## The number of code points -/

structure CountersRight (str : List UInt8) : Prop where
  total : ∃ n, strUtf8Count str = some n
  agree : 0 ∉ str → strLength str = strUtf8Count str
  whole : ∀ chars, str = utf8Text chars → strUtf8Count str = some chars.length
  cut : ∀ chars cp k, 0 < k → k < cp.utf8Size → str = utf8Text chars ++ (String.utf8EncodeChar cp).take k →
    strUtf8Count str = some chars.length

/-- Behind the code points of the text, with the turns that are left. -/
theorem utf8CountLoop_behind (chars : List Char) (rest : List UInt8) :
    ∃ turns, (utf8Text chars ++ rest).length = turns + chars.length ∧ rest.length ≤ turns ∧
      utf8CountLoop (utf8Text chars ++ rest) (utf8Text chars ++ rest).length 0 0 =
        utf8CountLoop (utf8Text chars ++ rest) turns (utf8Text chars).length chars.length := by
  have hle := length_le_utf8Text chars
  have hle' : chars.length ≤ (utf8Text chars ++ rest).length := by
    rw [List.length_append]
    exact Nat.le_add_right_of_le hle
  obtain ⟨turns, hturns⟩ := Nat.exists_eq_add_of_le' hle'
  refine ⟨turns, hturns, ?_, ?_⟩
  · rw [List.length_append] at hturns
    omega
  · have hloop := utf8CountLoop_text chars (List.drop_zero (l := utf8Text chars ++ rest)) turns 0
    rw [Nat.zero_add, Nat.zero_add] at hloop
    rw [hturns]
    exact hloop

theorem strUtf8Count_whole (chars : List Char) : strUtf8Count (utf8Text chars) = some chars.length := by
  obtain ⟨turns, -, -, hloop⟩ := utf8CountLoop_behind chars []
  rw [List.append_nil, utf8CountLoop_end (Nat.le_refl _)] at hloop
  unfold strUtf8Count
  rw [hloop]
  simp

theorem strUtf8Count_cut (chars : List Char) {cp : Char} {k : Nat} (hpos : 0 < k) (hk : k < cp.utf8Size) :
    strUtf8Count (utf8Text chars ++ (String.utf8EncodeChar cp).take k) = some chars.length := by
  have hlen := String.length_utf8EncodeChar cp
  have htake : ((String.utf8EncodeChar cp).take k).length = k := by
    rw [List.length_take]
    omega
  obtain ⟨turns, -, hturns, hloop⟩ := utf8CountLoop_behind chars ((String.utf8EncodeChar cp).take k)
  obtain ⟨turns, rfl⟩ := Nat.exists_eq_add_of_le' (Nat.le_trans (by omega : 1 ≤ k) (htake ▸ hturns))
  have hlead : (utf8Text chars ++ (String.utf8EncodeChar cp).take k)[(utf8Text chars).length]? =
      (String.utf8EncodeChar cp).head? := by
    rw [List.getElem?_append_right (Nat.le_refl _), Nat.sub_self, List.getElem?_take_of_lt hpos, List.head?_eq_getElem?]
  have hbeyond : (utf8Text chars ++ (String.utf8EncodeChar cp).take k).length <
      (utf8Text chars).length + cp.utf8Size := by
    rw [List.length_append, htake]
    omega
  rw [utf8CountLoop_lead hlead, utf8CountLoop_end (Nat.le_of_lt hbeyond)] at hloop
  unfold strUtf8Count
  rw [hloop]
  simp only [Option.bind_eq_bind, Option.bind_some]
  rw [if_pos hbeyond]
  rfl

theorem countersRight (str : List UInt8) : CountersRight str := by
  constructor
  · obtain ⟨r, hr⟩ := utf8CountLoop_some (Nat.le_add_left str.length 0) 0
    unfold strUtf8Count
    rw [hr]
    exact ⟨_, rfl⟩
  · intro h
    unfold strLength strUtf8Count
    rw [lengthLoop_eq h]
  · rintro chars rfl
    exact strUtf8Count_whole chars
  · rintro chars cp k hpos hk rfl
    exact strUtf8Count_cut chars hpos hk

end CWebServer
