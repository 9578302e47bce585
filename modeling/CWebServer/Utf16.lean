import CWebServer.Wide

/-!
# The round trip of UTF-16

The encoder returns the number of units on Windows and that of bytes elsewhere,
where the caller takes it for units and leaves old ones between the characters.
-/

namespace CWebServer

/-- The characters written one behind the other as in `str_toS16`: the block and `dptr` behind them. -/
def encodeUtf16All (osWin : Bool) : List Char → List UInt16 → Nat → Option (List UInt16 × Nat)
  | [], memory, dptr => some (memory, dptr)
  | cp :: cps, memory, dptr => do
    let (units, encSize) := strEncodeUtf16 osWin cp.val
    let memory ← writeUnits memory dptr units
    encodeUtf16All osWin cps memory (dptr + encSize)

/-- The code points of the units read as in `str_fromS16`, with at most as many turns. -/
def decodeUtf16All : Nat → List UInt16 → Option (List UInt32)
  | _, [] => some []
  | 0, _ :: _ => none
  | turns + 1, u :: ptr => do
    let decode ← strDecodeUtf16 (u :: ptr) (u :: ptr).length
    let codepoints ← decodeUtf16All turns ((u :: ptr).drop decode.size.toNat)
    some (decode.codepoint :: codepoints)

/-- The characters come back from a block of the size that `str_toS16` takes for as many bytes. -/
def Utf16RoundTrip (osWin : Bool) (stale : Nat → UInt16) (cps : List Char) : Prop :=
  ∃ memory dptr, encodeUtf16All osWin cps ((List.range (cps.length * 4 + 2)).map stale) 0 = some (memory, dptr) ∧
    decodeUtf16All dptr (memory.take dptr) = some (cps.map Char.val)

/-! ## One character -/

def utf16Units (cp : Char) : List UInt16 := (strEncodeUtf16 true cp.val).1

def Supplementary (cp : Char) : Prop := 0x10000 ≤ cp.val.toNat

instance (cp : Char) : Decidable (Supplementary cp) := inferInstanceAs (Decidable (_ ≤ _))

theorem val_lt (cp : Char) : cp.val.toNat < 0x110000 := by
  rcases cp.valid with hlow | ⟨-, hhigh⟩
  · exact Nat.lt_trans hlow (by decide)
  · exact hhigh

theorem units_bmp {cp : Char} (h : ¬ Supplementary cp) : utf16Units cp = [cp.val.toUInt16] := by
  have hlt : cp.val < 0x10000 := UInt32.lt_iff_toNat_lt.mpr (Nat.lt_of_not_le h)
  unfold utf16Units strEncodeUtf16
  rw [if_pos hlt]

theorem units_supplementary {cp : Char} (h : Supplementary cp) :
    ∃ x y : UInt16, utf16Units cp = [x, y] ∧ x.toNat = 0xD800 + (cp.val.toNat - 0x10000) / 1024 ∧
      y.toNat = 0xDC00 + (cp.val.toNat - 0x10000) % 1024 := by
  have hge : ¬ cp.val < 0x10000 := fun hlt => absurd (UInt32.lt_iff_toNat_lt.mp hlt) (Nat.not_lt.mpr h)
  have hvalid := val_lt cp
  have hcpj : (cp.val - 0x10000).toNat = cp.val.toNat - 0x10000 :=
    UInt32.toNat_sub_of_le _ _ (UInt32.le_iff_toNat_le.mpr h)
  have hbound : cp.val.toNat - 0x10000 < 1024 * 1024 := by omega
  unfold utf16Units strEncodeUtf16
  rw [if_neg hge]
  refine ⟨_, _, rfl, ?_, ?_⟩
  · rw [UInt32.toNat_toUInt16, UInt32.toNat_add, UInt32.toNat_shiftRight, hcpj]
    rw [show (10 : UInt32).toNat % 32 = 10 from rfl, Nat.shiftRight_eq_div_pow]
    rw [show (0xD800 : UInt32).toNat = 0xD800 from rfl]
    omega
  · rw [UInt32.toNat_toUInt16, UInt32.toNat_add, UInt32.toNat_and, hcpj]
    rw [show (0x3FF : UInt32).toNat = 2 ^ 10 - 1 from rfl, Nat.and_two_pow_sub_one_eq_mod]
    rw [show (0xDC00 : UInt32).toNat = 0xDC00 from rfl]
    omega

theorem decode_bmp {cp : Char} (h : ¬ Supplementary cp) (behind : List UInt16) (cap : Nat) :
    strDecodeUtf16 (utf16Units cp ++ behind) cap = some { codepoint := cp.val, size := 1 } := by
  have hlt : cp.val.toNat < 0x10000 := Nat.lt_of_not_le h
  have hnat : cp.val.toUInt16.toNat = cp.val.toNat := by
    rw [UInt32.toNat_toUInt16]
    exact Nat.mod_eq_of_lt hlt
  have hval : cp.val.toUInt16.toUInt32 = cp.val := by
    rw [← UInt32.toNat_inj, UInt16.toNat_toUInt32, hnat]
  have hcase : cp.val.toUInt16 < 0xD800 ∨ 0xDFFF < cp.val.toUInt16 := by
    rw [UInt16.lt_iff_toNat_lt, UInt16.lt_iff_toNat_lt, hnat]
    rcases cp.valid with hlow | ⟨hhigh, -⟩
    · exact Or.inl hlow
    · exact Or.inr hhigh
  rw [units_bmp h, List.singleton_append]
  unfold strDecodeUtf16 decodeUnits
  simp only [id, if_pos hcase, hval]

theorem decode_supplementary {cp : Char} (h : Supplementary cp) (behind : List UInt16) (cap : Nat) :
    strDecodeUtf16 (utf16Units cp ++ behind) cap =
      some (if 2 ≤ cap % 2 ^ 32 then { codepoint := cp.val, size := 2 } else {}) := by
  obtain ⟨x, y, hunits, hx, hy⟩ := units_supplementary h
  have hvalid := val_lt cp
  have hge : 0x10000 ≤ cp.val.toNat := h
  have hsurrogate : ¬ (x < 0xD800 ∨ 0xDFFF < x) := by
    rw [UInt16.lt_iff_toNat_lt, UInt16.lt_iff_toNat_lt, hx]
    rw [show (0xD800 : UInt16).toNat = 0xD800 from rfl, show (0xDFFF : UInt16).toNat = 0xDFFF from rfl]
    omega
  have hpair : 0xD800 ≤ x ∧ x < 0xDC00 ∧ 0xDC00 ≤ y ∧ y < 0xE000 := by
    simp only [UInt16.le_iff_toNat_le, UInt16.lt_iff_toNat_lt, hx, hy]
    rw [show (0xD800 : UInt16).toNat = 0xD800 from rfl, show (0xDC00 : UInt16).toNat = 0xDC00 from rfl,
      show (0xE000 : UInt16).toNat = 0xE000 from rfl]
    omega
  have hxj : (x - 0xD800).toNat = (cp.val.toNat - 0x10000) / 1024 := by
    rw [UInt16.toNat_sub_of_le _ _ hpair.1, hx, show (0xD800 : UInt16).toNat = 0xD800 from rfl,
      Nat.add_sub_cancel_left]
  have hyj : (y - 0xDC00).toNat = (cp.val.toNat - 0x10000) % 1024 := by
    rw [UInt16.toNat_sub_of_le _ _ hpair.2.2.1, hy, show (0xDC00 : UInt16).toNat = 0xDC00 from rfl,
      Nat.add_sub_cancel_left]
  have hval : ((x - 0xD800).toUInt32 <<< 10 ||| (y - 0xDC00).toUInt32) + 0x10000 = cp.val := by
    rw [← UInt32.toNat_inj, UInt32.toNat_add, UInt32.toNat_or, UInt32.toNat_shiftLeft, UInt16.toNat_toUInt32,
      UInt16.toNat_toUInt32, hxj, hyj]
    rw [show (10 : UInt32).toNat % 32 = 10 from rfl, show (0x10000 : UInt32).toNat = 0x10000 from rfl]
    have hlow : (cp.val.toNat - 0x10000) % 1024 < 2 ^ 10 := Nat.mod_lt _ (by decide)
    have hhigh : ((cp.val.toNat - 0x10000) / 1024) <<< 10 < 2 ^ 32 := by
      rw [Nat.shiftLeft_eq]
      omega
    rw [Nat.mod_eq_of_lt hhigh, ← Nat.shiftLeft_add_eq_or_of_lt hlow, Nat.shiftLeft_eq]
    omega
  rw [hunits]
  unfold strDecodeUtf16 decodeUnits
  simp only [List.cons_append, List.nil_append, id, List.head?_cons, Option.map_some, if_neg hsurrogate, if_pos hpair,
    hval]
  by_cases hcap : 2 ≤ cap % 2 ^ 32
  · rw [if_pos hcap, if_pos hcap]
  · rw [if_neg hcap, if_neg hcap]

theorem units_length (cp : Char) : (utf16Units cp).length = if Supplementary cp then 2 else 1 := by
  by_cases h : Supplementary cp
  · obtain ⟨x, y, hunits, -⟩ := units_supplementary h
    rw [hunits, if_pos h]
    rfl
  · rw [units_bmp h, if_neg h]
    rfl

/-! ## Writing -/

/-- What the encoder counts for one unit. -/
def unitSize (osWin : Bool) : Nat := if osWin then 1 else 2

theorem strEncodeUtf16_eq (osWin : Bool) (cp : Char) :
    strEncodeUtf16 osWin cp.val = (utf16Units cp, unitSize osWin * (utf16Units cp).length) := by
  unfold utf16Units strEncodeUtf16 unitSize
  by_cases hlt : cp.val < 0x10000
  · rw [if_pos hlt, if_pos hlt]
    cases osWin <;> rfl
  · rw [if_neg hlt, if_neg hlt]
    cases osWin <;> rfl

theorem unitSize_pos (osWin : Bool) : 1 ≤ unitSize osWin := by cases osWin <;> decide

theorem unitSize_le (osWin : Bool) : unitSize osWin ≤ 2 := by cases osWin <;> decide

theorem units_length_le (cp : Char) : (utf16Units cp).length ≤ 2 := by
  rw [units_length]
  by_cases h : Supplementary cp
  · rw [if_pos h]
  · rw [if_neg h]
    decide

theorem units_length_pos (cp : Char) : 1 ≤ (utf16Units cp).length := by
  rw [units_length]
  by_cases h : Supplementary cp
  · rw [if_pos h]
    decide
  · rw [if_neg h]

theorem encode_cons (osWin : Bool) {cp : Char} {cps : List Char} {memory : List UInt16} {dptr : Nat}
    (hroom : dptr + 4 * (cp :: cps).length ≤ memory.length) :
    ∃ memory₁, memory₁.length = memory.length ∧
      memory₁.take (dptr + (utf16Units cp).length) = memory.take dptr ++ utf16Units cp ∧
      encodeUtf16All osWin (cp :: cps) memory dptr =
        encodeUtf16All osWin cps memory₁ (dptr + unitSize osWin * (utf16Units cp).length) ∧
      dptr + unitSize osWin * (utf16Units cp).length + 4 * cps.length ≤ memory₁.length := by
  have hunits := units_length_le cp
  have hstep := Nat.mul_le_mul (unitSize_le osWin) hunits
  rw [List.length_cons] at hroom
  have hfit : dptr + (utf16Units cp).length ≤ memory.length := by omega
  obtain ⟨memory₁, hwrite, hlen⟩ := writeUnits_some hfit
  refine ⟨memory₁, hlen, take_writeUnits hwrite, ?_, ?_⟩
  · rw [encodeUtf16All, strEncodeUtf16_eq]
    dsimp only
    rw [hwrite]
    rfl
  · rw [hlen]
    omega

theorem take_of_take {l l' : List UInt16} {m n : Nat} (hle : m ≤ n) (h : l.take n = l'.take n) :
    l.take m = l'.take m := by
  have htake := congrArg (List.take m) h
  rwa [List.take_take, List.take_take, Nat.min_eq_left hle] at htake

theorem first_le (osWin : Bool) (cp : Char) (dptr : Nat) :
    dptr + (utf16Units cp).length ≤ dptr + unitSize osWin * (utf16Units cp).length :=
  Nat.add_le_add_left (Nat.le_mul_of_pos_left _ (unitSize_pos osWin)) _

theorem encode_spec (osWin : Bool) {cps : List Char} {memory : List UInt16} {dptr : Nat}
    (hroom : dptr + 4 * cps.length ≤ memory.length) :
    ∃ memory', encodeUtf16All osWin cps memory dptr =
        some (memory', dptr + unitSize osWin * (cps.flatMap utf16Units).length) ∧
      memory'.take dptr = memory.take dptr ∧ memory'.length = memory.length ∧
      (osWin = true → memory'.take (dptr + (cps.flatMap utf16Units).length) =
        memory.take dptr ++ cps.flatMap utf16Units) := by
  induction cps generalizing memory dptr with
  | nil => exact ⟨memory, rfl, rfl, rfl, fun _ => (List.append_nil _).symm⟩
  | cons cp cps ih =>
    obtain ⟨memory₁, hlen, htake, hcons, hroom₁⟩ := encode_cons osWin hroom
    obtain ⟨memory', hencode, hbefore, hlen', hwin⟩ := ih hroom₁
    have hfirst := (take_of_take (first_le osWin cp dptr) hbefore).trans htake
    refine ⟨memory', ?_, ?_, hlen'.trans hlen, ?_⟩
    · rw [hcons, hencode, List.flatMap_cons, List.length_append, Nat.mul_add, Nat.add_assoc]
    · have hle : dptr ≤ (memory.take dptr).length := by
        rw [List.length_take]
        omega
      have hstart := congrArg (List.take dptr) hfirst
      rw [List.take_take, Nat.min_eq_left (Nat.le_add_right _ _), List.take_append_of_le_length hle, List.take_take,
        Nat.min_self] at hstart
      exact hstart
    · rintro rfl
      have hrest := hwin rfl
      rw [show unitSize true = 1 from rfl, Nat.one_mul, htake] at hrest
      rw [List.flatMap_cons, List.length_append, ← Nat.add_assoc, hrest, List.append_assoc]

/-! ## Reading -/

theorem decode_cons {u : UInt16} {ptr : List UInt16} {turns : Nat} {decode : StrStringDecode}
    (h : strDecodeUtf16 (u :: ptr) (u :: ptr).length = some decode) :
    decodeUtf16All (turns + 1) (u :: ptr) =
      (decodeUtf16All turns ((u :: ptr).drop decode.size.toNat)).map (decode.codepoint :: ·) := by
  rw [decodeUtf16All, h, Option.bind_eq_bind, Option.bind_some]
  cases decodeUtf16All turns ((u :: ptr).drop decode.size.toNat) <;> rfl

theorem decode_size {str : List UInt16} {cap : Nat} {decode : StrStringDecode}
    (h : strDecodeUtf16 str cap = some decode) : decode.size.toNat ≤ 2 := by
  have hone : (1 : UInt32).toNat ≤ 2 := by decide
  have htwo : (2 : UInt32).toNat ≤ 2 := by decide
  unfold strDecodeUtf16 decodeUnits at h
  cases str with
  | nil => cases h
  | cons x rest =>
    dsimp only at h
    split at h
    · cases h
      exact hone
    · split at h
      · obtain ⟨y, -, hy⟩ := Option.map_eq_some_iff.mp h
        rw [← hy]
        split
        · exact htwo
        · exact hone
      · cases h
        exact hone

theorem length_le_decoded {turns : Nat} {str : List UInt16} {codepoints : List UInt32}
    (h : decodeUtf16All turns str = some codepoints) : str.length ≤ 2 * codepoints.length := by
  induction turns generalizing str codepoints with
  | zero =>
    cases str with
    | nil => exact Nat.zero_le _
    | cons u ptr => cases h
  | succ turns ih =>
    cases str with
    | nil => exact Nat.zero_le _
    | cons u ptr =>
      cases hd : strDecodeUtf16 (u :: ptr) (u :: ptr).length with
      | none =>
        rw [decodeUtf16All, hd] at h
        cases h
      | some decode =>
        rw [decode_cons hd] at h
        obtain ⟨rest, hrest, rfl⟩ := Option.map_eq_some_iff.mp h
        have hlen := ih hrest
        have hsize := decode_size hd
        rw [List.length_drop] at hlen
        have hrestlen : (decode.codepoint :: rest).length = rest.length + 1 := rfl
        omega

/-- The count of the units that are left is a `u32`: where it wraps to less than 2, no pair is read. -/
def PairsInCap (cps : List Char) : Prop :=
  ∀ cp rest, cp :: rest <:+ cps → Supplementary cp → 2 ≤ ((cp :: rest).flatMap utf16Units).length % 2 ^ 32

theorem pairsInCap_cons {cp : Char} {cps : List Char} :
    PairsInCap (cp :: cps) ↔
      (Supplementary cp → 2 ≤ ((cp :: cps).flatMap utf16Units).length % 2 ^ 32) ∧ PairsInCap cps := by
  constructor
  · intro h
    exact ⟨h cp cps List.suffix_rfl, fun cp' rest hsuf => h cp' rest (hsuf.trans (List.suffix_cons cp cps))⟩
  · rintro ⟨hcp, hcps⟩ cp' rest hsuf hsup
    rcases List.suffix_cons_iff.mp hsuf with heq | hsuf'
    · cases heq
      exact hcp hsup
    · exact hcps cp' rest hsuf' hsup

theorem decode_behind {cp : Char} {behind : List UInt16} {turns : Nat} {decode : StrStringDecode}
    (h : strDecodeUtf16 (utf16Units cp ++ behind) (utf16Units cp ++ behind).length = some decode) :
    decodeUtf16All (turns + 1) (utf16Units cp ++ behind) =
      (decodeUtf16All turns ((utf16Units cp ++ behind).drop decode.size.toNat)).map (decode.codepoint :: ·) := by
  obtain ⟨u, units, hunits⟩ := List.exists_cons_of_ne_nil (List.length_pos_iff.mp (units_length_pos cp))
  rw [hunits, List.cons_append] at h ⊢
  exact decode_cons h

/-- A character in front of other units comes back unless it is a pair and the count of the units wraps. -/
theorem decode_first_iff {cp : Char} {behind : List UInt16} {codepoints : List UInt32} {turns : Nat} :
    decodeUtf16All (turns + 1) (utf16Units cp ++ behind) = some (cp.val :: codepoints) ↔
      (Supplementary cp → 2 ≤ (utf16Units cp ++ behind).length % 2 ^ 32) ∧
        decodeUtf16All turns behind = some codepoints := by
  have hmap : ∀ r : Option (List UInt32), r.map (cp.val :: ·) = some (cp.val :: codepoints) ↔ r = some codepoints := by
    intro r
    cases r <;> simp
  by_cases hsup : Supplementary cp
  · have hlen : (utf16Units cp).length = 2 := by rw [units_length, if_pos hsup]
    have hd := decode_supplementary hsup behind (utf16Units cp ++ behind).length
    by_cases hcap : 2 ≤ (utf16Units cp ++ behind).length % 2 ^ 32
    · rw [if_pos hcap] at hd
      rw [decode_behind hd, show (2 : UInt32).toNat = (utf16Units cp).length from hlen.symm, List.drop_left, hmap]
      exact (and_iff_right fun _ => hcap).symm
    · rw [if_neg hcap] at hd
      rw [decode_behind hd]
      constructor
      · intro h
        obtain ⟨rest, -, hrest⟩ := Option.map_eq_some_iff.mp h
        -- the replacement character is no supplementary one
        have hval : (chr '#').toUInt32 = cp.val := (List.cons.inj hrest).1
        unfold Supplementary at hsup
        rw [← hval] at hsup
        exact absurd hsup (by decide)
      · intro h
        exact absurd (h.1 hsup) hcap
  · have hlen : (utf16Units cp).length = 1 := by rw [units_length, if_neg hsup]
    have hd := decode_bmp hsup behind (utf16Units cp ++ behind).length
    rw [decode_behind hd, show (1 : UInt32).toNat = (utf16Units cp).length from hlen.symm, List.drop_left, hmap]
    exact (and_iff_right fun h => absurd h hsup).symm

theorem decode_units_iff {cps : List Char} {turns : Nat} (hturns : (cps.flatMap utf16Units).length ≤ turns) :
    decodeUtf16All turns (cps.flatMap utf16Units) = some (cps.map Char.val) ↔ PairsInCap cps := by
  induction cps generalizing turns with
  | nil =>
    refine ⟨fun _ cp rest hsuf => ?_, fun _ => ?_⟩
    · exact absurd (List.suffix_nil.mp hsuf) (List.cons_ne_nil _ _)
    · cases turns <;> rfl
  | cons cp cps ih =>
    have hpos := units_length_pos cp
    rw [List.flatMap_cons, List.length_append] at hturns
    cases turns with
    | zero => omega
    | succ turns =>
      rw [List.flatMap_cons, List.map_cons, decode_first_iff, ih (by omega), pairsInCap_cons, List.flatMap_cons]

/-! ## The round trip -/

theorem units_bounds (cps : List Char) :
    cps.length ≤ (cps.flatMap utf16Units).length ∧ (cps.flatMap utf16Units).length ≤ 2 * cps.length := by
  induction cps with
  | nil => exact ⟨Nat.zero_le _, Nat.zero_le _⟩
  | cons cp cps ih =>
    have hpos := units_length_pos cp
    have hle := units_length_le cp
    rw [List.flatMap_cons, List.length_append, List.length_cons]
    omega

/-- Old units behind a character are read as further ones. -/
theorem not_decode_bytes {cp : Char} {cps : List Char} {memory memory' : List UInt16} {dptr turns : Nat}
    (hroom : 0 + 4 * (cp :: cps).length ≤ memory.length)
    (hencode : encodeUtf16All false (cp :: cps) memory 0 = some (memory', dptr)) :
    decodeUtf16All turns (memory'.take dptr) ≠ some ((cp :: cps).map Char.val) := by
  intro hdecode
  obtain ⟨memory₁, hlen₁, htake, hcons, hroom₁⟩ := encode_cons false hroom
  obtain ⟨memory₂, hrest, hbefore, hlen₂, -⟩ := encode_spec false hroom₁
  rw [hcons, hrest] at hencode
  obtain ⟨rfl, hdptr⟩ := Prod.mk.inj (Option.some.inj hencode)
  have hfirst := (take_of_take (first_le false cp 0) hbefore).trans htake
  rw [show unitSize false = 2 from rfl, Nat.zero_add] at hdptr
  rw [List.take_zero, List.nil_append, Nat.zero_add] at hfirst
  rw [Nat.zero_add, List.length_cons] at hroom
  have hle := units_length_le cp
  have hpos := units_length_pos cp
  obtain ⟨hmany, hmost⟩ := units_bounds cps
  have htext : (memory₂.take dptr).take (utf16Units cp).length = utf16Units cp := by
    rw [List.take_take, Nat.min_eq_left (by omega), hfirst]
  have hsplit : memory₂.take dptr = utf16Units cp ++ (memory₂.take dptr).drop (utf16Units cp).length := by
    calc memory₂.take dptr
        = (memory₂.take dptr).take (utf16Units cp).length ++ (memory₂.take dptr).drop (utf16Units cp).length :=
          (List.take_append_drop _ _).symm
      _ = utf16Units cp ++ (memory₂.take dptr).drop (utf16Units cp).length := by rw [htext]
  have hlen : ((memory₂.take dptr).drop (utf16Units cp).length).length = dptr - (utf16Units cp).length := by
    rw [List.length_drop, List.length_take]
    omega
  rw [hsplit] at hdecode
  cases turns with
  | zero =>
    obtain ⟨u, units, hunits⟩ := List.exists_cons_of_ne_nil (List.length_pos_iff.mp hpos)
    rw [hunits] at hdecode
    cases hdecode
  | succ turns =>
    rw [List.map_cons] at hdecode
    have hbehind := length_le_decoded (decode_first_iff.mp hdecode).2
    rw [hlen, List.length_map] at hbehind
    omega

theorem utf16RoundTrip_iff (osWin : Bool) (stale : Nat → UInt16) (cps : List Char) :
    Utf16RoundTrip osWin stale cps ↔ cps = [] ∨ (osWin = true ∧ PairsInCap cps) := by
  have hroom : 0 + 4 * cps.length ≤ ((List.range (cps.length * 4 + 2)).map stale).length := by
    rw [List.length_map, List.length_range]
    omega
  constructor
  · rintro ⟨memory, dptr, hencode, hdecode⟩
    cases cps with
    | nil => exact Or.inl rfl
    | cons cp cps =>
      cases osWin with
      | false => exact absurd hdecode (not_decode_bytes hroom hencode)
      | true =>
        obtain ⟨memory', hencode', -, -, hwin⟩ := encode_spec true hroom
        rw [hencode'] at hencode
        obtain ⟨rfl, rfl⟩ := Prod.mk.inj (Option.some.inj hencode)
        rw [show unitSize true = 1 from rfl, Nat.one_mul, hwin rfl, List.take_zero, List.nil_append, Nat.zero_add,
          decode_units_iff (Nat.le_refl _)] at hdecode
        exact Or.inr ⟨rfl, hdecode⟩
  · rintro (rfl | ⟨rfl, hpairs⟩)
    · exact ⟨_, 0, rfl, rfl⟩
    · obtain ⟨memory', hencode, -, -, hwin⟩ := encode_spec true hroom
      refine ⟨memory', _, hencode, ?_⟩
      rw [show unitSize true = 1 from rfl, Nat.one_mul, hwin rfl, List.take_zero, List.nil_append, Nat.zero_add]
      exact (decode_units_iff (Nat.le_refl _)).mpr hpairs

theorem not_utf16RoundTrip : ¬ Utf16RoundTrip false (fun _ => 0) ['a'] := by
  rintro ⟨memory, dptr, hencode, hdecode⟩
  have hblock : encodeUtf16All false ['a'] ((List.range (['a'].length * 4 + 2)).map fun _ => 0) 0 =
      some ([97, 0, 0, 0, 0, 0], 2) := by decide
  rw [hblock] at hencode
  cases hencode
  have htwo : decodeUtf16All 2 [97, 0] = some [97, 0] := by decide
  exact absurd (htwo.symm.trans hdecode) (by decide)

end CWebServer
