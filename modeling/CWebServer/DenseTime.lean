import Mathlib.Algebra.Group.Int.Defs
import Mathlib.Algebra.Group.Nat.Defs
import CWebServer.Lib.Checked
import CWebServer.Lib.MixedRadix

/-!
# Dates and dense time

`tm_toDenseTime` packs a date into a `u64` with mixed radices and
`tm_fromDenseTime` unpacks it. A date survives if its fields lie below their
radices, which the dates taken from a clock do not always.
-/

namespace CWebServer

structure DateTime where
  milliSecond : UInt16
  second : UInt8
  minute : UInt8
  hour : UInt8
  day : UInt8
  month : UInt8
  year : Int16
  deriving DecidableEq, Repr

structure DenseTime where
  value : UInt64
  deriving DecidableEq, Repr

def tmToDenseTime (input : DateTime) : DenseTime :=
  let yearEncode : UInt32 := (input.year.toInt32 + 0x8000).toUInt32
  let result : UInt64 := 0
  let result := result + yearEncode.toUInt64
  let result := result * 12
  let result := result + input.month.toUInt64
  let result := result * 31
  let result := result + input.day.toUInt64
  let result := result * 24
  let result := result + input.hour.toUInt64
  let result := result * 60
  let result := result + input.minute.toUInt64
  let result := result * 61
  let result := result + input.second.toUInt64
  let result := result * 1000
  let result := result + input.milliSecond.toUInt64
  ⟨result⟩

def tmFromDenseTime (denseTime : DenseTime) : DateTime :=
  let input := denseTime.value
  let milliSecond := (input % 1000).toUInt16
  let input := input / 1000
  let second := (input % 61).toUInt8
  let input := input / 61
  let minute := (input % 60).toUInt8
  let input := input / 60
  let hour := (input % 24).toUInt8
  let input := input / 24
  let day := (input % 31).toUInt8
  let input := input / 31
  let month := (input % 12).toUInt8
  let input := input / 12
  let yearEncoded : Int32 := input.toUInt32.toInt32
  { milliSecond, second, minute, hour, day, month, year := (yearEncoded - 0x8000).toInt16 }

/-! ## Dates as digits -/

def dateRadices : List Nat := [12, 31, 24, 60, 61, 1000]

namespace DateTime

/-- The ranges documented at the fields. -/
structure InRange (d : DateTime) : Prop where
  milliSecond : d.milliSecond ≤ 999
  second : d.second ≤ 60
  minute : d.minute ≤ 59
  hour : d.hour ≤ 23
  day : d.day ≤ 30
  month : d.month ≤ 11

def digits (d : DateTime) : List Nat :=
  [d.month.toNat, d.day.toNat, d.hour.toNat, d.minute.toNat, d.second.toNat, d.milliSecond.toNat]

/-- `a` comes before `b`: the first field in which they differ, from the year down, decides. -/
def Before (a b : DateTime) : Prop := a.year < b.year ∨ a.year = b.year ∧ a.digits < b.digits

def yearEncode (d : DateTime) : Nat := (d.year.toInt + 0x8000).toNat

/-- The values of `result` in `tm_toDenseTime`, without a bound on them. -/
def denseSteps (d : DateTime) : List Nat := d.yearEncode :: MixedRadix.steps dateRadices d.yearEncode d.digits

theorem inRange_iff (d : DateTime) : d.InRange ↔ MixedRadix.Digits d.digits dateRadices := by
  simp only [MixedRadix.Digits, digits, dateRadices, List.forall₂_cons, List.Forall₂.nil, and_true]
  constructor
  · rintro ⟨hms, hs, hmin, hh, hd, hmon⟩
    exact ⟨Nat.lt_succ_of_le hmon, Nat.lt_succ_of_le hd, Nat.lt_succ_of_le hh, Nat.lt_succ_of_le hmin,
      Nat.lt_succ_of_le hs, Nat.lt_succ_of_le hms⟩
  · rintro ⟨hmon, hd, hh, hmin, hs, hms⟩
    exact ⟨Nat.le_of_lt_succ hms, Nat.le_of_lt_succ hs, Nat.le_of_lt_succ hmin, Nat.le_of_lt_succ hh,
      Nat.le_of_lt_succ hd, Nat.le_of_lt_succ hmon⟩

theorem yearEncode_cast (d : DateTime) : (d.yearEncode : Int) = d.year.toInt + 0x8000 := by
  have := d.year.le_toInt
  exact Int.toNat_of_nonneg (by omega)

theorem yearEncode_lt (d : DateTime) : d.yearEncode < 65536 := by
  have := d.year.toInt_lt
  have := d.yearEncode_cast
  omega

theorem yearEncode_lt_iff (a b : DateTime) : a.yearEncode < b.yearEncode ↔ a.year < b.year := by
  have ha := a.yearEncode_cast
  have hb := b.yearEncode_cast
  rw [Int16.lt_iff_toInt_lt]
  omega

theorem yearEncode_inj {a b : DateTime} : a.yearEncode = b.yearEncode ↔ a.year = b.year := by
  have ha := a.yearEncode_cast
  have hb := b.yearEncode_cast
  rw [← Int16.toInt_inj]
  omega

/-- A date whose fields fill their types still takes 15 digits at most. -/
theorem value_lt (d : DateTime) : MixedRadix.value dateRadices d.yearEncode d.digits < 2 ^ 64 := by
  have := d.yearEncode_lt
  have := d.month.toNat_lt
  have := d.day.toNat_lt
  have := d.hour.toNat_lt
  have := d.minute.toNat_lt
  have := d.second.toNat_lt
  have := d.milliSecond.toNat_lt
  simp only [dateRadices, digits, MixedRadix.value]
  omega

theorem denseSteps_lt (d : DateTime) : ∀ n ∈ d.denseSteps, n < 2 ^ 64 := by
  have hr : ∀ r ∈ dateRadices, 0 < r := by simp [dateRadices]
  intro n hn
  apply Nat.lt_of_le_of_lt _ d.value_lt
  rcases List.mem_cons.mp hn with rfl | hn
  · exact MixedRadix.le_value hr _ _
  · exact MixedRadix.steps_le_value hr n hn

end DateTime

theorem yearEncode_toNat (d : DateTime) : (d.year.toInt32 + 0x8000).toUInt32.toNat = d.yearEncode := by
  have := d.year.le_toInt
  have := d.year.toInt_lt
  have hsum : (d.year.toInt32 + 0x8000).toInt = d.year.toInt + 0x8000 := by
    rw [Int32.toInt_add, Int16.toInt_toInt32]
    exact Int.bmod_eq_of_le (by simp; omega) (by simp; omega)
  have hnonneg : 0 ≤ (d.year.toInt32 + 0x8000).toInt := by
    rw [hsum]
    omega
  rw [Checked.toNat_toUInt32 hnonneg, hsum]
  rfl

theorem toDenseTime_value (d : DateTime) :
    (tmToDenseTime d).value.toNat = MixedRadix.value dateRadices d.yearEncode d.digits := by
  have hlt := d.value_lt
  rw [← Nat.mod_eq_of_lt hlt]
  simp only [tmToDenseTime, dateRadices, DateTime.digits, MixedRadix.value, UInt64.toNat_add, UInt64.toNat_mul,
    UInt64.reduceToNat, UInt64.toNat_zero, UInt32.toNat_toUInt64, UInt16.toNat_toUInt64, UInt8.toNat_toUInt64,
    yearEncode_toNat, Nat.zero_add, Nat.mod_add_mod, Nat.mod_mul_mod]

theorem fromDenseTime_digits (t : DenseTime) :
    (tmFromDenseTime t).digits = (MixedRadix.decode dateRadices t.value.toNat).1 := by
  simp [tmFromDenseTime, dateRadices, DateTime.digits, MixedRadix.decode, Nat.div_div_eq_div_mul]
  omega

theorem fromDenseTime_year (t : DenseTime) :
    (tmFromDenseTime t).year =
      ((UInt64.ofNat (MixedRadix.decode dateRadices t.value.toNat).2).toUInt32.toInt32 - 0x8000).toInt16 := by
  have h : UInt64.ofNat (MixedRadix.decode dateRadices t.value.toNat).2 =
      t.value / 1000 / 61 / 60 / 24 / 31 / 12 := by
    rw [← UInt64.toNat_inj]
    simp [dateRadices, MixedRadix.decode, Nat.div_div_eq_div_mul]
    exact Nat.lt_of_le_of_lt (Nat.div_le_self _ _) t.value.toNat_lt
  rw [h]
  rfl

theorem fromDenseTime_inRange (t : DenseTime) : (tmFromDenseTime t).InRange := by
  rw [DateTime.inRange_iff, fromDenseTime_digits]
  apply MixedRadix.digits_decode
  simp [dateRadices]

theorem DateTime.ext_digits {a b : DateTime} (hyear : a.year = b.year) (hdigits : a.digits = b.digits) : a = b := by
  cases a
  cases b
  simp only [digits, List.cons.injEq, UInt8.toNat_inj, UInt16.toNat_inj, and_true] at hdigits
  obtain ⟨hmonth, hday, hhour, hminute, hsecond, hms⟩ := hdigits
  simp only at hyear
  subst hyear hmonth hday hhour hminute hsecond hms
  rfl

theorem fromDenseTime_toDenseTime {d : DateTime} (h : d.InRange) : tmFromDenseTime (tmToDenseTime d) = d := by
  have hdecode := MixedRadix.decode_value (d.inRange_iff.mp h) d.yearEncode
  rw [← toDenseTime_value] at hdecode
  apply DateTime.ext_digits
  · have hsub : d.year.toInt32 + 0x8000 - 0x8000 = d.year.toInt32 := Int32.add_sub_cancel _ _
    rw [fromDenseTime_year, hdecode, ← yearEncode_toNat, UInt64.ofNat_uInt32ToNat, UInt32.toUInt32_toUInt64,
      Int32.toInt32_toUInt32, hsub, Int16.toInt16_toInt32]
  · rw [fromDenseTime_digits, hdecode]

theorem survives_iff (d : DateTime) : tmFromDenseTime (tmToDenseTime d) = d ↔ d.InRange := by
  refine ⟨fun h => ?_, fromDenseTime_toDenseTime⟩
  rw [← h]
  exact fromDenseTime_inRange _

theorem denseSteps_getLast? (d : DateTime) : d.denseSteps.getLast? = some (tmToDenseTime d).value.toNat := by
  rw [toDenseTime_value]
  exact MixedRadix.getLast?_steps _ _ _

theorem toDenseTime_lt_iff {a b : DateTime} (ha : a.InRange) (hb : b.InRange) :
    (tmToDenseTime a).value < (tmToDenseTime b).value ↔ a.Before b := by
  rw [UInt64.lt_iff_toNat_lt, toDenseTime_value, toDenseTime_value,
    MixedRadix.value_lt_iff (a.inRange_iff.mp ha) (b.inRange_iff.mp hb), DateTime.yearEncode_lt_iff,
    DateTime.yearEncode_inj]
  rfl

theorem denseTime_faithful {a b : DateTime} (ha : a.InRange) (hb : b.InRange) :
    tmFromDenseTime (tmToDenseTime a) = a ∧
      ((tmToDenseTime a).value < (tmToDenseTime b).value ↔ a.Before b) ∧
      a.denseSteps.getLast? = some (tmToDenseTime a).value.toNat ∧ ∀ n ∈ a.denseSteps, n < 2 ^ 64 := by
  refine ⟨fromDenseTime_toDenseTime ha, toDenseTime_lt_iff ha hb, denseSteps_getLast? a, ?_⟩
  exact a.denseSteps_lt

def newYearsEve : DateTime := ⟨999, 60, 59, 23, 30, 11, -1⟩

def newYear : DateTime := ⟨0, 0, 0, 0, 0, 0, 0⟩

theorem denseTime_newYear :
    newYearsEve.InRange ∧ newYear.InRange ∧ tmFromDenseTime (tmToDenseTime newYearsEve) = newYearsEve ∧
      ((tmToDenseTime newYearsEve).value < (tmToDenseTime newYear).value ↔ newYearsEve.Before newYear) ∧
      newYearsEve.denseSteps.getLast? = some (tmToDenseTime newYearsEve).value.toNat ∧
      ∀ n ∈ newYearsEve.denseSteps, n < 2 ^ 64 := by
  have hEve : newYearsEve.InRange := by constructor <;> decide
  have hDay : newYear.InRange := by constructor <;> decide
  exact ⟨hEve, hDay, denseTime_faithful hEve hDay⟩

/-! ## Dates taken from a clock -/

/-- `struct tm`, less the fields that nothing here reads. -/
structure Tm where
  tmSec : Int32
  tmMin : Int32
  tmHour : Int32
  tmMday : Int32
  tmMon : Int32
  tmYear : Int32

structure Timespec where
  tvSec : Int64
  tvNsec : Int64

/-- The conversion of an `int` to a `u8`. -/
def u8OfInt (n : Int32) : UInt8 := n.toUInt32.toUInt8

def roundVal (a b : Int64) : Int64 := a / b + if a % b ≥ 5 then 1 else 0

/-- The minute stays as the initializer has it. -/
def tmNow (brokenDown : Int64 → Tm) (spec : Timespec) : DateTime :=
  let res := brokenDown spec.tvSec
  { year := res.tmYear.toInt16
    month := u8OfInt res.tmMon
    day := u8OfInt res.tmMday
    hour := u8OfInt res.tmHour
    minute := 0
    second := u8OfInt res.tmSec
    milliSecond := (roundVal spec.tvNsec 1000000).toUInt64.toUInt16 }

/-- `gmtimeR` is `gmtime_r`, `spec` what `clock_gettime` reports. -/
def tmNowGm (gmtimeR : Int64 → Tm) (spec : Timespec) : DateTime := tmNow gmtimeR spec

def tmNowLocal (localtimeR : Int64 → Tm) (spec : Timespec) : DateTime := tmNow localtimeR spec

def osPosixDateTimeFromSystemTime (input : Tm) (ms : UInt16) : DateTime :=
  { year := input.tmYear.toInt16
    month := u8OfInt input.tmMon
    day := u8OfInt input.tmMday
    hour := u8OfInt input.tmHour
    minute := u8OfInt input.tmMin
    second := u8OfInt input.tmSec
    milliSecond := ms }

/-- The values of a broken-down time, with a year that a date can hold. -/
structure Tm.Posix (tt : Tm) : Prop where
  sec : 0 ≤ tt.tmSec.toInt ∧ tt.tmSec.toInt ≤ 60
  min : 0 ≤ tt.tmMin.toInt ∧ tt.tmMin.toInt ≤ 59
  hour : 0 ≤ tt.tmHour.toInt ∧ tt.tmHour.toInt ≤ 23
  mday : 1 ≤ tt.tmMday.toInt ∧ tt.tmMday.toInt ≤ 31
  mon : 0 ≤ tt.tmMon.toInt ∧ tt.tmMon.toInt ≤ 11
  year : -2 ^ 15 ≤ tt.tmYear.toInt ∧ tt.tmYear.toInt < 2 ^ 15

def Timespec.Posix (spec : Timespec) : Prop := 0 ≤ spec.tvNsec.toInt ∧ spec.tvNsec.toInt ≤ 999999999

def DateTime.Survives (d : DateTime) : Prop := d.InRange ∧ tmFromDenseTime (tmToDenseTime d) = d

/-- All dates that the three functions build from `tt` survive. -/
def ClockDatesSurvive (tt : Tm) (spec : Timespec) : Prop :=
  (osPosixDateTimeFromSystemTime tt (spec.tvNsec / 1000000).toUInt64.toUInt16).Survives ∧
    ∀ brokenDown : Int64 → Tm, brokenDown spec.tvSec = tt →
      (tmNowGm brokenDown spec).Survives ∧ (tmNowLocal brokenDown spec).Survives

theorem DateTime.survives_iff (d : DateTime) : d.Survives ↔ d.InRange :=
  ⟨fun h => h.1, fun h => ⟨h, fromDenseTime_toDenseTime h⟩⟩

theorem u8OfInt_toNat {n : Int32} (h : 0 ≤ n.toInt) (hlt : n.toInt < 256) : (u8OfInt n).toNat = n.toInt.toNat := by
  rw [u8OfInt, UInt32.toNat_toUInt8, Checked.toNat_toUInt32 h]
  exact Nat.mod_eq_of_lt (by omega)

theorem u8OfInt_le {n : Int32} (h : 0 ≤ n.toInt) (hlt : n.toInt < 256) (b : UInt8) :
    u8OfInt n ≤ b ↔ n.toInt ≤ b.toNat := by
  rw [UInt8.le_iff_toNat_le, u8OfInt_toNat h hlt]
  omega

theorem milliSecond_le {n : Int64} {m : Int} (hn : n.toInt = m) (h : 0 ≤ m) (hlt : m < 2 ^ 16) :
    n.toUInt64.toUInt16 ≤ 999 ↔ m ≤ 999 := by
  have hle : 0 ≤ n := by
    rw [Int64.le_iff_toInt_le, hn]
    exact h
  rw [UInt16.le_iff_toNat_le, UInt64.toNat_toUInt16, Int64.toNat_toUInt64_of_le hle, Int64.toNatClampNeg, hn,
    Nat.mod_eq_of_lt (by omega)]
  simp

section
variable {spec : Timespec} (hspec : spec.Posix)
include hspec

theorem toInt_milliSeconds : (spec.tvNsec / 1000000).toInt = spec.tvNsec.toInt / 1000000 := by
  obtain ⟨h0, hmax⟩ := hspec
  rw [Int64.toInt_div, show (1000000 : Int64).toInt = 1000000 from rfl, Int.tdiv_eq_ediv_of_nonneg h0]
  exact Int.bmod_eq_of_le (by omega) (by omega)

theorem toInt_roundVal : (roundVal spec.tvNsec 1000000).toInt =
    spec.tvNsec.toInt / 1000000 + if spec.tvNsec.toInt % 1000000 ≥ 5 then 1 else 0 := by
  obtain ⟨h0, hmax⟩ := hspec
  have hmod : spec.tvNsec % 1000000 ≥ 5 ↔ spec.tvNsec.toInt % 1000000 ≥ 5 := by
    rw [ge_iff_le, Int64.le_iff_toInt_le, Int64.toInt_mod, show (1000000 : Int64).toInt = 1000000 from rfl,
      Int.tmod_eq_emod_of_nonneg h0]
    rfl
  rw [roundVal, Int64.toInt_add, toInt_milliSeconds ⟨h0, hmax⟩]
  by_cases h : spec.tvNsec.toInt % 1000000 ≥ 5
  · rw [if_pos (hmod.mpr h), if_pos h, show (1 : Int64).toInt = 1 from rfl]
    exact Int.bmod_eq_of_le (by omega) (by omega)
  · rw [if_neg (fun h' => h (hmod.mp h')), if_neg h, show (0 : Int64).toInt = 0 from rfl]
    exact Int.bmod_eq_of_le (by omega) (by omega)

/-- The fraction of a millisecond rounds up from 5 ns on, to 1000 ms at the end of a second. -/
theorem roundVal_le_iff : (roundVal spec.tvNsec 1000000).toUInt64.toUInt16 ≤ 999 ↔
    spec.tvNsec.toInt < 999000005 := by
  have hround := toInt_roundVal hspec
  obtain ⟨h0, hmax⟩ := hspec
  rw [milliSecond_le hround (by split <;> omega) (by split <;> omega)]
  split <;> omega

theorem truncated_le : (spec.tvNsec / 1000000).toUInt64.toUInt16 ≤ 999 := by
  have htrunc := toInt_milliSeconds hspec
  obtain ⟨h0, hmax⟩ := hspec
  rw [milliSecond_le htrunc (by omega) (by omega)]
  omega

end

section
variable {tt : Tm} (ht : tt.Posix)
include ht

theorem osPosixDateTime_inRange (ms : UInt16) :
    (osPosixDateTimeFromSystemTime tt ms).InRange ↔ tt.tmMday.toInt ≤ 30 ∧ ms ≤ 999 := by
  obtain ⟨⟨hs0, hs⟩, ⟨hmin0, hmin⟩, ⟨hh0, hh⟩, ⟨hd0, hd⟩, ⟨hmon0, hmon⟩, -⟩ := ht
  have hday := u8OfInt_le (n := tt.tmMday) (by omega) (by omega) 30
  constructor
  · rintro ⟨hms, -, -, -, hrange, -⟩
    exact ⟨hday.mp hrange, hms⟩
  · rintro ⟨hle, hms⟩
    refine ⟨hms, ?_, ?_, ?_, hday.mpr hle, ?_⟩
    · exact (u8OfInt_le hs0 (by omega) 60).mpr hs
    · exact (u8OfInt_le hmin0 (by omega) 59).mpr hmin
    · exact (u8OfInt_le hh0 (by omega) 23).mpr hh
    · exact (u8OfInt_le hmon0 (by omega) 11).mpr hmon

/-- `tm_nowGm` and `tm_nowLocal` build the date of a broken-down time whose minute is 0. -/
theorem tmNow_inRange {brokenDown : Int64 → Tm} {spec : Timespec} (hb : brokenDown spec.tvSec = tt) :
    (tmNow brokenDown spec).InRange ↔
      tt.tmMday.toInt ≤ 30 ∧ (roundVal spec.tvNsec 1000000).toUInt64.toUInt16 ≤ 999 := by
  have hzero : ({ tt with tmMin := 0 } : Tm).Posix := { ht with min := by simp }
  have h := osPosixDateTime_inRange hzero (roundVal spec.tvNsec 1000000).toUInt64.toUInt16
  unfold tmNow
  rw [hb]
  exact h

end

theorem clockDatesSurvive_iff {tt : Tm} (ht : tt.Posix) {spec : Timespec} (hspec : spec.Posix) :
    ClockDatesSurvive tt spec ↔ tt.tmMday.toInt ≤ 30 ∧ spec.tvNsec.toInt < 999000005 := by
  unfold ClockDatesSurvive tmNowGm tmNowLocal
  simp only [DateTime.survives_iff, osPosixDateTime_inRange ht, and_self]
  constructor
  · rintro ⟨-, hnow⟩
    have h := (tmNow_inRange ht rfl).mp (hnow (fun _ => tt) rfl)
    exact ⟨h.1, (roundVal_le_iff hspec).mp h.2⟩
  · rintro ⟨hday, hnsec⟩
    refine ⟨⟨hday, truncated_le hspec⟩, fun brokenDown hb => ?_⟩
    exact (tmNow_inRange ht hb).mpr ⟨hday, (roundVal_le_iff hspec).mpr hnsec⟩

def lastOfJanuary : Tm := { tmSec := 0, tmMin := 30, tmHour := 12, tmMday := 31, tmMon := 0, tmYear := 126 }

theorem lastOfJanuary_posix : lastOfJanuary.Posix := by constructor <;> decide

theorem clockDates_lastOfJanuary :
    lastOfJanuary.Posix ∧ Timespec.Posix ⟨0, 0⟩ ∧ ¬ ClockDatesSurvive lastOfJanuary ⟨0, 0⟩ := by
  refine ⟨lastOfJanuary_posix, by constructor <;> decide, fun h => ?_⟩
  have hday := h.1.1.day
  revert hday
  decide

theorem clockDatesSurvive_thirtieth : ClockDatesSurvive { lastOfJanuary with tmMday := 30 } ⟨0, 999000004⟩ := by
  have hspec : Timespec.Posix ⟨0, 999000004⟩ := by constructor <;> decide
  have ht : Tm.Posix { lastOfJanuary with tmMday := 30 } := { lastOfJanuary_posix with mday := by decide }
  exact (clockDatesSurvive_iff ht hspec).mpr (by decide)

end CWebServer
