import CWebServer.ArenaSteps
import CWebServer.Numerals
import Mathlib.Data.List.Forall2

/-!
# Joining is concatenation

Joins in records at any depth return the texts of their arguments, and each
record the texts of all joins within. The space that a join needs is more than
its text, as the number of a `u32` takes ten bytes before the rest is popped.
-/

namespace CWebServer

inductive PlainValue
  | str (strVal : List UInt8)
  | char (charVal : UInt8)
  | u32 (u32Val : UInt32)
  | u64 (u64Val : UInt64)
  | i32 (i32Val : Int32)
  | i64 (i64Val : Int64)
  deriving DecidableEq, Repr

namespace PlainValue

def toStrValue : PlainValue → StrValue
  | str strVal => .str strVal
  | char charVal => .char charVal
  | u32 u32Val => .u32 u32Val.toNat
  | u64 u64Val => .u64 u64Val.toNat
  | i32 i32Val => .i32 i32Val.toInt
  | i64 i64Val => .i64 i64Val.toInt

def render : PlainValue → List UInt8
  | str strVal => strVal
  | char charVal => [charVal]
  | u32 u32Val => s8 (toString u32Val.toNat)
  | u64 u64Val => s8 (toString u64Val.toNat)
  | i32 i32Val => s8 (toString i32Val.toInt)
  | i64 i64Val => s8 (toString i64Val.toInt)

/-- The bytes that are pushed, of which a number of 32 bits keeps its digits. -/
def peak : PlainValue → Nat
  | u32 u32Val => if u32Val.toNat = 0 then 1 else 10
  | i32 i32Val => (if i32Val.toInt < 0 then 1 else 0) + if i32Val.toInt = 0 then 1 else 10
  | value => value.render.length

end PlainValue

def argsText (args : List PlainValue) : List UInt8 := args.flatMap PlainValue.render

def argsPeak : List PlainValue → Nat
  | [] => 0
  | arg :: args => max arg.peak (arg.render.length + argsPeak args)

/-! ## Writers that fail for want of space -/

/-- `f` writes `t`, and faults where there is no room for `peak` bytes. -/
structure Exact (limit : Nat) (f : Arena → Option Arena) (t : List UInt8) (peak : Nat) : Prop
    extends Writes f t peak where
  fault : ∀ arena, Recording arena 0 → arena.cap + limit < 2 ^ 64 → arena.cap < arena.pos + peak → f arena = none

variable {limit m n : Nat} {f g : Arena → Option Arena} {t u : List UInt8}

theorem exact_nil : Exact limit some [] 0 where
  toWrites := writes_nil
  fault := by
    intro arena h _ hover
    exact absurd h.room (Nat.not_le.mpr hover)

theorem Exact.bind (hf : Exact limit f t m) (hg : Exact limit g u n) :
    Exact limit (fun arena => f arena >>= g) (t ++ u) (max m (t.length + n)) where
  toWrites := hf.toWrites.bind hg.toWrites
  fault := by
    intro arena h hlimit hover
    by_cases hm : arena.cap < arena.pos + m
    · rw [hf.fault arena h hlimit hm]
      rfl
    · have hroom : Recording arena m := { h with room := Nat.not_lt.mp hm }
      obtain ⟨c, hc⟩ := hf.run arena hroom
      rw [hc]
      apply hg.fault
      · exact (hroom.mono hf.length_le).append c
      · exact hlimit
      · show arena.cap < arena.pos + t.length + n
        omega

theorem push_fault {arena : Arena} {size : Nat} (h : Recording arena 0) (hw : arena.cap + size < 2 ^ 64)
    (hover : arena.cap < arena.pos + size) : memArenaPush arena size = (none, arena) := by
  have hroom := h.room
  have hrec : ¬ (arena.unsafeRecord = 0 ∧ 1 < arena.alignment) := by
    have := h.record
    omega
  have hwrap : wrap64 (arena.pos + size) = arena.pos + size := wrap64_of_lt (by omega)
  unfold memArenaPush
  simp only [hrec, if_false, hwrap, Nat.not_le.mpr hover]

theorem pushCopy_fault {arena : Arena} {size : Nat} {bytes : List UInt8} (h : Recording arena 0)
    (hw : arena.cap + size < 2 ^ 64) (hover : arena.cap < arena.pos + size) (hne : bytes ≠ []) :
    pushCopy arena size bytes = none := by
  unfold pushCopy
  rw [push_fault h hw hover]
  exact if_neg hne

theorem exact_pushCopy (t : List UInt8) (hlimit : t.length ≤ limit) :
    Exact limit (fun arena => pushCopy arena t.length t) t t.length where
  toWrites := (emits_pushCopy t).writes
  fault := by
    intro arena h hw hover
    apply pushCopy_fault h (by omega) hover
    intro hnil
    rw [hnil] at hover
    exact absurd h.room (Nat.not_le.mpr hover)

/-! ## The end of a record -/

/-- `t` is written behind what was in the arena, and the end may be rounded up. -/
structure Recorded (arena : Arena) (t : List UInt8) (arena' : Arena) : Prop where
  memory : arena'.memory = Memory.write arena.memory (arena.pos - sizeOfArena) t
  alignment : arena'.alignment = arena.alignment
  cap : arena'.cap = arena.cap
  record : arena'.unsafeRecord = arena.unsafeRecord
  pageSize : arena'.pageSize = arena.pageSize
  le_pos : arena.pos + t.length ≤ arena'.pos
  pos_le : arena'.pos ≤ arena.pos + t.length + (arena.alignment - 1)

theorem strRecord_ends {peak k : Nat} (hf : Writes f t peak) {arena : Arena}
    (hk : k ≤ 30) (ha : arena.alignment = 2 ^ k) (h : HasRoom arena (peak + (arena.alignment - 1))) :
    ∃ arena', strRecord arena f = some (recorded (arena.pos - sizeOfArena) t.length, arena') ∧
      Recorded arena t arena' := by
  have hroom := h.mono (Nat.le_add_right peak (arena.alignment - 1))
  obtain ⟨arena', hrun, hmemory, -⟩ := strRecord_spec hf hroom
  refine ⟨arena', hrun, ?_⟩
  obtain ⟨commitPos, hbody⟩ := hf.run _ hroom.recording
  unfold strRecord at hrun
  obtain ⟨inner, hinner, hrun⟩ := Option.bind_eq_some_iff.mp hrun
  obtain ⟨stopped, hstop, hrun⟩ := Option.bind_eq_some_iff.mp hrun
  rw [hbody] at hinner
  cases hinner
  obtain rfl := (Prod.mk.inj (Option.some.inj hrun)).2
  have hsum := h.room
  have hcap := h.cap
  have hle := hf.length_le
  have hrecord := h.record
  obtain ⟨h1, h2⟩ := two_pow_bounds hk
  rw [← ha] at h1 h2
  have hround := alignUp_eq_roundUp (p := arena.pos + t.length) h1 h2 (by omega)
  unfold memArenaStopUnsafeRecord memArenaStartUnsafeRecord Arena.append at hstop
  simp only [(by omega : 0 < arena.unsafeRecord + 1), if_true, Int.add_sub_cancel] at hstop
  by_cases hzero : arena.unsafeRecord = 0
  · rw [if_pos hzero] at hstop
    cases hstop
    exact ⟨hmemory, rfl, rfl, rfl, rfl, hround ▸ Align.le_roundUp _ _, hround ▸ Align.roundUp_le_add _ _⟩
  · rw [if_neg hzero] at hstop
    cases hstop
    exact ⟨hmemory, rfl, rfl, rfl, rfl, Nat.le_refl _, Nat.le_add_right _ _⟩

/-! ## Numbers -/

def signText (isNegativ : Bool) : List UInt8 := if isNegativ then s8 "-" else []

theorem Exact.signed (hg : Exact limit g u n) (isNegativ : Bool) (hlimit : 1 ≤ limit) :
    Exact limit (fun arena => recordSign arena isNegativ >>= g) (signText isNegativ ++ u)
      ((signText isNegativ).length + n) := by
  cases isNegativ with
  | false =>
    have hnil : Exact limit some [] 0 := exact_nil
    have h := hnil.bind hg
    rwa [List.length_nil, Nat.zero_add, Nat.zero_max, ← Nat.zero_add n] at h
  | true =>
    have h := (exact_pushCopy (s8 "-") hlimit).bind hg
    rwa [Nat.max_eq_right (Nat.le_add_right _ _)] at h

theorem exact_u64 {value : Nat} (isNegativ : Bool) (hlimit : (decimal value).length ≤ limit) :
    Exact limit (strRecordU64 · value isNegativ) (signText isNegativ ++ decimal value)
      ((signText isNegativ).length + (decimal value).length) := by
  have hone : 1 ≤ limit := Nat.le_trans (List.length_pos_iff.mpr (decimal_ne_nil value)) hlimit
  refine Exact.signed ?_ isNegativ hone
  by_cases h : value = 0
  · simp only [h, if_true, decimal_zero]
    exact exact_pushCopy (s8 "0") hone
  · simp only [h, if_false, digitLoop_eq (Nat.pos_of_ne_zero h), List.append_nil]
    exact exact_pushCopy (decimal value) hlimit

theorem writes_digits {text : List UInt8} (h : text.length ≤ 10) :
    Writes (fun arena => do
      let arena ← pushCopy arena 10 text
      some (if text.length < 10 then memArenaPopTo arena (arena.pos - (10 - text.length)) else arena)) text 10 := by
  refine ⟨h, fun arena hr => ?_⟩
  obtain ⟨c, hpush⟩ := push_record hr
  have hpos := hr.pos
  have hcopy : pushCopy arena 10 text = some { arena.append text c with pos := arena.pos + 10 } := by
    unfold pushCopy Arena.append
    simp only [hpush]
  simp only [hcopy, Option.bind_eq_bind, Option.bind_some]
  by_cases hlt : text.length < 10
  · have hend : max sizeOfArena (arena.pos + 10 - (10 - text.length)) = arena.pos + text.length := by omega
    rw [if_pos hlt]
    rcases memArenaPopTo_cases { arena.append text c with pos := arena.pos + 10 }
      (arena.pos + 10 - (10 - text.length)) with ⟨_, he⟩ | ⟨hle, _⟩
    · rw [he, hend]
      unfold Arena.append
      dsimp only
      exact ⟨_, rfl⟩
    · rw [hend] at hle
      have hle' : arena.pos + 10 ≤ arena.pos + text.length := hle
      omega
  · have hten : text.length = 10 := by omega
    rw [if_neg hlt]
    unfold Arena.append
    rw [hten]
    dsimp only
    exact ⟨c, rfl⟩

theorem exact_u32 {value : Nat} (h : value < 2 ^ 32) (isNegativ : Bool)
    (hlimit : (if value = 0 then 1 else 10) ≤ limit) :
    Exact limit (strRecordU32 · value isNegativ) (signText isNegativ ++ decimal value)
      ((signText isNegativ).length + if value = 0 then 1 else 10) := by
  have hone : 1 ≤ limit := by
    refine Nat.le_trans ?_ hlimit
    split <;> decide
  refine Exact.signed ?_ isNegativ hone
  by_cases h0 : value = 0
  · simp only [h0, if_true, decimal_zero]
    exact exact_pushCopy (s8 "0") hone
  · simp only [h0, if_false, strUfastUtoa10_eq h] at hlimit ⊢
    refine ⟨writes_digits (decimal_length_le (by decide) (by omega)), fun arena hr hw hover => ?_⟩
    rw [pushCopy_fault hr (by omega) hover (decimal_ne_nil value)]
    rfl

theorem signed_decimal (n : Int) : s8 (toString n) = signText (n < 0) ++ decimal n.natAbs := by
  rw [Int.toString_eq_repr, Int.repr_eq_if]
  by_cases h : 0 ≤ n
  · rw [if_pos h, decide_eq_false (by omega), (by omega : n.toNat = n.natAbs)]
    rfl
  · rw [if_neg h, decide_eq_true (by omega), (by omega : (-n).toNat = n.natAbs)]
    unfold s8
    rw [String.toList_append, List.map_append]
    rfl

theorem signText_length (n : Int) : (signText (n < 0)).length = if n < 0 then 1 else 0 := by
  by_cases h : n < 0
  · rw [if_pos h, decide_eq_true h]
    rfl
  · rw [if_neg h, decide_eq_false h]
    rfl

/-! ## Arguments -/

theorem exact_value {arg : PlainValue} (h : arg.peak ≤ limit) :
    Exact limit (strRecordValue · arg.toStrValue) arg.render arg.peak := by
  cases arg with
  | str strVal => exact exact_pushCopy strVal h
  | char charVal => exact exact_pushCopy [charVal] h
  | u32 u32Val =>
    have hnum := exact_u32 u32Val.toNat_lt false h
    rwa [signText, if_neg Bool.false_ne_true, List.length_nil, Nat.zero_add] at hnum
  | u64 u64Val =>
    have hnum : Exact limit (strRecordU64 · u64Val.toNat false) (signText false ++ decimal u64Val.toNat)
        ((signText false).length + (decimal u64Val.toNat).length) := exact_u64 false h
    rwa [signText, if_neg Bool.false_ne_true, List.length_nil, Nat.zero_add] at hnum
  | i32 i32Val =>
    have hlow := i32Val.le_toInt
    have hhigh := i32Val.toInt_lt
    have hpeak : PlainValue.peak (.i32 i32Val) =
        (signText (i32Val.toInt < 0)).length + if i32Val.toInt.natAbs = 0 then 1 else 10 := by
      rw [signText_length]
      simp only [Int.natAbs_eq_zero]
      rfl
    rw [hpeak] at h ⊢
    rw [PlainValue.render, signed_decimal]
    exact exact_u32 (by omega) _ (Nat.le_trans (Nat.le_add_left _ _) h)
  | i64 i64Val =>
    have hpeak : PlainValue.peak (.i64 i64Val) =
        (signText (i64Val.toInt < 0)).length + (decimal i64Val.toInt.natAbs).length := by
      rw [← List.length_append, ← signed_decimal]
      rfl
    rw [hpeak] at h ⊢
    rw [PlainValue.render, signed_decimal]
    exact exact_u64 _ (Nat.le_trans (Nat.le_add_left _ _) h)

theorem exact_args {args : List PlainValue} (h : ∀ arg ∈ args, arg.peak ≤ limit) :
    Exact limit (fun arena => (args.map PlainValue.toStrValue).foldlM strRecordValue arena) (argsText args)
      (argsPeak args) := by
  induction args with
  | nil => exact exact_nil
  | cons arg args ih =>
    apply (exact_value (h arg List.mem_cons_self)).bind
    apply ih
    intro arg' harg'
    exact h arg' (List.mem_cons_of_mem _ harg')

theorem peak_le_argsPeak {arg : PlainValue} {args : List PlainValue} (h : arg ∈ args) : arg.peak ≤ argsPeak args := by
  induction args with
  | nil => cases h
  | cons arg' args ih =>
    cases List.mem_cons.mp h with
    | inl he => rw [he]; exact Nat.le_max_left _ _
    | inr h => exact Nat.le_trans (ih h) (Nat.le_trans (Nat.le_add_left _ _) (Nat.le_max_right _ _))

theorem writes_args (args : List PlainValue) :
    Writes (fun arena => (args.map PlainValue.toStrValue).foldlM strRecordValue arena) (argsText args)
      (argsPeak args) :=
  (exact_args fun _ => peak_le_argsPeak).toWrites

/-! ## Records of joins -/

/-- The statements of a record's body: joins, and records in it. -/
inductive RecordBody
  | done
  | join (args : List PlainValue) (rest : RecordBody)
  | record (inner rest : RecordBody)

namespace RecordBody

/-- The strings of the joins and of the records, in the order in which they end. -/
def run : RecordBody → Arena → Option (List S8 × Arena)
  | done, arena => some ([], arena)
  | join args rest, arena => do
    let (str, arena) ← strJoinVargs arena (args.map PlainValue.toStrValue)
    let (strs, arena) ← rest.run arena
    some (str :: strs, arena)
  | record inner rest, arena => do
    let (strs, _) ← inner.run (memArenaStartUnsafeRecord arena)
    let (str, arena) ← strRecord arena fun arena => (inner.run arena).map Prod.snd
    let (strs', arena) ← rest.run arena
    some (strs ++ str :: strs', arena)

/-- Everything joined within. -/
def text : RecordBody → List UInt8
  | done => []
  | join args rest => argsText args ++ rest.text
  | record inner rest => inner.text ++ rest.text

def texts : RecordBody → List (List UInt8)
  | done => []
  | join args rest => argsText args :: rest.texts
  | record inner rest => inner.texts ++ inner.text :: rest.texts

def peak : RecordBody → Nat
  | done => 0
  | join args rest => max (argsPeak args) ((argsText args).length + rest.peak)
  | record inner rest => max inner.peak (inner.text.length + rest.peak)

/-- One join or one record. -/
def IsScope : RecordBody → Prop
  | join _ done => True
  | record _ done => True
  | _ => False

end RecordBody

/-- `str` holds `text`, and is `(NULL, 0)` where that is empty. -/
structure Returns (arena : Arena) (str : S8) (text : List UInt8) : Prop where
  bytes : str.inArena arena = text
  null : text = [] → str = .null

theorem returns_recorded {arena : Arena} {off : Nat} {text : List UInt8}
    (h : Memory.read arena.memory off text.length = text) : Returns arena (recorded off text.length) text := by
  unfold recorded
  by_cases h0 : text.length = 0
  · rw [if_pos h0]
    exact ⟨(List.length_eq_zero_iff.mp h0).symm, fun _ => rfl⟩
  · rw [if_neg h0]
    exact ⟨h, fun hnil => absurd (List.length_eq_zero_iff.mpr hnil) h0⟩

theorem RecordBody.text_le_peak (body : RecordBody) : body.text.length ≤ body.peak := by
  induction body with
  | done => exact Nat.le_refl _
  | join args rest ih =>
    rw [RecordBody.text, List.length_append]
    exact Nat.le_trans (Nat.add_le_add_left ih _) (Nat.le_max_right _ _)
  | record inner rest _ ih =>
    rw [RecordBody.text, List.length_append]
    exact Nat.le_trans (Nat.add_le_add_left ih _) (Nat.le_max_right _ _)

/-- Within a record the body appends its text, and its strings are the parts of it. -/
def RecordBody.Appends (body : RecordBody) : Prop :=
  ∀ arena, Recording arena body.peak → ∃ strs c,
    body.run arena = some (strs, arena.append body.text c) ∧
      ∀ arena', Memory.read arena'.memory (arena.pos - sizeOfArena) body.text.length = body.text →
        List.Forall₂ (Returns arena') strs body.texts

theorem RecordBody.Appends.writes {body : RecordBody} (h : body.Appends) :
    Writes (fun arena => (body.run arena).map Prod.snd) body.text body.peak := by
  refine ⟨body.text_le_peak, fun arena hroom => ?_⟩
  obtain ⟨_, c, hrun, _⟩ := h arena hroom
  exact ⟨c, by rw [hrun]; rfl⟩

theorem body_appends (body : RecordBody) : body.Appends := by
  induction body with
  | done =>
    intro arena h
    exact ⟨[], arena.commitPos, by rw [RecordBody.text, append_nil]; rfl, fun _ _ => .nil⟩
  | join args rest ih =>
    intro arena h
    obtain ⟨_, hjoin, _, happ⟩ := strRecord_spec (writes_args args) (h.mono (Nat.le_max_left _ _)).hasRoom
    obtain ⟨c, rfl⟩ := happ h.record
    obtain ⟨strs, c', hrun, hret⟩ := ih _ ((h.mono (Nat.le_max_right _ _)).append c)
    refine ⟨recorded (arena.pos - sizeOfArena) (argsText args).length :: strs, c', ?_, fun arena' hmem => ?_⟩
    · rw [RecordBody.run, strJoinVargs, hjoin]
      simp only [Option.bind_eq_bind, Option.bind_some, hrun, append_append h.pos]
      rfl
    · obtain ⟨hfirst, hrest⟩ := Memory.read_append_iff.mp hmem
      rw [← Nat.sub_add_comm h.pos] at hrest
      exact .cons (returns_recorded hfirst) (hret arena' hrest)
  | record inner rest ihInner ihRest =>
    intro arena h
    have hroom := (h.mono (Nat.le_max_left _ _)).hasRoom
    obtain ⟨strs, _, hstrs, hparts⟩ := ihInner _ hroom.recording
    obtain ⟨_, hrecord, _, happ⟩ := strRecord_spec ihInner.writes hroom
    obtain ⟨c, rfl⟩ := happ h.record
    obtain ⟨strs', c', hrun, hret⟩ := ihRest _ ((h.mono (Nat.le_max_right _ _)).append c)
    refine ⟨strs ++ recorded (arena.pos - sizeOfArena) inner.text.length :: strs', c', ?_, fun arena' hmem => ?_⟩
    · rw [RecordBody.run, hstrs, hrecord]
      simp only [Option.bind_eq_bind, Option.bind_some, hrun, append_append h.pos]
      rfl
    · obtain ⟨hfirst, hrest⟩ := Memory.read_append_iff.mp hmem
      rw [← Nat.sub_add_comm h.pos] at hrest
      exact List.rel_append (hparts arena' hfirst) (.cons (returns_recorded hfirst) (hret arena' hrest))

/-- A single join or record, or any body within a record. -/
theorem nested_joins {arena : Arena} {body : RecordBody} (h : HasRoom arena body.peak)
    (hscope : arena.unsafeRecord = 0 → body.IsScope) :
    ∃ strs arena', body.run arena = some (strs, arena') ∧ List.Forall₂ (Returns arena') strs body.texts := by
  by_cases hrec : 0 < arena.unsafeRecord
  · obtain ⟨strs, c, hrun, hret⟩ := body_appends body arena ⟨hrec, h.pos, h.room, h.cap⟩
    refine ⟨strs, _, hrun, hret _ ?_⟩
    rw [memory_append]
    exact Memory.read_write ..
  · have hzero : arena.unsafeRecord = 0 := Int.le_antisymm (Int.not_lt.mp hrec) h.record
    cases body with
    | done => exact absurd (hscope hzero) id
    | join args rest =>
      cases rest with
      | done =>
        obtain ⟨arena', hjoin, hmem, _⟩ := strRecord_spec (writes_args args) (h.mono (Nat.le_max_left _ _))
        refine ⟨[recorded (arena.pos - sizeOfArena) (argsText args).length], arena', ?_,
          .cons (returns_recorded ?_) .nil⟩
        · rw [RecordBody.run, strJoinVargs, hjoin]
          rfl
        · rw [hmem]
          exact Memory.read_write ..
      | join _ _ => exact absurd (hscope hzero) id
      | record _ _ => exact absurd (hscope hzero) id
    | record inner rest =>
      cases rest with
      | done =>
        have hroom := h.mono (Nat.le_max_left _ _)
        obtain ⟨strs, _, hstrs, hparts⟩ := body_appends inner _ hroom.recording
        obtain ⟨arena', hrecord, hmem, _⟩ := strRecord_spec (body_appends inner).writes hroom
        have hread : Memory.read arena'.memory (arena.pos - sizeOfArena) inner.text.length = inner.text := by
          rw [hmem]
          exact Memory.read_write ..
        refine ⟨strs ++ [_], arena', ?_, List.rel_append (hparts arena' hread) (.cons (returns_recorded hread) .nil)⟩
        rw [RecordBody.run, hstrs, hrecord]
        rfl
      | join _ _ => exact absurd (hscope hzero) id
      | record _ _ => exact absurd (hscope hzero) id

theorem nested_joins_three :
    ∃ strs arena', (RecordBody.record (.join [.i32 (-45), .u32 0] (.record (.join [] .done) (.join [.char 33] .done)))
        .done).run (memMakeArenaPreAllocated (fun _ => 0) 1024) = some (strs, arena') ∧
      List.Forall₂ (Returns arena') strs [s8 "-450", [], [], s8 "!", s8 "-450!"] :=
  nested_joins ⟨Int.le_refl _, Nat.le_refl _, by decide, by decide⟩ fun _ => trivial

/-! ## The space of a join -/

/-- What C takes for granted: each string is in the same 64-bit address space as the arena. -/
structure Joinable (arena : Arena) (args : List PlainValue) : Prop where
  record : 0 ≤ arena.unsafeRecord
  pos : sizeOfArena ≤ arena.pos
  used : arena.pos ≤ arena.cap
  address : ∀ arg ∈ args, arena.cap + arg.peak < 2 ^ 64
  cap : arena.cap < 2 ^ 64

def freeBytes (arena : Arena) : Nat := arena.cap - arena.pos

/-- The full text where it fits, and no write through a failed push where it does not. -/
structure JoinFits (arena : Arena) (args : List PlainValue) : Prop where
  full : (argsText args).length ≤ freeBytes arena →
    ∃ str arena', strJoinVargs arena (args.map PlainValue.toStrValue) = some (str, arena') ∧
      str.inArena arena' = argsText args
  safe : freeBytes arena < (argsText args).length → strJoinVargs arena (args.map PlainValue.toStrValue) ≠ none

theorem join_fault {arena : Arena} {args : List PlainValue} (h : Joinable arena args)
    (hover : freeBytes arena < argsPeak args) : strJoinVargs arena (args.map PlainValue.toStrValue) = none := by
  have hroom : HasRoom arena 0 := ⟨h.record, h.pos, h.used, h.cap⟩
  have hexact : Exact (2 ^ 64 - 1 - arena.cap) _ (argsText args) (argsPeak args) :=
    exact_args fun arg harg => by
      have := h.address arg harg
      omega
  have hused := h.used
  have hcap := h.cap
  unfold freeBytes at hover
  rw [strJoinVargs, strRecord, hexact.fault _ hroom.recording]
  · rfl
  · show arena.cap + (2 ^ 64 - 1 - arena.cap) < 2 ^ 64
    omega
  · show arena.cap < arena.pos + argsPeak args
    omega

theorem joinFits_iff {arena : Arena} {args : List PlainValue} (h : Joinable arena args) :
    JoinFits arena args ↔ argsPeak args ≤ freeBytes arena := by
  have hlen := (writes_args args).length_le
  constructor
  · intro hfits
    by_contra hover
    have hnone := join_fault h (Nat.not_le.mp hover)
    by_cases hle : (argsText args).length ≤ freeBytes arena
    · obtain ⟨str, arena', hsome, _⟩ := hfits.full hle
      rw [hnone] at hsome
      cases hsome
    · exact hfits.safe (Nat.not_le.mp hle) hnone
  · intro hpeak
    have hused := h.used
    unfold freeBytes at hpeak
    have hroom : HasRoom arena (argsPeak args) := ⟨h.record, h.pos, by omega, h.cap⟩
    constructor
    · intro _
      obtain ⟨arena', hjoin, hmem, _⟩ := strRecord_spec (writes_args args) hroom
      refine ⟨_, arena', hjoin, (returns_recorded ?_).bytes⟩
      rw [hmem]
      exact Memory.read_write ..
    · intro hlt
      unfold freeBytes at hlt
      omega

theorem joinFits_iff_u32 :
    JoinFits (memMakeArenaPreAllocated (fun _ => 0) 256) [.u32 7, .str (s8 "ab")] ↔
      argsPeak [.u32 7, .str (s8 "ab")] ≤ freeBytes (memMakeArenaPreAllocated (fun _ => 0) 256) :=
  joinFits_iff ⟨Int.le_refl _, Nat.le_refl _, by decide, by decide, by decide⟩

/-- One digit, five bytes free, and the push of ten of them fails. -/
theorem not_joinFits :
    Joinable (memMakeArenaPreAllocated (fun _ => 0) 133) [.u32 7] ∧
      ¬ JoinFits (memMakeArenaPreAllocated (fun _ => 0) 133) [.u32 7] := by
  refine ⟨⟨Int.le_refl _, Nat.le_refl _, by decide, by decide, by decide⟩, fun h => ?_⟩
  have hnone : strJoinVargs (memMakeArenaPreAllocated (fun _ => 0) 133) [.u32 7] = none := by decide
  obtain ⟨str, arena', hsome, _⟩ := h.full (by decide)
  exact absurd (hnone.symm.trans hsome) (fun h => by cases h)

end CWebServer
