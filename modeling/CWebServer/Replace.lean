import CWebServer.ArenaSound
import CWebServer.Find

/-!
# Replacing strings

`str_replaceAll` takes the size of its result from the number of occurrences
and replaces the matches that do not overlap. The two agree exactly where the
occurrences do not overlap, unless a replacement keeps the size.
-/

namespace CWebServer

open Align (roundUp)
open Occurrences (OccursAt Overlap count replace replaced)

/-! ## The copy loop -/

def replaceHit (str replaceStr : List UInt8) (i : Nat) : Bool :=
  str.getD i 0 = replaceStr.headD 0 ∧ replaceStr.length ≤ str.length - i ∧
    strIsEqual ((str.drop i).take replaceStr.length) replaceStr

/-- The loop at `i`, for at most as many turns: what is written at `ret` in all, and the memory behind it. -/
def replaceLoop (str replaceStr replacement : List UInt8) (ret : Nat) :
    Nat → Nat → Nat → (Nat → UInt8) → Nat × (Nat → UInt8)
  | 0, _, o, memory => (o, memory)
  | turns + 1, i, o, memory =>
    if i < str.length then
      if replaceHit str replaceStr i then
        replaceLoop str replaceStr replacement ret turns (i + replaceStr.length) (o + replacement.length)
          (Memory.write memory (ret + o) replacement)
      else
        replaceLoop str replaceStr replacement ret turns (i + 1) (o + 1)
          (Memory.write memory (ret + o) [str.getD i 0])
    else (o, memory)

/-- The string itself, or a block of a size together with what the loop has written there. -/
inductive ReplaceResult
  | str
  | ret (block : Option Nat) (size written : Nat)

/-- A write through a `NULL` block is a fault, `none`. Each turn advances, and so does each one that counts. -/
def strReplaceAll (arena : Arena) (str replaceStr replacement : List UInt8) : Option (ReplaceResult × Arena) :=
  if replaceStr.length = 0 then some (.str, arena)
  else do
    let replaceable ← strContainsSubStringCount (str.length + 2) str replaceStr
    if replaceable = 0 then some (.str, arena)
    else
      let newSize := wrap64 ((str.length - replaceable * replaceStr.length) + replaceable * replacement.length)
      let (block, arena) := memArenaPush arena newSize
      let (o, memory) :=
        replaceLoop str replaceStr replacement (block.getD 0) str.length 0 0 arena.memory
      if block = none ∧ 0 < o then none else some (.ret block newSize o, { arena with memory })

def ReplaceResult.bytes (str : List UInt8) (arena : Arena) : ReplaceResult → List UInt8
  | .str => str
  | .ret block size _ => Memory.read arena.memory (block.getD 0) size

theorem replaceHit_iff {replaceStr : List UInt8} (hf : replaceStr ≠ []) (str : List UInt8) (i : Nat) :
    replaceHit str replaceStr i = true ↔ OccursAt replaceStr str i := by
  unfold replaceHit
  rw [decide_eq_true_eq, strIsEqual_iff, ← Occurrences.occursAt_iff_take]
  constructor
  · rintro ⟨-, -, hocc⟩
    exact hocc
  · intro hocc
    have hle := hocc.le hf
    exact ⟨head_of_occursAt hf hocc, by omega, hocc⟩

section
variable {str replaceStr : List UInt8}

theorem replaceLoop_eq (hf : replaceStr ≠ []) (replacement : List UInt8) (ret turns : Nat) {i : Nat}
    (hturns : str.length ≤ i + turns) (o : Nat) (memory : Nat → UInt8) :
    replaceLoop str replaceStr replacement ret turns i o memory =
      (o + (replace replaceStr replacement (str.drop i)).length,
        Memory.write memory (ret + o) (replace replaceStr replacement (str.drop i))) := by
  have hpos := List.length_pos_of_ne_nil hf
  have hend : ∀ i, str.length ≤ i → replace replaceStr replacement (str.drop i) = [] := fun i hi => by
    rw [List.drop_eq_nil_of_le hi, replace]
  induction turns generalizing i o memory with
  | zero => rw [replaceLoop, hend i hturns, Memory.write_nil, List.length_nil, Nat.add_zero]
  | succ turns ih =>
    rw [replaceLoop]
    by_cases hi : i < str.length
    · rw [if_pos hi]
      by_cases hhit : replaceHit str replaceStr i
      · have hocc := (replaceHit_iff hf str i).mp hhit
        rw [if_pos hhit, ih (by omega), Occurrences.replace_match hf hocc, List.drop_drop, List.length_append,
          ← Memory.write_append, Nat.add_assoc, Nat.add_assoc]
      · have hcons : str.drop i = str.getD i 0 :: str.drop (i + 1) := by
          rw [List.getD_eq_getElem?_getD, List.getElem?_eq_getElem hi, Option.getD_some, ← List.drop_eq_getElem_cons hi]
        have hskip : ¬ replaceStr <+: str.getD i 0 :: str.drop (i + 1) := by
          rw [← hcons]
          exact fun hocc => hhit ((replaceHit_iff hf str i).mpr hocc)
        have hrest : replace replaceStr replacement (str.drop i) =
            [str.getD i 0] ++ replace replaceStr replacement (str.drop (i + 1)) := by
          rw [hcons]
          exact Occurrences.replace_skip hskip
        rw [if_neg hhit, ih (by omega), hrest, List.length_append, ← Memory.write_append, List.length_singleton,
          Nat.add_assoc, Nat.add_assoc]
    · rw [if_neg hi, hend i (Nat.not_lt.mp hi), Memory.write_nil, List.length_nil, Nat.add_zero]

end

/-! ## The size -/

structure RoomFor (arena : Arena) (size : Nat) : Prop where
  pos : sizeOfArena ≤ arena.pos
  alignment : ∃ k ≤ 30, arena.alignment = 2 ^ k
  room : arena.pos + takenBytes arena size ≤ arena.cap
  cap : arena.cap < 2 ^ 64

theorem RoomFor.lt {arena : Arena} {size : Nat} (h : RoomFor arena size) : size < 2 ^ 64 := by
  have hle := le_takenBytes arena size
  have hroom := h.room
  have hcap := h.cap
  omega

theorem RoomFor.mono {arena : Arena} {size size' : Nat} (h : RoomFor arena size') (hle : size ≤ size') :
    RoomFor arena size := by
  obtain ⟨k, hk, halign⟩ := h.alignment
  have htaken := takenBytes_mono halign hle
  have hroom := h.room
  exact ⟨h.pos, ⟨k, hk, halign⟩, by omega, h.cap⟩

theorem RoomFor.block {arena : Arena} {size : Nat} (h : RoomFor arena size) :
    ∃ off pushed, memArenaPush arena size = (some off, pushed) ∧ off + size < 2 ^ 64 ∧
      pushed.memory = arena.memory := by
  obtain ⟨k, hk, halign⟩ := h.alignment
  have htaken := le_takenBytes arena size
  have hroom := h.room
  have hcap := h.cap
  have hpush := memArenaPush_room size hk halign h.pos hcap hroom
  exact ⟨_, _, hpush, by omega, rfl⟩

theorem wrap64_eq_iff {x : Int} {n : Nat} (hn : n < 2 ^ 64) : wrap64 x = n ↔ (2 ^ 64 : Int) ∣ x - n := by
  unfold wrap64
  omega

section
variable {str replaceStr : List UInt8}

/-- The computed size is the written one, up to what the counted matches that are not replaced would change. -/
theorem newSize_eq_iff (hf : replaceStr ≠ []) (replacement : List UInt8) (replaceable : Nat)
    (hlt : (replace replaceStr replacement str).length < 2 ^ 64) :
    wrap64 ((str.length - replaceable * replaceStr.length) + replaceable * replacement.length) =
        (replace replaceStr replacement str).length ↔
      (2 ^ 64 : Int) ∣
        ((replaceable : Int) - replaced replaceStr str) * ((replacement.length : Int) - replaceStr.length) := by
  have hlen : ((replace replaceStr replacement str).length : Int) + replaced replaceStr str * replaceStr.length =
      str.length + replaced replaceStr str * replacement.length := by
    exact_mod_cast Occurrences.length_replace hf replacement str
  rw [wrap64_eq_iff hlt]
  have hdiff : ((str.length : Int) - replaceable * replaceStr.length) + replaceable * replacement.length -
      (replace replaceStr replacement str).length =
      ((replaceable : Int) - replaced replaceStr str) * ((replacement.length : Int) - replaceStr.length) := by
    rw [Int.sub_mul, Int.mul_sub, Int.mul_sub]
    omega
  rw [hdiff]

theorem newSize_of_not_overlap (hf : replaceStr ≠ []) (replacement : List UInt8) (h : ¬ Overlap replaceStr str) :
    count replaceStr str * replaceStr.length ≤ str.length ∧
      (2 ^ 64 : Int) ∣ ((count replaceStr str : Int) - replaced replaceStr str) *
        ((replacement.length : Int) - replaceStr.length) := by
  rw [(Occurrences.count_eq_replaced_iff hf str).mpr h]
  exact ⟨Occurrences.replaced_mul_le hf str, by simp⟩

end

/-- The replaced string comes back, in a size that is what the loop writes and that no difference below 0 went into. -/
def ReplacesAll (arena : Arena) (str replaceStr replacement : List UInt8) : Prop :=
  ∃ res arena', strReplaceAll arena str replaceStr replacement = some (res, arena') ∧
    res.bytes str arena' = replace replaceStr replacement str ∧
    (∀ block size written, res = .ret block size written → size = written) ∧
    ∀ replaceable, strContainsSubStringCount (str.length + 2) str replaceStr = some replaceable →
      replaceable * replaceStr.length ≤ str.length

section
variable {arena : Arena} {str replaceStr replacement : List UInt8}

theorem replacesAll_none (hf : replaceStr ≠ [])
    (hcount : strContainsSubStringCount (str.length + 2) str replaceStr = some 0) :
    ReplacesAll arena str replaceStr replacement ↔ replace replaceStr replacement str = str := by
  have hrun : strReplaceAll arena str replaceStr replacement = some (.str, arena) := by
    unfold strReplaceAll
    rw [if_neg (List.length_pos_of_ne_nil hf).ne', hcount]
    rfl
  unfold ReplacesAll
  rw [hrun, hcount]
  constructor
  · rintro ⟨res, arena', hres, hbytes, -⟩
    cases hres
    exact hbytes.symm
  · intro heq
    refine ⟨.str, arena, rfl, heq.symm, fun _ _ _ h => (by cases h), fun c hc => ?_⟩
    cases hc
    omega

theorem strReplaceAll_some (hf : replaceStr ≠ []) {replaceable : Nat} (hpos : replaceable ≠ 0)
    (hcount : strContainsSubStringCount (str.length + 2) str replaceStr = some replaceable)
    (hroom : RoomFor arena (replace replaceStr replacement str).length) :
    ReplacesAll arena str replaceStr replacement ↔ replaceable * replaceStr.length ≤ str.length ∧
      wrap64 ((str.length - replaceable * replaceStr.length) + replaceable * replacement.length) =
        (replace replaceStr replacement str).length := by
  unfold ReplacesAll strReplaceAll
  rw [if_neg (List.length_pos_of_ne_nil hf).ne', hcount]
  simp only [Option.bind_eq_bind, Option.bind_some, if_neg hpos, replaceLoop_eq hf replacement _ str.length
    (Nat.le_add_left str.length 0), List.drop_zero, Nat.zero_add, Nat.add_zero]
  constructor
  · rintro ⟨res, arena', hres, -, hsize, hunder⟩
    split at hres
    · cases hres
    · cases hres
      exact ⟨hunder replaceable rfl, hsize _ _ _ rfl⟩
  · rintro ⟨hunder, hsize⟩
    obtain ⟨off, arena', hpush, -⟩ := hroom.block
    rw [hsize, hpush, if_neg (fun h => by cases h.1)]
    refine ⟨_, _, rfl, Memory.read_write _ _ _, ?_, ?_⟩
    · rintro block size written h
      cases h
      rfl
    · rintro c hc
      cases hc
      exact hunder

end

theorem replacesAll_iff {replaceStr : List UInt8} (hf : replaceStr ≠ []) {arena : Arena} {str replacement : List UInt8}
    (hroom : RoomFor arena (replace replaceStr replacement str).length) :
    ReplacesAll arena str replaceStr replacement ↔
      if replaceStr.headD 0 < 128 then
        ¬ Overlap replaceStr str ∨ (count replaceStr str * replaceStr.length ≤ str.length ∧
          (2 ^ 64 : Int) ∣ ((count replaceStr str : Int) - replaced replaceStr str) *
            ((replacement.length : Int) - replaceStr.length))
      else count replaceStr str = 0 ∨ replacement = replaceStr := by
  by_cases hascii : replaceStr.headD 0 < 128
  · rw [if_pos hascii]
    have hcount : strContainsSubStringCount (str.length + 2) str replaceStr = some (count replaceStr str) := by
      rw [strContainsSubStringCount, countLoop_eq hf (Or.inl hascii) _ _ (Nat.zero_le _) (Nat.lt_succ_self _),
        Nat.zero_add, List.drop_zero]
    by_cases hzero : count replaceStr str = 0
    · rw [hzero] at hcount
      have hreplaced : replaced replaceStr str = 0 := (Occurrences.replaced_eq_zero_iff hf str).mpr hzero
      rw [replacesAll_none hf hcount]
      exact iff_of_true (Occurrences.replace_of_count_zero hf hzero)
        (Or.inl ((Occurrences.count_eq_replaced_iff hf str).mp (hzero.trans hreplaced.symm)))
    · rw [strReplaceAll_some hf hzero hcount hroom, newSize_eq_iff hf replacement _ hroom.lt]
      constructor
      · exact Or.inr
      · rintro (hover | hsize)
        · exact newSize_of_not_overlap hf replacement hover
        · exact hsize
  · rw [if_neg hascii, replacesAll_none hf (countLoop_signed hf hascii _ 0)]
    exact Occurrences.replace_eq_self_iff hf

theorem replacesAll_iff_single :
    ReplacesAll (memMakeArenaPreAllocated (fun _ => 0) 1024) (s8 "a-b") (s8 "-") (s8 "+") ↔
      if (s8 "-").headD 0 < 128 then
        ¬ Overlap (s8 "-") (s8 "a-b") ∨ (count (s8 "-") (s8 "a-b") * (s8 "-").length ≤ (s8 "a-b").length ∧
          (2 ^ 64 : Int) ∣ ((count (s8 "-") (s8 "a-b") : Int) - replaced (s8 "-") (s8 "a-b")) *
            (((s8 "+").length : Int) - (s8 "-").length))
      else count (s8 "-") (s8 "a-b") = 0 ∨ s8 "+" = s8 "-" :=
  replacesAll_iff (by decide) ⟨by decide, ⟨4, by decide, rfl⟩, by simp [replace, s8, chr]; decide, by decide⟩

/-- The two matches in `aaa` overlap: its 3 bytes less 2 times 2. -/
theorem not_replacesAll :
    RoomFor (memMakeArenaPreAllocated (fun _ => 0) 1024) (replace (s8 "aa") [] (s8 "aaa")).length ∧
      ¬ ReplacesAll (memMakeArenaPreAllocated (fun _ => 0) 1024) (s8 "aaa") (s8 "aa") [] := by
  constructor
  · exact ⟨by decide, ⟨4, by decide, rfl⟩, by simp [replace, s8, chr]; decide, by decide⟩
  · rintro ⟨_, _, -, -, -, hunder⟩
    have hle := hunder 2 (by decide)
    revert hle
    decide

end CWebServer
