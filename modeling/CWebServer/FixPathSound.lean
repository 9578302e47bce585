import CWebServer.FixPath

/-!
# When a path is fixed

Each turn of the loop that stays within its sizes leaves the path shorter or as
it is, with its `..`. So the assertion holds only for a path that has nothing
to resolve.
-/

namespace CWebServer

open Occurrences (OccursAt count replace)

/-! ## Strings of the function -/

namespace FixPathInput
variable {i : FixPathInput}

@[simp] theorem length_read (arena : Arena) (str : PathStr) (start n : Nat) :
    (i.read arena str start n).length = n := by
  simp [read]

@[simp] theorem length_bytes (arena : Arena) (str : PathStr) : (i.bytes arena str).length = i.size str := by
  simp [bytes]

theorem read_slice (arena : Arena) (off size start n : Nat) :
    i.read arena (.slice off size) start n = Memory.read arena.memory (off + start) n := by
  apply List.map_congr_left
  intro idx _
  exact congrArg arena.memory (Nat.add_assoc off start idx).symm

theorem bytes_slice (arena : Arena) (off size : Nat) :
    i.bytes arena (.slice off size) = Memory.read arena.memory off size := i.read_slice arena off size 0 size

@[simp] theorem bytes_path (arena : Arena) : i.bytes arena .path = i.path := by
  apply List.ext_getElem
  · exact i.length_bytes arena .path
  · intro idx _ h
    simp [bytes, read, byteAt, h]

theorem bytes_congr {arena arena' : Arena} (h : arena.memory = arena'.memory) (str : PathStr) :
    i.bytes arena str = i.bytes arena' str := by
  cases str with
  | path => rw [bytes_path, bytes_path]
  | slice start size => rw [bytes_slice, bytes_slice, h]

/-- Nothing is cut out: both copies together are a copy of the string. -/
theorem bytes_copied {arena : Arena} {str : PathStr} {off a : Nat}
    (hin : ∀ start size, str = .slice start size → start + size ≤ off) (ha : a ≤ i.size str + 1) :
    i.bytes (i.copy (i.copy arena off str 0 a) (off + a) str a (i.size str + 1 - a)) (.slice off (i.size str)) =
      i.bytes arena str := by
  apply List.map_congr_left
  intro j hj
  have hlt : j < i.size str := List.mem_range.mp hj
  rw [Nat.zero_add]
  by_cases hfirst : j < a
  · have hlen : j < (i.read arena str 0 a).length := by
      rw [length_read]
      exact hfirst
    have hget := Memory.write_get arena.memory off hlen
    refine (Memory.write_apart _ (Or.inr (by omega))).trans (hget.trans ?_)
    simp [read]
  · obtain ⟨d, rfl⟩ := Nat.exists_eq_add_of_le (Nat.not_lt.mp hfirst)
    have hlen : d < (i.read (i.copy arena off str 0 a) str a (i.size str + 1 - a)).length := by
      rw [length_read]
      omega
    have hget := Memory.write_get (i.copy arena off str 0 a).memory (off + a) hlen
    have hsame : i.byteAt (i.copy arena off str 0 a) (a + d) str = i.byteAt arena (a + d) str := by
      cases str with
      | path => rfl
      | slice start size =>
        have hbelow := hin start size rfl
        have hsize : a + d < size := hlt
        exact Memory.write_apart _ (Or.inr (by omega))
    show (i.copy (i.copy arena off str 0 a) (off + a) str a (i.size str + 1 - a)).memory (off + (a + d)) = _
    rw [← Nat.add_assoc]
    refine hget.trans ?_
    simp only [read, List.getElem_map, List.getElem_range]
    exact hsame

end FixPathInput

/-! ## The arena -/

/-- The alignment is a power of two, and the sums of positions and sizes stay in 64 bits. -/
structure FixArena (arena : Arena) (n : Nat) : Prop where
  pos : sizeOfArena ≤ arena.pos
  top : arena.pos ≤ arena.cap
  alignment : ∃ k ≤ 30, arena.alignment = 2 ^ k
  cap : arena.cap + n + arena.alignment < 2 ^ 64

def InPlace (arena : Arena) (str : PathStr) : Prop :=
  ∀ start size, str = .slice start size → start + size ≤ arena.pos - sizeOfArena

theorem inPlace_path (arena : Arena) : InPlace arena .path := fun _ _ h => by cases h

theorem FixArena.push {arena arena' : Arena} {n size off : Nat} (h : FixArena arena n) (hsize : size ≤ n)
    (hpush : memArenaPush arena size = (some off, arena')) :
    off = arena.pos - sizeOfArena ∧ arena'.memory = arena.memory ∧ arena.pos + size ≤ arena'.pos ∧
      FixArena arena' n := by
  obtain ⟨k, hk, ha⟩ := h.alignment
  have hpos := h.pos
  have htop := h.top
  have hcap := h.cap
  have htaken := takenBytes_le arena size
  have hle := le_takenBytes arena size
  have hsame : pushSize arena size = takenBytes arena size := pushSize_of_lt hk ha (by omega)
  rcases memArenaPush_cases hpos (by rw [hsame]; omega) with ⟨hfit, heq⟩ | heq
  · rw [hpush, hsame, Prod.mk.injEq, Option.some.injEq] at heq
    rw [hsame] at hfit
    obtain ⟨hoff, rfl⟩ := heq
    refine ⟨hoff, rfl, ?_, ?_, hfit, ⟨k, hk, ha⟩, hcap⟩
    · exact Nat.add_le_add_left hle _
    · exact Nat.le_trans hpos (Nat.le_add_right _ _)
  · rw [hpush] at heq
    cases heq

theorem FixArena.of_memory {arena : Arena} {n : Nat} (h : FixArena arena n) (memory : Nat → UInt8) :
    FixArena { arena with memory } n := ⟨h.pos, h.top, h.alignment, h.cap⟩

/-! ## The replacements -/

/-- The size that `str_replaceAll` allocates. -/
def replacedSize (str replaceStr replacement : List UInt8) : Nat :=
  wrap64 ((str.length - count replaceStr str * replaceStr.length) + count replaceStr str * replacement.length)

section
variable {i : FixPathInput} {arena arena' : Arena} {str res : PathStr} {replaceStr replacement : List UInt8}

theorem replaceAll_eq (hf : replaceStr ≠ []) (hascii : replaceStr.headD 0 < 128) (hr : replacement ≠ []) :
    i.replaceAll arena str replaceStr replacement =
      if count replaceStr (i.bytes arena str) = 0 then some (str, arena)
      else match memArenaPush arena (replacedSize (i.bytes arena str) replaceStr replacement) with
        | (some off, pushed) => some (.slice off (replacedSize (i.bytes arena str) replaceStr replacement),
            { pushed with
              memory := Memory.write pushed.memory off (replace replaceStr replacement (i.bytes arena str)) })
        | (none, _) => none := by
  have hcount : strContainsSubStringCount ((i.bytes arena str).length + 2) (i.bytes arena str) replaceStr =
      some (count replaceStr (i.bytes arena str)) := by
    rw [strContainsSubStringCount, countLoop_eq hf (Or.inl hascii) _ _ (Nat.zero_le _) (Nat.lt_succ_self _),
      Nat.zero_add, List.drop_zero]
  unfold FixPathInput.replaceAll strReplaceAll
  rw [if_neg (List.length_pos_of_ne_nil hf).ne', hcount]
  split
  · next hzero =>
    simp only [Option.bind_eq_bind, Option.bind_some, if_pos hzero]
  · next hzero =>
    have hne : 0 < (replace replaceStr replacement (i.bytes arena str)).length := by
      have hlen := Occurrences.length_replace hf replacement (i.bytes arena str)
      have hle := Occurrences.replaced_mul_le hf (i.bytes arena str)
      have hsome : Occurrences.replaced replaceStr (i.bytes arena str) ≠ 0 :=
        fun hno => hzero ((Occurrences.replaced_eq_zero_iff hf _).mp hno)
      have hpos : 0 < Occurrences.replaced replaceStr (i.bytes arena str) * replacement.length :=
        Nat.mul_pos (Nat.pos_of_ne_zero hsome) (List.length_pos_of_ne_nil hr)
      omega
    simp only [Option.bind_eq_bind, Option.bind_some, if_neg hzero, replaceLoop_eq hf replacement _ _
      (Nat.le_add_left (i.bytes arena str).length 0), List.drop_zero, Nat.zero_add, Nat.add_zero]
    rw [← replacedSize]
    cases memArenaPush arena (replacedSize (i.bytes arena str) replaceStr replacement) with
    | mk block pushed =>
      cases block with
      | none =>
        dsimp only
        rw [if_pos ⟨rfl, hne⟩]
        rfl
      | some off =>
        dsimp only
        rw [if_neg (fun hnone => by cases hnone.1)]
        rfl

theorem FixArena.replaceAll {n : Nat} (h : FixArena arena n) (hf : replaceStr ≠ []) (hascii : replaceStr.headD 0 < 128)
    (hr : replacement ≠ []) (hsome : count replaceStr (i.bytes arena str) ≠ 0)
    (hsize : replacedSize (i.bytes arena str) replaceStr replacement ≤ n)
    (hres : i.replaceAll arena str replaceStr replacement = some (res, arena')) :
    FixArena arena' n ∧ InPlace arena' res ∧ i.size res = replacedSize (i.bytes arena str) replaceStr replacement ∧
      i.bytes arena' res = Memory.read (Memory.write arena.memory (arena.pos - sizeOfArena)
        (replace replaceStr replacement (i.bytes arena str))) (arena.pos - sizeOfArena) (i.size res) := by
  rw [replaceAll_eq hf hascii hr, if_neg hsome] at hres
  cases hpush : memArenaPush arena (replacedSize (i.bytes arena str) replaceStr replacement) with
  | mk block pushed =>
    rw [hpush] at hres
    cases block with
    | none => cases hres
    | some off =>
      obtain ⟨hoff, hmemory, hbehind, hpushed⟩ := h.push hsize hpush
      simp only [Option.some.injEq, Prod.mk.injEq] at hres
      obtain ⟨rfl, rfl⟩ := hres
      refine ⟨hpushed.of_memory _, ?_, rfl, ?_⟩
      · intro start size heq
        rw [PathStr.slice.injEq] at heq
        show _ ≤ pushed.pos - sizeOfArena
        have hpos := h.pos
        omega
      · rw [FixPathInput.bytes_slice]
        simp only [hmemory, hoff, FixPathInput.size]

end

theorem slashed_eq_replace (path : List UInt8) : replace (s8 "\\") (s8 "/") path = slashed path := by
  induction path with
  | nil => rw [replace]; rfl
  | cons c path ih =>
    have hhit : s8 "\\" <+: c :: path ↔ c = chr '\\' := by
      show [chr '\\'] <+: c :: path ↔ c = chr '\\'
      rw [List.cons_prefix_cons]
      simp [eq_comm]
    by_cases hc : c = chr '\\'
    · rw [Occurrences.replace_match (by decide) (hhit.mpr hc)]
      show s8 "/" ++ replace (s8 "\\") (s8 "/") path = _
      rw [ih]
      simp [slashed, hc, s8]
    · rw [Occurrences.replace_skip fun h => hc (hhit.mp h), ih]
      simp [slashed, hc]

theorem length_slashed (path : List UInt8) : (slashed path).length = path.length := List.length_map _

theorem slashed_of_count {path : List UInt8} (h : count (s8 "\\") path = 0) : slashed path = path := by
  rw [← slashed_eq_replace, Occurrences.replace_of_count_zero (by decide) h]

theorem not_mem_slashed (path : List UInt8) : chr '\\' ∉ slashed path := by
  intro h
  obtain ⟨c, -, hc⟩ := List.mem_map.mp h
  by_cases hback : c = chr '\\'
  · rw [if_pos hback] at hc
    cases hc
  · rw [if_neg hback] at hc
    exact hback hc

theorem replacedSize_slash {str : List UInt8} (h : str.length < 2 ^ 64) :
    replacedSize str (s8 "\\") (s8 "/") = str.length := by
  have hone : (s8 "\\").length = 1 ∧ (s8 "/").length = 1 := ⟨rfl, rfl⟩
  unfold replacedSize
  rw [hone.1, hone.2, Int.sub_add_cancel]
  exact wrap64_of_lt h

/-- Two occurrences of `/./` are at least two bytes apart. -/
theorem count_dot_le (str : List UInt8) : 2 * count (s8 "/./") str ≤ str.length := by
  induction hn : str.length using Nat.strong_induction_on generalizing str with
  | _ n ih =>
    cases str with
    | nil => simp [count]
    | cons c str =>
      rw [List.length_cons] at hn
      by_cases hhit : s8 "/./" <+: c :: str
      · have hlen := hhit.length_le
        rw [List.length_cons] at hlen
        have hthree : (s8 "/./").length = 3 := rfl
        have hnext : ¬ OccursAt (s8 "/./") (c :: str) 1 := by
          intro hocc
          obtain ⟨t, ht⟩ := hhit
          obtain ⟨u, hu⟩ := hocc
          rw [← ht] at hu
          have hhead : chr '/' = chr '.' := (List.cons.inj hu).1
          exact absurd hhead (by decide)
        have hdrop := Occurrences.count_drop (k := 2) (s := c :: str) (s8 "/./") (by rw [List.length_cons]; omega)
        have hfirst : (List.range 2).countP (fun k => OccursAt (s8 "/./") (c :: str) k) ≤ 1 := by
          have hrange : List.range 2 = [0, 1] := rfl
          rw [hrange, List.countP_cons, List.countP_singleton, if_neg (by simpa using hnext), Nat.zero_add]
          split <;> omega
        have hrest := ih ((c :: str).drop 2).length (by rw [List.length_drop, List.length_cons]; omega) _ rfl
        rw [List.length_drop, List.length_cons] at hrest
        omega
      · rw [Occurrences.count_skip hhit]
        have hrest := ih str.length (by omega) str rfl
        omega

theorem replacedSize_dot {str : List UInt8} (h : str.length < 2 ^ 64) :
    replacedSize str (s8 "/./") (s8 "/") = str.length - 2 * count (s8 "/./") str := by
  have hle := count_dot_le str
  have hlen : ((s8 "/./").length : Int) = 3 ∧ ((s8 "/").length : Int) = 1 := ⟨rfl, rfl⟩
  have hdiff : ((str.length : Int) - count (s8 "/./") str * (s8 "/./").length) +
      count (s8 "/./") str * (s8 "/").length = ((str.length - 2 * count (s8 "/./") str : Nat) : Int) := by
    rw [hlen.1, hlen.2]
    omega
  unfold replacedSize
  rw [hdiff]
  exact wrap64_of_lt (by omega)

section
variable {i : FixPathInput} {arena arena' : Arena} {res : PathStr}

theorem replaceAll_slash (h : FixArena arena i.path.length)
    (hres : i.replaceAll arena .path (s8 "\\") (s8 "/") = some (res, arena')) :
    FixArena arena' i.path.length ∧ InPlace arena' res ∧ i.size res = i.path.length ∧
      i.bytes arena' res = slashed i.path := by
  by_cases hzero : count (s8 "\\") i.path = 0
  · rw [replaceAll_eq (by decide) (by decide) (by decide), FixPathInput.bytes_path, if_pos hzero] at hres
    simp only [Option.some.injEq, Prod.mk.injEq] at hres
    obtain ⟨rfl, rfl⟩ := hres
    exact ⟨h, inPlace_path arena, rfl, by rw [FixPathInput.bytes_path, slashed_of_count hzero]⟩
  · have hcap := h.cap
    have hsame : replacedSize i.path (s8 "\\") (s8 "/") = i.path.length := replacedSize_slash (by omega)
    have hafter := h.replaceAll (by decide) (by decide) (by decide) (by rwa [FixPathInput.bytes_path])
      (by rw [FixPathInput.bytes_path, hsame]) hres
    rw [FixPathInput.bytes_path, hsame] at hafter
    obtain ⟨harena, hplace, hsize, hbytes⟩ := hafter
    refine ⟨harena, hplace, hsize, ?_⟩
    rw [hbytes, slashed_eq_replace, hsize, ← length_slashed i.path]
    exact Memory.read_write _ _ _

theorem replaceAll_dot {n : Nat} {str : PathStr} (h : FixArena arena n) (hplace : InPlace arena str)
    (hsize : i.size str = n) (hres : i.replaceAll arena str (s8 "/./") (s8 "/") = some (res, arena')) :
    FixArena arena' n ∧ InPlace arena' res ∧
      (count (s8 "/./") (i.bytes arena str) = 0 ∧ res = str ∧ arena' = arena ∨ i.size res < n) := by
  by_cases hzero : count (s8 "/./") (i.bytes arena str) = 0
  · rw [replaceAll_eq (by decide) (by decide) (by decide), if_pos hzero] at hres
    simp only [Option.some.injEq, Prod.mk.injEq] at hres
    obtain ⟨rfl, rfl⟩ := hres
    exact ⟨h, hplace, Or.inl ⟨hzero, rfl, rfl⟩⟩
  · have hcap := h.cap
    have hlen : (i.bytes arena str).length = n := (i.length_bytes arena str).trans hsize
    have hless := replacedSize_dot (show (i.bytes arena str).length < 2 ^ 64 by omega)
    have htwo := count_dot_le (i.bytes arena str)
    rw [hlen] at hless htwo
    obtain ⟨harena, hplace', hsize', -⟩ := h.replaceAll (by decide) (by decide) (by decide) hzero (by omega) hres
    exact ⟨harena, hplace', Or.inr (by omega)⟩

end

/-! ## The loop -/

theorem findFirst_dotdot_iff (str : List UInt8) : strFindFirst str (s8 "..") 0 = str.length ↔ ¬ s8 ".." <:+: str := by
  have hne : s8 ".." ≠ [] := by decide
  rw [Occurrences.infix_iff]
  rcases Nat.lt_or_ge str.length (s8 "..").length with hshort | hle
  · rw [strFindFirst_short hne hshort]
    refine iff_of_true rfl ?_
    rintro ⟨k, hk⟩
    have := hk.le hne
    omega
  · rcases strFindFirst_scan hne hle (Nat.zero_le (str.length - _ + 1)) with ⟨hhit, -⟩ | ⟨heq, hnone⟩
    · have hocc := ((findHit_iff hne _).mp hhit).2
      have hend := hocc.le hne
      have hlen : (s8 "..").length = 2 := rfl
      exact iff_of_false (by omega) fun hno => hno ⟨_, hocc⟩
    · refine iff_of_true heq ?_
      rintro ⟨k, hk⟩
      have hmiss := hnone k (Nat.zero_le _)
      rw [(findHit_iff hne k).mpr ⟨by decide, hk⟩] at hmiss
      cases hmiss

theorem FixTurn.NoUnderflow.differences {t : FixTurn} (h : t.NoUnderflow) (hsize : t.size < 2 ^ 64) :
    wrap64 (t.dotdot + 3 - t.lastSlash) = t.range ∧ wrap64 (t.size - t.range) = t.size - t.range ∧
      wrap64 (t.size - t.range - t.lastSlash + 1) = t.size + 1 - (t.range + t.lastSlash) := by
  have hlo := h.range
  have hcut := h.size
  have hrest := h.rest
  have hsum : t.range + t.lastSlash = t.dotdot + 3 := Nat.sub_add_cancel hlo
  have hrange : (t.dotdot + 3 - t.lastSlash : Int) = (t.range : Nat) := by omega
  have hnewSize : (t.size - t.range : Int) = (t.size - t.range : Nat) := (Int.ofNat_sub hcut).symm
  have hsecond : (t.size - t.range - t.lastSlash + 1 : Int) = (t.size + 1 - (t.range + t.lastSlash) : Nat) := by omega
  rw [hrange, hsecond, hnewSize]
  refine ⟨wrap64_of_lt ?_, wrap64_of_lt ?_, wrap64_of_lt ?_⟩
  · omega
  · omega
  · omega

section
variable {i : FixPathInput}

theorem fixLoop_end {turns : Nat} {arena : Arena} {str : PathStr} (hdots : ¬ s8 ".." <:+: i.bytes arena str) :
    i.fixLoop (turns + 1) arena str = some ([], str, arena) := by
  have hfind := (findFirst_dotdot_iff (i.bytes arena str)).mpr hdots
  rw [FixPathInput.length_bytes] at hfind
  rw [FixPathInput.fixLoop]
  exact if_pos hfind

theorem fixLoop_turn {turns : Nat} {arena arena' : Arena} {str final : PathStr} {steps : List FixTurn}
    (hsize : i.size str < 2 ^ 64) (hdots : s8 ".." <:+: i.bytes arena str)
    (hrun : i.fixLoop (turns + 1) arena str = some (steps, final, arena')) (hno : ∀ t ∈ steps, t.NoUnderflow) :
    ∃ t steps' off pushed, steps = t :: steps' ∧ t.NoUnderflow ∧ t.size = i.size str ∧
      memArenaPush arena (i.size str - t.range) = (some off, pushed) ∧
      i.fixLoop turns (i.copy (i.copy pushed off str 0 t.lastSlash) (off + t.lastSlash) str (t.dotdot + 3)
        (i.size str + 1 - (t.range + t.lastSlash))) (.slice off (i.size str - t.range)) =
        some (steps', final, arena') := by
  have hfind := findFirst_dotdot_iff (i.bytes arena str)
  rw [FixPathInput.length_bytes] at hfind
  have hmore : strFindFirst (i.bytes arena str) (s8 "..") 0 ≠ i.size str := fun h => hfind.mp h hdots
  rw [FixPathInput.fixLoop] at hrun
  simp only [if_neg hmore] at hrun
  generalize strFindFirst (i.bytes arena str) (s8 "..") 0 = dotdot at hrun
  generalize strFindLast (i.bytes arena str) (s8 "/") (wrap64 (dotdot - 1)) = lastSlash at hrun
  cases hpush : memArenaPush arena (wrap64 (i.size str - wrap64 (dotdot + 3 - lastSlash))) with
  | mk block pushed =>
    rw [hpush] at hrun
    cases block with
    | none => cases hrun
    | some off =>
      obtain ⟨⟨steps', final', arena''⟩, hrest, heq⟩ := Option.map_eq_some_iff.mp hrun
      cases heq
      have hturn := hno _ List.mem_cons_self
      obtain ⟨hrange, hnewSize, hsecond⟩ := hturn.differences hsize
      dsimp only at hrange hnewSize hsecond
      rw [hrange, hnewSize] at hpush
      rw [hrange, hnewSize, hsecond] at hrest
      exact ⟨_, steps', off, pushed, rfl, hturn, rfl, hpush, hrest⟩

/-- A turn that cuts out nothing leaves the `..` where it is. -/
theorem fixLoop_shrinks {turns n : Nat} {arena arena' : Arena} {str final : PathStr} {steps : List FixTurn}
    (harena : FixArena arena n) (hplace : InPlace arena str) (hsize : i.size str ≤ n)
    (hdots : s8 ".." <:+: i.bytes arena str) (hrun : i.fixLoop turns arena str = some (steps, final, arena'))
    (hno : ∀ t ∈ steps, t.NoUnderflow) : i.size final < i.size str := by
  induction turns generalizing arena str steps with
  | zero => cases hrun
  | succ turns ih =>
    have hcap := harena.cap
    obtain ⟨t, steps', off, pushed, rfl, hturn, ht, hpush, hrest⟩ := fixLoop_turn (by omega) hdots hrun hno
    obtain ⟨hoff, hmemory, hbehind, hpushed⟩ := harena.push (by omega) hpush
    have hcut : t.range ≤ i.size str := ht ▸ hturn.size
    set copied := i.copy (i.copy pushed off str 0 t.lastSlash) (off + t.lastSlash) str (t.dotdot + 3)
      (i.size str + 1 - (t.range + t.lastSlash)) with hcopied
    by_cases hmore : s8 ".." <:+: i.bytes copied (.slice off (i.size str - t.range))
    · have hplace' : InPlace copied (.slice off (i.size str - t.range)) := by
        intro start size h
        cases h
        show _ ≤ pushed.pos - sizeOfArena
        have hpos := harena.pos
        omega
      have hle : i.size (.slice off (i.size str - t.range)) ≤ n := by
        show i.size str - t.range ≤ n
        omega
      have hless := ih (hpushed.of_memory copied.memory) hplace' hle hmore hrest
        (fun u hu => hno u (List.mem_cons_of_mem _ hu))
      exact Nat.lt_of_lt_of_le hless (Nat.sub_le _ _)
    · cases turns with
      | zero => cases hrest
      | succ turns =>
        rw [fixLoop_end hmore, Option.some.injEq, Prod.mk.injEq, Prod.mk.injEq] at hrest
        obtain ⟨-, rfl, -⟩ := hrest
        refine Nat.sub_lt_self (Nat.pos_of_ne_zero fun hzero => hmore ?_) hcut
        -- the slash was looked for from the `..` on, and found behind it
        have hlast : t.lastSlash = t.dotdot + 3 := by
          have hrange := hturn.range
          have hdef : t.dotdot + 3 - t.lastSlash = 0 := hzero
          omega
        rw [hcopied, hzero, hlast, Nat.zero_add, Nat.sub_zero, FixPathInput.bytes_copied,
          FixPathInput.bytes_congr hmemory]
        · exact hdots
        · exact hoff ▸ hplace
        · have hleft := hturn.rest
          rw [ht, hzero, hlast] at hleft
          omega

end

/-! ## The call -/

section
variable {i : FixPathInput}

theorem osFixFilepath_eq {turns off : Nat} {arena pushed : Arena}
    (hpush : memArenaPush arena i.path.length = (some off, pushed)) :
    i.osFixFilepath turns arena =
      (i.replaceAll pushed .path (s8 "\\") (s8 "/")).bind fun first =>
      (i.replaceAll first.2 first.1 (s8 "/./") (s8 "/")).bind fun second =>
      (i.fixLoop turns second.2 second.1).bind fun last =>
        if i.size last.2.1 < i.path.length then none
        else some
          { turns := last.1
            resultPath := .slice off (i.size last.2.1)
            arena := memScratchEnd (i.copy last.2.2 off last.2.1 0 (i.size last.2.1))
              ⟨(memScratchStart arena).start + i.size last.2.1⟩ } := by
  unfold FixPathInput.osFixFilepath
  rw [hpush]
  simp

/-- Nothing was cut out of the path by the time of the assertion. -/
theorem fixed_plain {turns : Nat} {arena arena₁ arena₂ arena₃ : Arena} {path₁ path₂ path₃ : PathStr}
    {steps : List FixTurn} (h : FixArena arena i.path.length)
    (hfirst : i.replaceAll arena .path (s8 "\\") (s8 "/") = some (path₁, arena₁))
    (hsecond : i.replaceAll arena₁ path₁ (s8 "/./") (s8 "/") = some (path₂, arena₂))
    (hloop : i.fixLoop turns arena₂ path₂ = some (steps, path₃, arena₃)) (hno : ∀ t ∈ steps, t.NoUnderflow)
    (hsize : i.path.length ≤ i.size path₃) :
    ¬ s8 ".." <:+: slashed i.path ∧ ¬ s8 "/./" <:+: slashed i.path ∧ i.size path₃ = i.path.length := by
  obtain ⟨harena₁, hplace₁, hsize₁, hbytes₁⟩ := replaceAll_slash h hfirst
  obtain ⟨harena₂, hplace₂, hcase⟩ := replaceAll_dot harena₁ hplace₁ hsize₁ hsecond
  have hle₂ : i.size path₂ ≤ i.path.length := by
    rcases hcase with ⟨-, rfl, -⟩ | hless
    · exact Nat.le_of_eq hsize₁
    · exact Nat.le_of_lt hless
  have hdots : ¬ s8 ".." <:+: i.bytes arena₂ path₂ := by
    intro hdots
    have hless := fixLoop_shrinks harena₂ hplace₂ hle₂ hdots hloop hno
    omega
  cases turns with
  | zero => cases hloop
  | succ turns =>
    rw [fixLoop_end hdots, Option.some.injEq, Prod.mk.injEq, Prod.mk.injEq] at hloop
    obtain ⟨-, rfl, -⟩ := hloop
    rcases hcase with ⟨hzero, rfl, rfl⟩ | hless
    · rw [hbytes₁] at hzero hdots
      refine ⟨hdots, ?_, hsize₁⟩
      rw [Occurrences.infix_iff, not_exists]
      exact (Occurrences.count_eq_zero_iff (by decide)).mp hzero
    · omega

end

/-- A path that starts with `./` is longer than its normal path. -/
theorem length_normalPath_lt {path : List UInt8} (hdots : ¬ s8 ".." <:+: slashed path)
    (hdot : ¬ s8 "/./" <:+: slashed path) (hfirst : s8 "./" <+: slashed path) :
    (normalPath path).length < path.length := by
  obtain ⟨rest, hrest⟩ := hfirst
  have hlen := congrArg List.length hrest
  rw [length_slashed, List.length_append] at hlen
  have hnormal : normalPath path = rest := by
    rw [normalPath, ← hrest]
    have hskip : Components.normal (chr '/') (s8 ".") (s8 "..") (s8 "./" ++ rest) =
        Components.normal (chr '/') (s8 ".") (s8 "..") rest := Components.normal_dot (by decide) (by decide) rest
    refine hskip.trans (Components.normal_eq ?_ ?_ ?_)
    · intro hinfix
      exact hdots (hrest ▸ hinfix.trans (List.suffix_append _ _).isInfix)
    · intro hnext
      obtain ⟨rest', rfl⟩ := hnext
      refine hdot (hrest ▸ ?_)
      exact ⟨s8 ".", rest', by simp [s8]⟩
    · intro hinfix
      exact hdot (hrest ▸ hinfix.trans (List.suffix_append _ _).isInfix)
  have htwo : (s8 "./").length = 2 := rfl
  rw [hnormal]
  omega

theorem normalPath_plain {path : List UInt8} (h : PlainPath path) : normalPath path = slashed path :=
  Components.normal_eq h.dotdot h.first h.dot

section
variable {i : FixPathInput} {arena : Arena}

theorem memory_popTo (arena : Arena) (pos : Nat) : (memArenaPopTo arena pos).memory = arena.memory := by
  unfold memArenaPopTo
  dsimp only
  split <;> rfl

theorem bytes_result (off pos : Nat) (str : PathStr) :
    i.bytes (memScratchEnd (i.copy arena off str 0 (i.size str)) ⟨pos⟩) (.slice off (i.size str)) =
      i.bytes arena str := by
  rw [FixPathInput.bytes_slice, memScratchEnd, memory_popTo]
  have hwritten := Memory.read_write arena.memory off (i.bytes arena str)
  rw [FixPathInput.length_bytes] at hwritten
  exact hwritten

theorem replaceAll_slash_isSome (h : FixArena arena i.path.length)
    (hroom : arena.pos + takenBytes arena i.path.length ≤ arena.cap) :
    ∃ res arena', i.replaceAll arena .path (s8 "\\") (s8 "/") = some (res, arena') := by
  obtain ⟨k, hk, ha⟩ := h.alignment
  have hcap := h.cap
  rw [replaceAll_eq (by decide) (by decide) (by decide), FixPathInput.bytes_path, replacedSize_slash (by omega)]
  split
  · exact ⟨_, _, rfl⟩
  · have hpush := memArenaPush_room i.path.length hk ha h.pos (by omega) hroom
    rw [hpush]
    exact ⟨_, _, rfl⟩

theorem osFixFilepath_plain (h : FixArena arena i.path.length)
    (hroom : arena.pos + 2 * takenBytes arena i.path.length ≤ arena.cap) (hplain : PlainPath i.path) :
    ∃ r, i.osFixFilepath 1 arena = some r ∧ r.turns = [] ∧ i.bytes r.arena r.resultPath = slashed i.path := by
  obtain ⟨k, hk, ha⟩ := h.alignment
  have hcap := h.cap
  have hpush := memArenaPush_room i.path.length hk ha h.pos (by omega) (by omega)
  obtain ⟨-, -, -, hpushed⟩ := h.push (Nat.le_refl _) hpush
  obtain ⟨path₁, arena₁, hfirst⟩ := replaceAll_slash_isSome hpushed (by
    show arena.pos + takenBytes arena i.path.length + takenBytes arena i.path.length ≤ arena.cap
    omega)
  obtain ⟨-, -, hsize₁, hbytes₁⟩ := replaceAll_slash hpushed hfirst
  have hzero : count (s8 "/./") (i.bytes arena₁ path₁) = 0 := by
    rw [hbytes₁, Occurrences.count_eq_zero_iff (by decide), ← not_exists, ← Occurrences.infix_iff]
    exact hplain.dot
  have hdots : ¬ s8 ".." <:+: i.bytes arena₁ path₁ := hbytes₁ ▸ hplain.dotdot
  have hrun : i.osFixFilepath 1 arena = some
      { turns := []
        resultPath := .slice (arena.pos - sizeOfArena) (i.size path₁)
        arena := memScratchEnd (i.copy arena₁ (arena.pos - sizeOfArena) path₁ 0 (i.size path₁))
          ⟨(memScratchStart arena).start + i.size path₁⟩ } := by
    rw [osFixFilepath_eq hpush, hfirst, Option.bind_some, replaceAll_eq (by decide) (by decide) (by decide),
      if_pos hzero, Option.bind_some, fixLoop_end hdots, Option.bind_some]
    exact if_neg (Nat.not_lt.mpr hsize₁.ge)
  exact ⟨_, hrun, rfl, (bytes_result _ _ path₁).trans hbytes₁⟩

theorem plainPath_of_fixes {turns : Nat} {r : FixResult} (h : FixArena arena i.path.length)
    (hroom : arena.pos + takenBytes arena i.path.length ≤ arena.cap) (hrun : i.osFixFilepath turns arena = some r)
    (hfixes : FixesFilepath i r) : PlainPath i.path := by
  obtain ⟨k, hk, ha⟩ := h.alignment
  have hcap := h.cap
  have hpush := memArenaPush_room i.path.length hk ha h.pos (by omega) hroom
  obtain ⟨-, -, -, hpushed⟩ := h.push (Nat.le_refl _) hpush
  rw [osFixFilepath_eq hpush] at hrun
  obtain ⟨⟨path₁, arena₁⟩, hfirst, hrun⟩ := Option.bind_eq_some_iff.mp hrun
  obtain ⟨⟨path₂, arena₂⟩, hsecond, hrun⟩ := Option.bind_eq_some_iff.mp hrun
  obtain ⟨⟨steps, path₃, arena₃⟩, hloop, hrun⟩ := Option.bind_eq_some_iff.mp hrun
  dsimp only at hsecond hloop hrun
  split at hrun
  · cases hrun
  · next hsize =>
    rw [Option.some.injEq] at hrun
    obtain ⟨hdots, hdot, hsame⟩ := fixed_plain hpushed hfirst hsecond hloop
      (by rw [← hrun] at hfixes; exact hfixes.noUnderflow) (Nat.not_lt.mp hsize)
    refine ⟨hdots, hdot, fun hdotFirst => ?_⟩
    have hless := length_normalPath_lt hdots hdot hdotFirst
    have hnormal := congrArg List.length hfixes.normal
    rw [← hrun, FixPathInput.length_bytes] at hnormal
    have hsize₃ : i.size path₃ = (normalPath i.path).length := hnormal
    omega

theorem fixesFilepath_iff (i : FixPathInput) (arena : Arena) (h : FixArena arena i.path.length)
    (hroom : arena.pos + 2 * takenBytes arena i.path.length ≤ arena.cap) :
    (∃ turns r, i.osFixFilepath turns arena = some r ∧ FixesFilepath i r) ↔ PlainPath i.path := by
  constructor
  · rintro ⟨turns, r, hrun, hfixes⟩
    exact plainPath_of_fixes h (by omega) hrun hfixes
  · intro hplain
    obtain ⟨r, hrun, hturns, hbytes⟩ := osFixFilepath_plain h hroom hplain
    refine ⟨1, r, hrun, ?_, ?_, ?_⟩
    · simp [hturns]
    · rw [hbytes, normalPath_plain hplain]
    · rw [hbytes]
      refine ⟨not_mem_slashed i.path, hplain.dot, fun hup => hplain.dotdot ?_⟩
      have hinfix := Components.mem_infix (chr '/') hup
      rwa [List.intercalate_splitOn] at hinfix

end

theorem fixArena_preAllocated (n : Nat) (h : n < 2 ^ 32) :
    FixArena (memMakeArenaPreAllocated (fun _ => 0) 1024) n :=
  ⟨by decide, by decide, ⟨4, by decide, rfl⟩, by
    show 1024 + n + 16 < 2 ^ 64
    omega⟩

theorem fixesFilepath_iff_backslash : ∃ turns r,
    FixPathInput.osFixFilepath ⟨s8 "a\\b", fun _ => 0⟩ turns (memMakeArenaPreAllocated (fun _ => 0) 1024) = some r ∧
      FixesFilepath ⟨s8 "a\\b", fun _ => 0⟩ r := by
  refine (fixesFilepath_iff _ _ (fixArena_preAllocated _ (by decide)) (by decide)).mpr ⟨?_, ?_, ?_⟩
  · decide
  · decide
  · decide

/-- What is left of `a/../b` is shorter than it. -/
theorem not_fixesFilepath : DotdotsPreceded (s8 "a/../b") ∧ ¬ ∃ turns r,
    FixPathInput.osFixFilepath ⟨s8 "a/../b", fun _ => 0⟩ turns (memMakeArenaPreAllocated (fun _ => 0) 1024) = some r ∧
      FixesFilepath ⟨s8 "a/../b", fun _ => 0⟩ r := by
  constructor
  · have hsplit : (slashed (s8 "a/../b")).splitOn (chr '/') = [s8 "a", s8 "..", s8 "b"] := by decide
    have hname : s8 "a" ≠ s8 ".." ∧ s8 "a" ≠ s8 "." ∧ s8 "a" ≠ [] ∧ s8 "b" ≠ s8 ".." := by decide
    simp [DotdotsPreceded, hsplit, Components.Resolvable, hname]
  · rintro ⟨turns, r, hrun, hfixes⟩
    have hplain := plainPath_of_fixes (fixArena_preAllocated _ (by decide)) (by decide) hrun hfixes
    exact hplain.dotdot ⟨s8 "a/", s8 "/b", rfl⟩

end CWebServer
