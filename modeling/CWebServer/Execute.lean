import CWebServer.ArenaSound
import CWebServer.JoinSound
import CWebServer.Lib.LittleEndian
import CWebServer.Lib.Terminated

/-!
# The arguments of a process

`os_execute` joins the arguments in a record, each with its terminator, and
lists pointers into it behind. The offset of an argument is the length of the
one before it alone, not of all of them.
-/

namespace CWebServer

/-- What `execvp` gets, and the arena at the call. -/
structure ExecCall where
  exec : S8
  /-- The offset of the list of pointers. -/
  argsArr : Nat
  arena : Arena

/-- The address of the first byte; a recorded string is no literal. -/
def contentAddress (base : Nat) : S8 → Nat
  | .slice start _ => base + start
  | _ => 0

def argsArrLoop (content argsArr : Nat) : List (List UInt8) → Nat → Nat → (Nat → UInt8) → Nat → UInt8
  | [], _, _, memory => memory
  | arg :: args, idx, offset, memory =>
    argsArrLoop content argsArr args (idx + 1) ((arg.length + 1) % 2 ^ 32)
      (LittleEndian.writeWord memory (argsArr + 8 * idx) (content + offset))

def strJoinTerminated (arena : Arena) (str : List UInt8) : Option (S8 × Arena) :=
  strJoinVargs arena [.str str, .char 0]

/-- The child up to its call of `execvp`; `base` is the address of `arena->memory`. -/
def osExecute (base : Nat) (tmpArena : Arena) (execPath : List UInt8) (args : List (List UInt8)) : Option ExecCall := do
  let (exec, arena) ← strJoinTerminated tmpArena execPath
  let (argsUnix, arena) ← strRecord arena fun arena =>
    args.foldlM (fun arena arg => (strJoinTerminated arena arg).map Prod.snd) arena
  match memArenaPush arena (8 * ((args.length + 1) % 2 ^ 32)) with
  | (some argsArr, arena) =>
    let memory := argsArrLoop (contentAddress base argsUnix) argsArr args 0 0 arena.memory
    some {
      exec
      argsArr
      arena := { arena with memory := LittleEndian.writeWord memory (argsArr + 8 * args.length) 0 } }
  | (none, _) => none

/-! ## What arrives -/

/-- Each pointer is that of a terminated copy, and `NULL` stands behind them. -/
structure ArgumentsArrive (base : Nat) (args : List (List UInt8)) (call : ExecCall) : Prop where
  copies : ∀ idx arg, args[idx]? = some arg →
    ∃ off, LittleEndian.readWord call.arena.memory (call.argsArr + 8 * idx) = base + off ∧
      Memory.read call.arena.memory off (arg.length + 1) = arg ++ [0]
  null : LittleEndian.readWord call.arena.memory (call.argsArr + 8 * args.length) = 0

/-- Behind the first, each argument is the end of one whose own end in the joined text is as far from its start as
the argument and the one before it are long. -/
def ArgumentsFit (args : List (List UInt8)) : Prop :=
  ∀ idx before arg, args[idx]? = some before → args[idx + 1]? = some arg →
    ∃ done target rest, args = done ++ target :: rest ∧ arg <:+ target ∧
      (before.length + 1) % 2 ^ 32 + arg.length = (Terminated.join 0 done).length + target.length

/-! ## The record -/

theorem emits_str_char (str : List UInt8) :
    Emits (fun arena => [StrValue.str str, .char 0].foldlM strRecordValue arena) (str ++ [0]) := by
  have h := (emits_pushCopy str).bind (emits_pushCopy [0])
  simp only [List.foldlM_cons, List.foldlM_nil, bind_pure]
  exact h

theorem emits_terminated (str : List UInt8) :
    Emits (fun arena => (strJoinTerminated arena str).map Prod.snd) (str ++ [0]) := (emits_str_char str).strRecord

theorem emits_args (args : List (List UInt8)) :
    Emits (fun arena => args.foldlM (fun arena arg => (strJoinTerminated arena arg).map Prod.snd) arena)
      (Terminated.join 0 args) := .foldlM emits_terminated args

/-! ## The pointers -/

/-- The offsets of the arguments, the first at `offset`. -/
def argOffsets : Nat → List (List UInt8) → List Nat
  | _, [] => []
  | offset, arg :: args => offset :: argOffsets ((arg.length + 1) % 2 ^ 32) args

theorem argOffsets_zero (args : List (List UInt8)) (offset : Nat) :
    (argOffsets offset args)[0]? = args[0]?.map fun _ => offset := by
  cases args <;> rfl

theorem argOffsets_succ (args : List (List UInt8)) (offset idx : Nat) :
    (argOffsets offset args)[idx + 1]? =
      args[idx]?.bind fun before => args[idx + 1]?.map fun _ => (before.length + 1) % 2 ^ 32 := by
  induction args generalizing offset idx with
  | nil => rfl
  | cons arg args ih =>
    cases idx with
    | zero =>
      rw [argOffsets, List.getElem?_cons_succ, argOffsets_zero]
      rfl
    | succ idx =>
      rw [argOffsets, List.getElem?_cons_succ, ih]
      rfl

section
variable (content argsArr : Nat)

theorem argsArrLoop_read (args : List (List UInt8)) (idx offset : Nat) (memory : Nat → UInt8) {off n : Nat}
    (h : off + n ≤ argsArr + 8 * idx) :
    Memory.read (argsArrLoop content argsArr args idx offset memory) off n = Memory.read memory off n := by
  induction args generalizing idx offset memory with
  | nil => rfl
  | cons arg args ih =>
    rw [argsArrLoop, ih _ _ _ (by omega)]
    exact LittleEndian.read_writeWord memory _ (Or.inr h)

theorem argsArrLoop_words (args : List (List UInt8)) (idx offset : Nat) (memory : Nat → UInt8)
    (hfit : ∀ o ∈ argOffsets offset args, content + o < 2 ^ 64) {i o : Nat}
    (h : (argOffsets offset args)[i]? = some o) :
    LittleEndian.readWord (argsArrLoop content argsArr args idx offset memory) (argsArr + 8 * (idx + i)) =
      content + o := by
  induction args generalizing idx offset memory i with
  | nil => cases h
  | cons arg args ih =>
    cases i with
    | zero =>
      cases h
      have hkept : LittleEndian.readWord (argsArrLoop content argsArr (arg :: args) idx o memory) (argsArr + 8 * idx) =
          LittleEndian.readWord (LittleEndian.writeWord memory (argsArr + 8 * idx) (content + o)) (argsArr + 8 * idx) :=
        congrArg LittleEndian.value (argsArrLoop_read content argsArr args _ _ _ (by omega))
      rw [Nat.add_zero, hkept]
      exact LittleEndian.readWord_writeWord _ _ (hfit o List.mem_cons_self)
    | succ i =>
      have htail := ih (idx + 1) _ (LittleEndian.writeWord memory (argsArr + 8 * idx) (content + offset))
        (fun o ho => hfit o (List.mem_cons_of_mem _ ho)) h
      rw [Nat.add_assoc, Nat.add_comm 1] at htail
      exact htail

end

/-! ## The call -/

/-- Where the child has its joined arguments and its pointers. -/
structure ChildMemory (base : Nat) (args : List (List UInt8)) (start : Nat) (call : ExecCall) : Prop where
  joined : Memory.read call.arena.memory start (Terminated.join 0 args).length = Terminated.join 0 args
  words : ∀ idx offset, (argOffsets 0 args)[idx]? = some offset →
    LittleEndian.readWord call.arena.memory (call.argsArr + 8 * idx) = base + start + offset
  null : LittleEndian.readWord call.arena.memory (call.argsArr + 8 * args.length) = 0

theorem argOffsets_le (args : List (List UInt8)) (offset : Nat) :
    ∀ o ∈ argOffsets offset args, o ≤ offset + (Terminated.join 0 args).length := by
  induction args generalizing offset with
  | nil => simp [argOffsets]
  | cons arg args ih =>
    intro o ho
    rw [Terminated.join_cons, List.length_append, List.length_cons]
    rcases List.mem_cons.mp ho with rfl | ho
    · exact Nat.le_add_right _ _
    · have hle := ih _ o ho
      have hmod := Nat.mod_le (arg.length + 1) (2 ^ 32)
      omega

/-- The arena has room for the path, the joined arguments and the pointers, each rounded up. -/
structure ExecRoom (arena : Arena) (execPath : List UInt8) (args : List (List UInt8)) : Prop where
  record : 0 ≤ arena.unsafeRecord
  pos : sizeOfArena ≤ arena.pos
  room : arena.pos + (execPath.length + 1) + (Terminated.join 0 args).length + 8 * (args.length + 1) +
    3 * (arena.alignment - 1) ≤ arena.cap

theorem argOffsets_length (args : List (List UInt8)) (offset : Nat) :
    (argOffsets offset args).length = args.length := by
  induction args generalizing offset with
  | nil => rfl
  | cons arg args ih => rw [argOffsets, List.length_cons, List.length_cons, ih]

theorem osExecute_eq {base : Nat} {arena arena₁ arena₂ arena₃ : Arena} {execPath : List UInt8}
    {args : List (List UInt8)} {exec argsUnix : S8} {argsArr : Nat}
    (hexec : strRecord arena (fun arena => [StrValue.str execPath, .char 0].foldlM strRecordValue arena) =
      some (exec, arena₁))
    (hargs : strRecord arena₁
      (fun arena => args.foldlM (fun arena arg => (strJoinTerminated arena arg).map Prod.snd) arena) =
      some (argsUnix, arena₂))
    (hpush : memArenaPush arena₂ (8 * ((args.length + 1) % 2 ^ 32)) = (some argsArr, arena₃)) :
    osExecute base arena execPath args = some ⟨exec, argsArr, { arena₃ with
      memory := LittleEndian.writeWord (argsArrLoop (contentAddress base argsUnix) argsArr args 0 0 arena₃.memory)
        (argsArr + 8 * args.length) 0 }⟩ := by
  have hexec' : strJoinTerminated arena execPath = some (exec, arena₁) := hexec
  unfold osExecute
  rw [hexec', Option.bind_eq_bind, Option.bind_some]
  dsimp only
  rw [hargs, Option.bind_some]
  dsimp only
  rw [hpush]

/-- The pointers, below the `NULL` behind them. -/
theorem argsArr_words {content : Nat} {args : List (List UInt8)}
    (hfit : content + (Terminated.join 0 args).length < 2 ^ 64) (argsArr : Nat) (memory : Nat → UInt8) {idx offset : Nat}
    (h : (argOffsets 0 args)[idx]? = some offset) :
    LittleEndian.readWord (LittleEndian.writeWord (argsArrLoop content argsArr args 0 0 memory)
      (argsArr + 8 * args.length) 0) (argsArr + 8 * idx) = content + offset := by
  have hidx : idx < args.length := by
    rw [← argOffsets_length args 0]
    exact (List.getElem?_eq_some_iff.mp h).1
  have hfits : ∀ o ∈ argOffsets 0 args, content + o < 2 ^ 64 := by
    intro o ho
    have hle := argOffsets_le args 0 o ho
    omega
  have hword := argsArrLoop_words content argsArr args 0 0 memory hfits h
  have hlast : argsArr + 8 * idx + 8 ≤ argsArr + 8 * args.length := by omega
  rw [Nat.zero_add] at hword
  exact (LittleEndian.readWord_apart _ _ (Or.inr hlast)).trans hword

theorem contentAddress_recorded (base off : Nat) {args : List (List UInt8)} (hne : args ≠ []) :
    contentAddress base (recorded off (Terminated.join 0 args).length) = base + off := by
  obtain ⟨arg, rest, rfl⟩ := List.exists_cons_of_ne_nil hne
  rw [Terminated.join_cons]
  simp [recorded, contentAddress]

theorem osExecute_child {base k : Nat} {arena : Arena} {execPath : List UInt8} {args : List (List UInt8)} (hk : k ≤ 30)
    (ha : arena.alignment = 2 ^ k) (hcap : base + arena.cap < 2 ^ 64) (h : ExecRoom arena execPath args) :
    ∃ start call, osExecute base arena execPath args = some call ∧ ChildMemory base args start call := by
  have hpos := h.pos
  have hroom := h.room
  obtain ⟨arena₁, hexec, hend₁⟩ := strRecord_ends (emits_str_char execPath).writes hk ha
    ⟨h.record, h.pos, by rw [List.length_append, List.length_singleton]; omega, by omega⟩
  have hpos₁ := hend₁.le_pos
  have hle₁ := hend₁.pos_le
  rw [List.length_append, List.length_singleton] at hpos₁ hle₁
  obtain ⟨arena₂, hargs, hend₂⟩ := strRecord_ends (emits_args args).writes hk (hend₁.alignment.trans ha)
    ⟨hend₁.record ▸ h.record, by omega, by rw [hend₁.alignment, hend₁.cap]; omega, by rw [hend₁.cap]; omega⟩
  have hpos₂ := hend₂.le_pos
  have hle₂ := hend₂.pos_le
  rw [hend₁.alignment] at hle₂
  have hcap₂ : arena₂.cap = arena.cap := hend₂.cap.trans hend₁.cap
  have ha₂ : arena₂.alignment = arena.alignment := hend₂.alignment.trans hend₁.alignment
  have hmod := Nat.mod_le (args.length + 1) (2 ^ 32)
  have htaken := takenBytes_le arena₂ (8 * ((args.length + 1) % 2 ^ 32))
  rw [ha₂] at htaken
  have hpush := memArenaPush_room (8 * ((args.length + 1) % 2 ^ 32)) hk (ha₂.trans ha) (by omega) (by omega) (by omega)
  have hcopy := Memory.read_write arena₁.memory (arena₁.pos - sizeOfArena) (Terminated.join 0 args)
  have hargsArr : arena₁.pos - sizeOfArena + (Terminated.join 0 args).length ≤ arena₂.pos - sizeOfArena := by omega
  refine ⟨arena₁.pos - sizeOfArena, _, osExecute_eq hexec hargs hpush, ?_, ?_, ?_⟩
  · dsimp only
    rw [LittleEndian.read_writeWord _ _ (Or.inr (by omega)), argsArrLoop_read _ _ _ _ _ _ (by omega), hend₂.memory]
    exact hcopy
  · intro idx offset hoffset
    have hne : args ≠ [] := by
      rintro rfl
      cases hoffset
    dsimp only
    rw [contentAddress_recorded base _ hne]
    exact argsArr_words (by omega) _ _ hoffset
  · exact LittleEndian.readWord_writeWord _ _ (by decide)

theorem two_args_le {args : List (List UInt8)} {idx : Nat} {before arg : List UInt8}
    (hbefore : args[idx]? = some before) (harg : args[idx + 1]? = some arg) :
    before.length + 1 + (arg.length + 1) ≤ (Terminated.join 0 args).length := by
  induction args generalizing idx with
  | nil => cases hbefore
  | cons first args ih =>
    rw [Terminated.join_cons, List.length_append, List.length_cons]
    cases idx with
    | zero =>
      cases args with
      | nil => cases harg
      | cons second args =>
        cases hbefore
        cases harg
        rw [Terminated.join_cons, List.length_append, List.length_cons]
        omega
    | succ idx =>
      have hle := ih hbefore harg
      omega

section
variable {base start : Nat} {args : List (List UInt8)} {call : ExecCall}

theorem ChildMemory.copy_iff (h : ChildMemory base args start call) {arg : List UInt8} {o : Nat}
    (hlen : o + (arg.length + 1) ≤ (Terminated.join 0 args).length) :
    Memory.read call.arena.memory (start + o) (arg.length + 1) = arg ++ [0] ↔
      arg ++ [0] <+: (Terminated.join 0 args).drop o := by
  have hread := Memory.take_drop_read call.arena.memory start hlen
  rw [h.joined] at hread
  rw [← hread, List.prefix_iff_eq_take, List.length_append, List.length_singleton]
  exact eq_comm

theorem ChildMemory.arrive_iff (h : ChildMemory base args start call) (hnul : ∀ arg ∈ args, 0 ∉ arg) :
    ArgumentsArrive base args call ↔ ArgumentsFit args := by
  have hoffset : ∀ {idx before arg}, args[idx]? = some before → args[idx + 1]? = some arg →
      LittleEndian.readWord call.arena.memory (call.argsArr + 8 * (idx + 1)) =
        base + start + (before.length + 1) % 2 ^ 32 ∧
      (before.length + 1) % 2 ^ 32 + (arg.length + 1) ≤ (Terminated.join 0 args).length := by
    intro idx before arg hbefore harg
    have hle := two_args_le hbefore harg
    have hmod := Nat.mod_le (before.length + 1) (2 ^ 32)
    refine ⟨h.words _ _ ?_, by omega⟩
    rw [argOffsets_succ, hbefore, harg]
    rfl
  constructor
  · intro harrive idx before arg hbefore harg
    obtain ⟨off, hword, hcopy⟩ := harrive.copies (idx + 1) arg harg
    obtain ⟨hword', hlen⟩ := hoffset hbefore harg
    have hoff : off = start + (before.length + 1) % 2 ^ 32 := by omega
    rw [hoff] at hcopy
    exact (Terminated.prefix_drop_join_iff hnul (hnul arg (List.mem_of_getElem? harg)) _).mp
      ((h.copy_iff hlen).mp hcopy)
  · intro hfit
    refine ⟨fun idx arg harg => ?_, h.null⟩
    cases idx with
    | zero =>
      -- The first argument is at the start.
      cases args with
      | nil => cases harg
      | cons first args =>
        cases harg
        refine ⟨start + 0, h.words 0 0 rfl, (h.copy_iff ?_).mpr ?_⟩
        · rw [Terminated.join_cons, List.length_append, List.length_cons]
          omega
        · rw [Terminated.join_cons, List.drop_zero]
          exact ⟨Terminated.join 0 args, by rw [List.append_assoc]; rfl⟩
    | succ idx =>
      obtain ⟨before, hbefore⟩ : ∃ before, args[idx]? = some before := by
        have hlt := (List.getElem?_eq_some_iff.mp harg).1
        exact ⟨_, List.getElem?_eq_getElem (Nat.lt_of_succ_lt hlt)⟩
      obtain ⟨hword, hlen⟩ := hoffset hbefore harg
      refine ⟨start + (before.length + 1) % 2 ^ 32, hword.trans (Nat.add_assoc _ _ _), (h.copy_iff hlen).mpr ?_⟩
      exact (Terminated.prefix_drop_join_iff hnul (hnul arg (List.mem_of_getElem? harg)) _).mpr
        (hfit idx before arg hbefore harg)

end

theorem argumentsArrive_iff {base k : Nat} {arena : Arena} {execPath : List UInt8} {args : List (List UInt8)}
    (hk : k ≤ 30) (ha : arena.alignment = 2 ^ k) (hcap : base + arena.cap < 2 ^ 64)
    (hroom : ExecRoom arena execPath args) (hnul : ∀ arg ∈ args, 0 ∉ arg) :
    (∃ call, osExecute base arena execPath args = some call ∧ ArgumentsArrive base args call) ↔ ArgumentsFit args := by
  obtain ⟨start, call, hcall, hchild⟩ := osExecute_child hk ha hcap hroom
  rw [← hchild.arrive_iff hnul]
  constructor
  · rintro ⟨call', hcall', harrive⟩
    rw [hcall] at hcall'
    cases hcall'
    exact harrive
  · exact fun harrive => ⟨call, hcall, harrive⟩

theorem argumentsArrive_iff_two : ∃ call,
    osExecute 4096 (memMakeArenaPreAllocated (fun _ => 0) 1024) (s8 "ls") [s8 "-l", s8 "src"] = some call ∧
      ArgumentsArrive 4096 [s8 "-l", s8 "src"] call := by
  refine (argumentsArrive_iff (k := 4) (by decide) rfl (by decide) ⟨by decide, by decide, by decide⟩ (by decide)).mpr ?_
  intro idx before arg hbefore harg
  cases idx with
  | zero =>
    cases hbefore
    cases harg
    exact ⟨[s8 "-l"], s8 "src", [], rfl, List.suffix_refl _, rfl⟩
  | succ idx => cases harg

/-- The third pointer is the second once more. -/
theorem not_argumentsArrive : ¬ ∃ call,
    osExecute 4096 (memMakeArenaPreAllocated (fun _ => 0) 1024) (s8 "a") [s8 "a", s8 "b", s8 "c"] = some call ∧
      ArgumentsArrive 4096 [s8 "a", s8 "b", s8 "c"] call := by
  rintro ⟨call, hcall, harrive⟩
  have hroom : ExecRoom (memMakeArenaPreAllocated (fun _ => 0) 1024) (s8 "a") [s8 "a", s8 "b", s8 "c"] :=
    ⟨by decide, by decide, by decide⟩
  obtain ⟨start, call', hcall', hchild⟩ :=
    osExecute_child (k := 4) (by decide) rfl (show 4096 + 1024 < 2 ^ 64 by decide) hroom
  rw [hcall] at hcall'
  cases hcall'
  obtain ⟨done, target, rest, hargs, hsuffix, hlen⟩ :=
    (hchild.arrive_iff (by decide)).mp harrive 1 (s8 "b") (s8 "c") rfl rfl
  match done, hargs with
  | [], hargs =>
    cases hargs
    cases hlen
  | [_], hargs =>
    cases hargs
    exact absurd hsuffix (by decide)
  | [_, _], hargs =>
    cases hargs
    cases hlen
  | _ :: _ :: _ :: done, hargs => simp at hargs

end CWebServer
