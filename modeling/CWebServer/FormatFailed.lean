import CWebServer.FormatReads
import CWebServer.RecordDepth

/-!
# Formats that fail

The error return of `str_fmtVargs` leaves from within its record, at a single
closing brace that belongs to no placeholder.
-/

namespace CWebServer

/-- Whether a template has a single closing brace outside of its placeholders. Within a placeholder the state is the
character before; `behind` is the byte behind the template. -/
def loneClose (behind : Option UInt8) : Option UInt8 → List UInt8 → Bool
  | _, [] => false
  | some last, c :: rest =>
    if c = chr '\x7d' ∧ last ≠ chr '\\' then loneClose behind none rest else loneClose behind (some c) rest
  | none, [c] => c = chr '\x7d' ∧ behind ≠ some (chr '\x7d')
  | none, c :: d :: rest =>
    if c = d ∧ (c = chr '\x7b' ∨ c = chr '\x7d') then loneClose behind none rest
    else if c = chr '\x7d' then true
    else loneClose behind (if c = chr '\x7b' then some c else none) (d :: rest)

/-- An error return leaves the arena as it was. -/
def FailsClean (arena : Arena) (i : FmtInput) : Prop :=
  ∀ arena', strFmtVargs arena i = some (.failed arena') →
    arena'.pos = arena.pos ∧ arena'.alignment = arena.alignment ∧ arena'.unsafeRecord = arena.unsafeRecord

/-- The state of `loneClose` at the head of the loop. -/
def FmtScan.within (s : FmtScan) : Option UInt8 := s.insertStartIdx.map fun _ => s.lastChar

section
variable {i : FmtInput} {s : FmtScan} {t : FmtTurn} {idx : Nat} {c d : UInt8}

/-! ## Turns -/

theorem turn_insert {start : Nat} (hs : s.insertStartIdx = some start) (h : i.turn idx s c = some t) :
    ∃ writes s', t = .next writes 0 s' ∧
      s'.insertStartIdx = if c = chr '\x7d' ∧ s.lastChar ≠ chr '\\' then none else some start := by
  unfold FmtInput.turn at h
  simp only [hs] at h
  by_cases hclose : c = chr '\x7d' ∧ s.lastChar ≠ chr '\\'
  · rw [if_pos hclose] at h ⊢
    split at h
    · cases h
      exact ⟨_, _, rfl, rfl⟩
    · split at h <;> cases h
      exact ⟨_, _, rfl, rfl⟩
  · rw [if_neg hclose] at h ⊢
    cases h
    exact ⟨_, _, rfl, hs⟩

/-- A turn outside of a placeholder, by the byte behind its own. -/
inductive OutsideTurn (c : UInt8) (next : Option UInt8) : FmtTurn → Prop
  | char {writes : List FmtWrite} {s' : FmtScan} (hopen : c ≠ chr '\x7b') (hclose : c ≠ chr '\x7d')
    (hs : s'.insertStartIdx = none) : OutsideTurn c next (.next writes 0 s')
  | double {writes : List FmtWrite} {s' : FmtScan} (hc : c = chr '\x7b' ∨ c = chr '\x7d') (hnext : next = some c)
    (hs : s'.insertStartIdx = none) : OutsideTurn c next (.next writes 1 s')
  | opened {writes : List FmtWrite} {s' : FmtScan} {start : Nat} (hc : c = chr '\x7b') (hnext : next ≠ some c)
    (hs : s'.insertStartIdx = some start) : OutsideTurn c next (.next writes 0 s')
  | closed (hc : c = chr '\x7d') (hnext : next ≠ some c) : OutsideTurn c next .error

theorem turn_outside (hs : s.insertStartIdx = none) (h : i.turn idx s c = some t) :
    OutsideTurn c (i.byteAt (idx + 1)) t := by
  unfold FmtInput.turn at h
  simp only [hs] at h
  by_cases hopen : c = chr '\x7b'
  · rw [if_pos hopen] at h
    obtain ⟨next, hnext, h⟩ := Option.bind_eq_some_iff.mp h
    obtain ⟨writes, -, h⟩ := Option.bind_eq_some_iff.mp h
    by_cases hdouble : next = chr '\x7b'
    · simp only [hdouble, if_true, ne_eq, not_true_eq_false, if_false] at h
      cases h
      exact .double (.inl hopen) (by rw [hnext, hdouble, hopen]) rfl
    · simp only [hdouble, if_false, ne_eq, not_false_eq_true, if_true] at h
      cases h
      refine .opened hopen ?_ rfl
      rw [hnext, hopen]
      exact fun heq => hdouble (Option.some.inj heq)
  · rw [if_neg hopen] at h
    by_cases hclose : c = chr '\x7d'
    · rw [if_pos hclose] at h
      obtain ⟨next, hnext, h⟩ := Option.bind_eq_some_iff.mp h
      by_cases hdouble : next = chr '\x7d'
      · rw [if_pos hdouble] at h
        obtain ⟨writes, -, h⟩ := Option.bind_eq_some_iff.mp h
        cases h
        exact .double (.inr hclose) (by rw [hnext, hdouble, hclose]) rfl
      · rw [if_neg hdouble] at h
        split at h <;> cases h
        refine .closed hclose ?_
        rw [hnext, hclose]
        exact fun heq => hdouble (Option.some.inj heq)
    · rw [if_neg hclose] at h
      cases h
      exact .char hopen hclose hs

end

/-! ## The state of the scan -/

section
variable {behind : Option UInt8} {c last : UInt8} {rest : List UInt8}

theorem loneClose_nil (st : Option UInt8) : loneClose behind st [] = false := by cases st <;> rfl

theorem loneClose_inside : loneClose behind (some last) (c :: rest) =
    loneClose behind (if c = chr '\x7d' ∧ last ≠ chr '\\' then none else some c) rest := by
  rw [loneClose]
  split <;> rfl

theorem loneClose_char (hopen : c ≠ chr '\x7b') (hclose : c ≠ chr '\x7d') :
    loneClose behind none (c :: rest) = loneClose behind none rest := by
  cases rest with
  | nil => simp [loneClose, hclose]
  | cons d rest => simp [loneClose, hopen, hclose]

theorem loneClose_double (hc : c = chr '\x7b' ∨ c = chr '\x7d') (hnext : rest.head?.or behind = some c) :
    loneClose behind none (c :: rest) = loneClose behind none rest.tail := by
  cases rest with
  | nil =>
    have hbehind : behind = some c := hnext
    simp [loneClose, hbehind]
  | cons d rest =>
    have hd : d = c := Option.some.inj hnext
    simp [loneClose, hd, hc]

theorem loneClose_opened (hnext : rest.head?.or behind ≠ some (chr '\x7b')) :
    loneClose behind none (chr '\x7b' :: rest) = loneClose behind (some (chr '\x7b')) rest := by
  have hne : chr '\x7b' ≠ chr '\x7d' := by decide
  cases rest with
  | nil => simp [loneClose, hne]
  | cons d rest =>
    have hd : ¬ chr '\x7b' = d := fun hd => hnext (congrArg some hd.symm)
    simp [loneClose, hd, hne]

theorem loneClose_closed (hnext : rest.head?.or behind ≠ some (chr '\x7d')) :
    loneClose behind none (chr '\x7d' :: rest) = true := by
  cases rest with
  | nil => simpa [loneClose] using hnext
  | cons d rest =>
    have hd : ¬ chr '\x7d' = d := fun hd => hnext (congrArg some hd.symm)
    simp [loneClose, hd]

end

theorem byteAt_head {i : FmtInput} {done rest : List UInt8} (h : i.fmt = done ++ rest) :
    i.byteAt done.length = rest.head?.or (i.behind 0) := by
  cases rest with
  | nil =>
    rw [List.append_nil] at h
    unfold FmtInput.byteAt
    rw [dif_neg (by rw [h]; exact Nat.lt_irrefl _), h, Nat.sub_self]
    rfl
  | cons c rest => exact FmtInput.byteAt_of_append h

section
variable {i : FmtInput} {done rest : List UInt8} {s : FmtScan} {trace : FmtTrace} {c : UInt8}

/-- The loop at a byte: an early return, or a turn and then the loop behind the bytes it takes. -/
theorem loop_cons (hfmt : i.fmt = done ++ c :: rest) (h : i.loop done.length s = some trace) :
    i.turn done.length s c = some .error ∧ trace.error = true ∨
      ∃ writes skip s' lastChar trace', i.turn done.length s c = some (.next writes skip s') ∧
        i.byteAt (done.length + skip) = some lastChar ∧
        i.loop (done.length + skip + 1) { s' with lastChar } = some trace' ∧ trace.error = trace'.error := by
  obtain ⟨hlt, hget⟩ := getElem_of_append hfmt
  rw [FmtInput.loop_turn hlt, hget] at h
  obtain ⟨turn, hturn, hafter⟩ := Option.bind_eq_some_iff.mp h
  cases turn with
  | error =>
    cases hafter
    exact Or.inl ⟨hturn, rfl⟩
  | next writes skip s' =>
    obtain ⟨lastChar, hlast, hafter⟩ := Option.bind_eq_some_iff.mp hafter
    obtain ⟨trace', hrest, rfl⟩ := Option.map_eq_some_iff.mp hafter
    exact Or.inr ⟨writes, skip, s', lastChar, trace', hturn, hlast, hrest, rfl⟩

theorem loop_nil (hfmt : i.fmt.length ≤ done.length) (h : i.loop done.length s = some trace) : trace.error = false := by
  rw [FmtInput.loop_end hfmt] at h
  obtain ⟨writes, -, rfl⟩ := Option.map_eq_some_iff.mp h
  rfl

/-- What is left to decide behind a turn at `c`: nothing, or a shorter rest. -/
inductive LoopStep (i : FmtInput) (c : UInt8) (rest : List UInt8) (s : FmtScan) (trace : FmtTrace) : Prop
  | decided (herror : trace.error = loneClose (i.behind 0) s.within (c :: rest))
  | on {done' rest' : List UInt8} {s' : FmtScan} {trace' : FmtTrace} (hfmt : i.fmt = done' ++ rest')
    (hle : rest'.length ≤ rest.length) (hloop : i.loop done'.length s' = some trace')
    (herror : trace.error = trace'.error)
    (hclose : loneClose (i.behind 0) s.within (c :: rest) = loneClose (i.behind 0) s'.within rest')

theorem LoopStep.one {s' : FmtScan} {lastChar : UInt8} {trace' : FmtTrace} (hfmt : i.fmt = done ++ c :: rest)
    (hlast : i.byteAt (done.length + 0) = some lastChar)
    (hrest : i.loop (done.length + 0 + 1) { s' with lastChar } = some trace') (herror : trace.error = trace'.error)
    (hclose : loneClose (i.behind 0) s.within (c :: rest) =
      loneClose (i.behind 0) (s'.insertStartIdx.map fun _ => c) rest) : LoopStep i c rest s trace := by
  have hlen : (done ++ [c]).length = done.length + 0 + 1 := List.length_append
  have hc : lastChar = c := by
    rw [Nat.add_zero, FmtInput.byteAt_of_append hfmt] at hlast
    exact (Option.some.inj hlast).symm
  subst hc
  rw [← hlen] at hrest
  exact .on (by rw [hfmt, List.append_assoc]; rfl) (Nat.le_refl _) hrest herror hclose

theorem loop_inside {start : Nat} (hs : s.insertStartIdx = some start) (hfmt : i.fmt = done ++ c :: rest)
    (h : i.loop done.length s = some trace) : LoopStep i c rest s trace := by
  have hwithin : s.within = some s.lastChar := by rw [FmtScan.within, hs]; rfl
  obtain ⟨hturn, -⟩ | ⟨writes, skip, s', lastChar, trace', hturn, hlast, hrest, herror⟩ := loop_cons hfmt h
  · obtain ⟨writes, s', hnot, -⟩ := turn_insert hs hturn
    cases hnot
  · obtain ⟨writes', s'', heq, hs'⟩ := turn_insert hs hturn
    cases heq
    refine .one hfmt hlast hrest herror ?_
    rw [hwithin, loneClose_inside, hs']
    split <;> rfl

theorem loop_outside (hs : s.insertStartIdx = none) (hfmt : i.fmt = done ++ c :: rest)
    (h : i.loop done.length s = some trace) : LoopStep i c rest s trace := by
  have hwithin : s.within = none := by rw [FmtScan.within, hs]; rfl
  have hcons : i.fmt = done ++ [c] ++ rest := by rw [hfmt, List.append_assoc]; rfl
  have hlen : (done ++ [c]).length = done.length + 1 := List.length_append
  have hnext : i.byteAt (done.length + 1) = rest.head?.or (i.behind 0) := by rw [← byteAt_head hcons, hlen]
  obtain ⟨hturn, herror⟩ | ⟨writes, skip, s', lastChar, trace', hturn, hlast, hrest, herror⟩ := loop_cons hfmt h
  · have hout := turn_outside hs hturn
    rw [hnext] at hout
    cases hout with
    | closed hc hnext =>
      subst hc
      exact .decided (by rw [herror, hwithin, loneClose_closed hnext])
  · have hout := turn_outside hs hturn
    rw [hnext] at hout
    cases hout with
    | char hopen hclose hs' =>
      exact .one hfmt hlast hrest herror (by rw [hwithin, loneClose_char hopen hclose, hs']; rfl)
    | opened hc hnext hs' =>
      subst hc
      exact .one hfmt hlast hrest herror (by rw [hwithin, loneClose_opened hnext, hs']; rfl)
    | double hc hdouble hs' =>
      have hlen' : (done ++ [c, c]).length = done.length + 1 + 1 := List.length_append
      rw [← hlen'] at hrest
      cases rest with
      | nil =>
        -- the second brace is the byte behind the template
        have hend : i.fmt.length ≤ (done ++ [c, c]).length := by
          rw [hfmt, hlen', List.length_append]
          exact Nat.le_succ _
        exact .decided (by rw [herror, loop_nil hend hrest, hwithin, loneClose_double hc hdouble]; rfl)
      | cons d rest =>
        have hd : d = c := Option.some.inj hdouble
        refine .on (by rw [hfmt, hd, List.append_assoc]; rfl) (Nat.le_succ rest.length) hrest herror ?_
        rw [hwithin, loneClose_double hc hdouble, FmtScan.within, hs']
        rfl

/-- The scan returns early exactly at a lone closing brace. -/
theorem loop_error (hfmt : i.fmt = done ++ rest) (h : i.loop done.length s = some trace) :
    trace.error = loneClose (i.behind 0) s.within rest := by
  induction hn : rest.length using Nat.strong_induction_on generalizing done rest s trace with
  | _ n ih =>
    cases rest with
    | nil =>
      rw [List.append_nil] at hfmt
      rw [loop_nil (Nat.le_of_eq (congrArg List.length hfmt)) h, loneClose_nil]
    | cons c rest =>
      have hstep : LoopStep i c rest s trace := by
        cases hs : s.insertStartIdx with
        | none => exact loop_outside hs hfmt h
        | some start => exact loop_inside hs hfmt h
      cases hstep with
      | decided herror => exact herror
      | on hfmt' hle hloop herror hclose =>
        rw [herror, hclose]
        exact ih _ (by rw [← hn]; exact Nat.lt_succ_of_le hle) hfmt' hloop rfl

end

/-! ## The error returns -/

/-- The record of a failed call stays open. -/
theorem failed_iff {arena : Arena} {i : FmtInput} {result : FmtResult} (h : strFmtVargs arena i = some result) :
    (∃ arena', result = .failed arena') ↔ loneClose (i.behind 0) none i.fmt = true := by
  unfold strFmtVargs at h
  obtain ⟨trace, hloop, h⟩ := Option.bind_eq_some_iff.mp h
  obtain ⟨written, -, h⟩ := Option.bind_eq_some_iff.mp h
  have herror : trace.error = loneClose (i.behind 0) none i.fmt := @loop_error i [] i.fmt {} trace rfl hloop
  rw [← herror]
  cases htrace : trace.error with
  | true =>
    rw [if_pos htrace] at h
    cases h
    exact iff_of_true ⟨_, rfl⟩ rfl
  | false =>
    rw [htrace, if_neg Bool.false_ne_true] at h
    obtain ⟨⟨str, ended⟩, -, h⟩ := Option.bind_eq_some_iff.mp h
    cases h
    apply iff_of_false _ Bool.false_ne_true
    rintro ⟨arena', heq⟩
    cases heq

theorem failsClean_iff {arena : Arena} {i : FmtInput} (hi : i.Keeps) {result : FmtResult}
    (h : strFmtVargs arena i = some result) : FailsClean arena i ↔ loneClose (i.behind 0) none i.fmt = false := by
  rw [← Bool.not_eq_true, ← failed_iff h]
  constructor
  · rintro hclean ⟨arena', rfl⟩
    have hmode := congrArg Prod.fst (mode_fmt hi h)
    have hrec : arena'.unsafeRecord = arena.unsafeRecord + 1 := hmode
    rw [(hclean arena' h).2.2] at hrec
    exact absurd hrec (by omega)
  · intro hno arena' hfailed
    rw [h] at hfailed
    exact absurd ⟨arena', Option.some.inj hfailed⟩ hno

/-- A template that is a closing brace, with its terminator behind it. -/
def loneTemplate : FmtInput := { fmt := s8 "\x7d", behind := fun _ => some 0, args := [], ndebug := true }

theorem loop_loneTemplate : loneTemplate.loop 0 {} = some ⟨[], true⟩ := by
  have hlt : 0 < loneTemplate.fmt.length := by decide
  have hnext : loneTemplate.byteAt (0 + 1) = some 0 := rfl
  have hturn : loneTemplate.turn 0 {} (chr '\x7d') = some .error := FmtInput.turn_single hnext (by decide)
  rw [FmtInput.loop_turn hlt, show loneTemplate.fmt[0] = chr '\x7d' from rfl, hturn]
  rfl

theorem fmt_loneTemplate : strFmtVargs (memMakeArenaPreAllocated (fun _ => 0) 1024) loneTemplate =
    some (.failed { memMakeArenaPreAllocated (fun _ => 0) 1024 with unsafeRecord := 1 }) := by
  unfold strFmtVargs
  rw [loop_loneTemplate]
  rfl

theorem not_failsClean : ¬ FailsClean (memMakeArenaPreAllocated (fun _ => 0) 1024) loneTemplate := by
  intro h
  exact absurd (h _ fmt_loneTemplate).2.2 (by decide)

theorem failsClean_iff_lone :
    FailsClean (memMakeArenaPreAllocated (fun _ => 0) 1024) loneTemplate ↔
      loneClose (some 0) none loneTemplate.fmt = false := by
  have hkeeps : loneTemplate.Keeps := fun arg harg => absurd harg List.not_mem_nil
  exact failsClean_iff hkeeps fmt_loneTemplate

end CWebServer
