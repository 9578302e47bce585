import CWebServer.FormatSound

/-!
# What a format reads

The scan looks one byte ahead at a brace. At a brace that is the last byte of
the template, outside of a placeholder, this reads behind the template; in all
other templates the scan stays within.
-/

namespace CWebServer

/-- No closing brace, except behind a backslash. -/
def Unclosed : UInt8 → List UInt8 → Prop
  | _, [] => True
  | last, c :: body => (c = chr '\x7d' → last = chr '\\') ∧ Unclosed c body

/-- What may stand between the braces of a placeholder. -/
structure Placeholder (body : List UInt8) : Prop where
  first : body.head? ≠ some (chr '\x7b')
  inner : Unclosed (chr '\x7b') body
  last : body.getLast? ≠ some (chr '\\')

/-- Texts, doubled braces and whole placeholders. -/
inductive Complete : List UInt8 → Prop
  | nil : Complete []
  | char {c : UInt8} {t : List UInt8} (hopen : c ≠ chr '\x7b') (hclose : c ≠ chr '\x7d') (h : Complete t) :
    Complete (c :: t)
  | double {c : UInt8} {t : List UInt8} (hc : c = chr '\x7b' ∨ c = chr '\x7d') (h : Complete t) : Complete (c :: c :: t)
  | placeholder {body t : List UInt8} (hbody : Placeholder body) (h : Complete t) :
    Complete (chr '\x7b' :: (body ++ chr '\x7d' :: t))

/-- The last byte is a brace that opens or doubles nothing before it. -/
def EndsOpen (fmt : List UInt8) : Prop :=
  ∃ t b, fmt = t ++ [b] ∧ (b = chr '\x7b' ∨ b = chr '\x7d') ∧ Complete t

/-- The states of the scan at the head of its loop. -/
inductive FmtInput.Reaches (i : FmtInput) : Nat → FmtScan → Prop
  | start : i.Reaches 0 {}
  | turn {idx skip : Nat} {s s' : FmtScan} {writes : List FmtWrite} {lastChar : UInt8} (h : i.Reaches idx s)
    (hlt : idx < i.fmt.length) (hturn : i.turn idx s i.fmt[idx] = some (.next writes skip s'))
    (hlast : i.byteAt (idx + skip) = some lastChar) : i.Reaches (idx + skip + 1) { s' with lastChar }

/-- The result is the same whatever is behind the template, also where nothing behind it may be read. -/
structure ReadsOnlyTemplate (fmt : List UInt8) : Prop where
  result : ∀ arena behind args ndebug,
    strFmtVargs arena ⟨fmt, behind, args, ndebug⟩ = strFmtVargs arena ⟨fmt, fun _ => none, args, ndebug⟩
  textStartIdx : ∀ behind args ndebug idx s, FmtInput.Reaches ⟨fmt, behind, args, ndebug⟩ idx s →
    s.textStartIdx ≤ fmt.length

/-! ## The grammar from the left -/

theorem unclosed_snoc {last c : UInt8} {body : List UInt8} :
    Unclosed last (body ++ [c]) ↔ Unclosed last body ∧ (c = chr '\x7d' → body.getLast?.getD last = chr '\\') := by
  induction body generalizing last with
  | nil => simp [Unclosed]
  | cons d body ih =>
    have hlast : (d :: body).getLast?.getD last = body.getLast?.getD d := by
      rw [List.getLast?_cons]
      rfl
    rw [List.cons_append, Unclosed, Unclosed, ih, hlast, and_assoc]

theorem Complete.append {t u : List UInt8} (ht : Complete t) (hu : Complete u) : Complete (t ++ u) := by
  induction ht with
  | nil => exact hu
  | char hopen hclose _ ih => exact .char hopen hclose ih
  | double hc _ ih => exact .double hc ih
  | placeholder hbody _ ih =>
    rw [List.cons_append, List.append_assoc]
    exact .placeholder hbody ih

/-! ## Templates that are read within -/

namespace FmtInput
variable {i : FmtInput}

def hide (i : FmtInput) : FmtInput := { i with behind := fun _ => none }

theorem byteAt_hide {idx : Nat} (h : idx < i.fmt.length) : i.hide.byteAt idx = i.byteAt idx := by
  have h' : idx < i.hide.fmt.length := h
  unfold byteAt
  rw [dif_pos h, dif_pos h']
  rfl

theorem copyText_hide {start size : Nat} (h : start + size ≤ i.fmt.length) :
    i.hide.copyText start size = i.copyText start size := by
  have hread : i.hide.readBytes start size = i.readBytes start size := by
    unfold readBytes
    induction size with
    | zero => rfl
    | succ size ih =>
      rw [List.range_succ, List.mapM_append, List.mapM_append, ih (by omega)]
      simp only [List.mapM_cons, List.mapM_nil, byteAt_hide (by omega : start + size < i.fmt.length)]
  unfold copyText
  rw [hread]

def AllTexts (writes : List FmtWrite) : Prop := ∀ write ∈ writes, ∃ bytes, write = .text bytes

theorem copyText_some (start size : Nat) (h : start + size ≤ i.fmt.length) :
    ∃ writes, i.copyText start size = some writes ∧ AllTexts writes := by
  have hsplit : i.fmt = i.fmt.take start ++ ((i.fmt.drop start).take size ++ i.fmt.drop (start + size)) := by
    rw [← List.drop_drop, List.take_append_drop, List.take_append_drop]
  have hread := readBytes_of_append hsplit
  rw [List.length_take, List.length_take, List.length_drop, Nat.min_eq_left (by omega),
    Nat.min_eq_left (by omega)] at hread
  unfold copyText
  by_cases h0 : 0 < size
  · rw [if_pos h0, hread]
    refine ⟨_, rfl, fun write hw => ?_⟩
    exact ⟨_, List.mem_singleton.mp hw⟩
  · rw [if_neg h0]
    exact ⟨[], rfl, fun write hw => absurd hw List.not_mem_nil⟩

end FmtInput

/-- Where the scan is behind `done`, with `rest` before it. -/
inductive ScanState (done rest : List UInt8) : FmtScan → Prop
  | between {last : UInt8} {k ts : Nat} (h : Complete done) (hts : ts ≤ done.length) :
    ScanState done rest ⟨last, k, none, ts⟩
  | within {t body : List UInt8} {k ts : Nat} (hdone : done = t ++ chr '\x7b' :: body) (h : Complete t)
    (hfirst : (body ++ rest).head? ≠ some (chr '\x7b')) (hinner : Unclosed (chr '\x7b') body)
    (hts : ts ≤ done.length) :
    ScanState done rest ⟨body.getLast?.getD (chr '\x7b'), k, some t.length, ts⟩

theorem byteAt_next {i : FmtInput} {done rest : List UInt8} {c d : UInt8} (h : i.fmt = done ++ c :: d :: rest) :
    i.byteAt (done.length + 1) = some d := by
  have hnext : i.fmt = (done ++ [c]) ++ d :: rest := by rw [h, List.append_assoc]; rfl
  have hbyte := FmtInput.byteAt_of_append hnext
  rwa [List.length_append] at hbyte

/-- The next state, behind the bytes `more` that the turn takes. -/
structure Advances (i : FmtInput) (done : List UInt8) (skip : Nat) (s' : FmtScan) (more rest : List UInt8)
    (lastChar : UInt8) : Prop where
  fmt : i.fmt = (done ++ more) ++ rest
  length : (done ++ more).length = done.length + skip + 1
  last : i.byteAt (done.length + skip) = some lastChar
  state : ScanState (done ++ more) rest { s' with lastChar }

theorem advances_one {i : FmtInput} {done rest : List UInt8} {c : UInt8} {s' : FmtScan}
    (hfmt : i.fmt = done ++ c :: rest) (hstate : ScanState (done ++ [c]) rest { s' with lastChar := c }) :
    Advances i done 0 s' [c] rest c where
  fmt := by rw [hfmt, List.append_assoc]; rfl
  length := List.length_append
  last := FmtInput.byteAt_of_append hfmt
  state := hstate

theorem advances_two {i : FmtInput} {done rest : List UInt8} {c d : UInt8} {s' : FmtScan}
    (hfmt : i.fmt = done ++ c :: d :: rest) (hstate : ScanState (done ++ [c, d]) rest { s' with lastChar := d }) :
    Advances i done 1 s' [c, d] rest d where
  fmt := by rw [hfmt, List.append_assoc]; rfl
  length := List.length_append
  last := byteAt_next hfmt
  state := hstate

/-- A turn looks at no byte behind the template, and leads to a state of the scan again. -/
def TurnWithin (i : FmtInput) (done : List UInt8) (s : FmtScan) (c : UInt8) : Prop :=
  i.hide.turn done.length s c = i.turn done.length s c ∧
    ∀ writes skip s', i.turn done.length s c = some (.next writes skip s') →
      ∃ more rest lastChar, Advances i done skip s' more rest lastChar

section
variable {i : FmtInput} {done rest : List UInt8} {c d last : UInt8} {k ts : Nat}

theorem placeholder_of_close {body : List UInt8} (hfirst : (body ++ c :: rest).head? ≠ some (chr '\x7b'))
    (hinner : Unclosed (chr '\x7b') body) (hlast : body.getLast?.getD (chr '\x7b') ≠ chr '\\') : Placeholder body := by
  refine ⟨?_, hinner, ?_⟩
  · intro hhead
    apply hfirst
    rw [List.head?_append, hhead]
    rfl
  · intro hbackslash
    rw [hbackslash] at hlast
    exact hlast rfl

theorem ScanState.inside {t body : List UInt8} (hdone : done = t ++ chr '\x7b' :: body) (h : Complete t)
    (hfirst : (body ++ c :: rest).head? ≠ some (chr '\x7b')) (hinner : Unclosed (chr '\x7b') body)
    (hc : c = chr '\x7d' → body.getLast?.getD (chr '\x7b') = chr '\\') (hts : ts ≤ done.length) :
    ScanState (done ++ [c]) rest ⟨c, k, some t.length, ts⟩ := by
  have hstate : ScanState (done ++ [c]) rest ⟨(body ++ [c]).getLast?.getD (chr '\x7b'), k, some t.length, ts⟩ := by
    apply ScanState.within _ h _ (unclosed_snoc.mpr ⟨hinner, hc⟩) _
    · rw [hdone, List.append_assoc]
      rfl
    · rw [List.append_assoc]
      exact hfirst
    · rw [List.length_append]
      exact Nat.le_trans hts (Nat.le_add_right _ _)
  rwa [List.getLast?_append] at hstate

theorem turnWithin_within {t body : List UInt8} (hfmt : i.fmt = done ++ c :: rest)
    (hdone : done = t ++ chr '\x7b' :: body) (h : Complete t) (hfirst : (body ++ c :: rest).head? ≠ some (chr '\x7b'))
    (hinner : Unclosed (chr '\x7b') body) (hts : ts ≤ done.length) :
    TurnWithin i done ⟨body.getLast?.getD (chr '\x7b'), k, some t.length, ts⟩ c := by
  refine ⟨rfl, fun writes skip s' hturn => ?_⟩
  unfold FmtInput.turn at hturn
  by_cases hclose : c = chr '\x7d' ∧ body.getLast?.getD (chr '\x7b') ≠ chr '\\'
  · have hcomplete : Complete (done ++ [c]) := by
      rw [hdone, hclose.1, List.append_assoc]
      exact h.append (.placeholder (placeholder_of_close hfirst hinner hclose.2) .nil)
    have hstart : t.length ≤ (done ++ [c]).length := by
      rw [hdone, List.append_assoc, List.length_append]
      exact Nat.le_add_right _ _
    simp only [hclose, if_true, ne_eq, not_false_eq_true, and_self] at hturn
    split at hturn
    · cases hturn
      refine ⟨[c], rest, c, advances_one hfmt (.between hcomplete ?_)⟩
      rw [List.length_append]
      exact Nat.le_refl _
    · split at hturn
      · cases hturn
        exact ⟨[c], rest, c, advances_one hfmt (.between hcomplete hstart)⟩
      · cases hturn
  · simp only [hclose, if_false] at hturn
    cases hturn
    have hbackslash : c = chr '\x7d' → body.getLast?.getD (chr '\x7b') = chr '\\' := by
      intro hc
      by_contra hlast
      exact hclose ⟨hc, hlast⟩
    exact ⟨[c], rest, c, advances_one hfmt (.inside hdone h hfirst hinner hbackslash hts)⟩

theorem TurnWithin.of_next {s s' : FmtScan} {skip : Nat} {writes : List FmtWrite} {more behind : List UInt8}
    (hturn : i.turn done.length s c = some (.next writes skip s'))
    (hhide : i.hide.turn done.length s c = some (.next writes skip s')) (h : Advances i done skip s' more behind last) :
    TurnWithin i done s c := by
  refine ⟨hhide.trans hturn.symm, fun writes' skip' s'' h' => ?_⟩
  rw [hturn] at h'
  cases h'
  exact ⟨more, behind, last, h⟩

theorem copyText_within {start size : Nat} (h : start + size ≤ i.fmt.length) :
    ∃ writes, i.copyText start size = some writes ∧ i.hide.copyText start size = some writes := by
  obtain ⟨writes, hcopy, _⟩ := FmtInput.copyText_some start size h
  exact ⟨writes, hcopy, (FmtInput.copyText_hide h).trans hcopy⟩

theorem turnWithin_double (hfmt : i.fmt = done ++ c :: c :: rest) (h : Complete done) (hts : ts ≤ done.length)
    (hc : c = chr '\x7b' ∨ c = chr '\x7d') : TurnWithin i done ⟨last, k, none, ts⟩ c := by
  have hend : ts + (done.length + 1 - ts) ≤ i.fmt.length := by
    rw [hfmt, List.length_append, List.length_cons, List.length_cons]
    omega
  obtain ⟨writes, hcopy, hcopy'⟩ := copyText_within hend
  have hstate : done.length + 1 + 1 ≤ (done ++ [c, c]).length := by
    rw [List.length_append]
    exact Nat.le_refl _
  apply TurnWithin.of_next (FmtInput.turn_double hc (byteAt_next hfmt) hcopy)
  · exact FmtInput.turn_double hc (byteAt_next (i := i.hide) hfmt) hcopy'
  · exact advances_two hfmt (.between (h.append (.double hc .nil)) hstate)

theorem turnWithin_open (hfmt : i.fmt = done ++ chr '\x7b' :: d :: rest) (h : Complete done) (hts : ts ≤ done.length)
    (hd : d ≠ chr '\x7b') : TurnWithin i done ⟨last, k, none, ts⟩ (chr '\x7b') := by
  have hend : ts + (done.length - ts) ≤ i.fmt.length := by
    rw [hfmt, List.length_append]
    omega
  obtain ⟨writes, hcopy, hcopy'⟩ := copyText_within hend
  have hfirst : ([] ++ d :: rest).head? ≠ some (chr '\x7b') := fun hhead => hd (Option.some.inj hhead)
  have hstate : done.length + 1 ≤ (done ++ [chr '\x7b']).length := by
    rw [List.length_append]
    exact Nat.le_refl _
  apply TurnWithin.of_next (FmtInput.turn_open (byteAt_next hfmt) hd hcopy)
  · exact FmtInput.turn_open (byteAt_next (i := i.hide) hfmt) hd hcopy'
  · exact advances_one hfmt (.within rfl h hfirst trivial hstate)

theorem turnWithin_close (hfmt : i.fmt = done ++ chr '\x7d' :: d :: rest) (hd : d ≠ chr '\x7d') :
    TurnWithin i done ⟨last, k, none, ts⟩ (chr '\x7d') := by
  have hturn : i.turn done.length ⟨last, k, none, ts⟩ (chr '\x7d') = if i.ndebug then some .error else none :=
    FmtInput.turn_single (byteAt_next hfmt) hd
  have hhide : i.hide.turn done.length ⟨last, k, none, ts⟩ (chr '\x7d') = if i.ndebug then some .error else none :=
    FmtInput.turn_single (byteAt_next (i := i.hide) hfmt) hd
  refine ⟨hhide.trans hturn.symm, fun writes skip s' h' => ?_⟩
  rw [hturn] at h'
  split at h' <;> cases h'

theorem turnWithin_between (hfmt : i.fmt = done ++ c :: rest) (hne : ¬ EndsOpen i.fmt) (h : Complete done)
    (hts : ts ≤ done.length) : TurnWithin i done ⟨last, k, none, ts⟩ c := by
  by_cases hbrace : c = chr '\x7b' ∨ c = chr '\x7d'
  · cases rest with
    | nil => exact absurd ⟨done, c, hfmt, hbrace, h⟩ hne
    | cons d rest =>
      by_cases hd : d = c
      · subst hd
        exact turnWithin_double hfmt h hts hbrace
      · cases hbrace with
        | inl hopen => subst hopen; exact turnWithin_open hfmt h hts hd
        | inr hclose => subst hclose; exact turnWithin_close hfmt hd
  · rw [not_or] at hbrace
    refine ⟨?_, fun writes skip s' h' => ?_⟩
    · rw [FmtInput.turn_char hbrace.1 hbrace.2, FmtInput.turn_char hbrace.1 hbrace.2]
    · rw [FmtInput.turn_char hbrace.1 hbrace.2] at h'
      cases h'
      refine ⟨[c], rest, c, advances_one hfmt (.between (h.append (.char hbrace.1 hbrace.2 .nil)) ?_)⟩
      exact Nat.le_trans hts (by rw [List.length_append]; exact Nat.le_add_right _ _)

theorem turnWithin {s : FmtScan} (hfmt : i.fmt = done ++ c :: rest) (hne : ¬ EndsOpen i.fmt)
    (hs : ScanState done (c :: rest) s) : TurnWithin i done s c := by
  cases hs with
  | between h hts => exact turnWithin_between hfmt hne h hts
  | within hdone h hfirst hinner hts => exact turnWithin_within hfmt hdone h hfirst hinner hts

end

theorem ScanState.text_le {done rest : List UInt8} {s : FmtScan} (h : ScanState done rest s) :
    s.textStartIdx ≤ done.length := by
  cases h with
  | between h hts => exact hts
  | within hdone h hfirst hinner hts => exact hts

theorem getElem_of_append {fmt done rest : List UInt8} {c : UInt8} (h : fmt = done ++ c :: rest) :
    ∃ hlt : done.length < fmt.length, fmt[done.length] = c := by
  subst h
  exact ⟨by rw [List.length_append, List.length_cons]; omega,
    by simp only [List.getElem_append_right (Nat.le_refl _), Nat.sub_self, List.getElem_cons_zero]⟩

theorem loop_hide {i : FmtInput} (hne : ¬ EndsOpen i.fmt) {done rest : List UInt8} {s : FmtScan}
    (hfmt : i.fmt = done ++ rest) (hs : ScanState done rest s) : i.hide.loop done.length s = i.loop done.length s := by
  induction hn : rest.length using Nat.strong_induction_on generalizing done rest s with
  | h n ih =>
    cases rest with
    | nil =>
      have hlen : i.fmt.length = done.length := by rw [hfmt, List.append_nil]
      have hle := hs.text_le
      have hleft : i.textLeft s.textStartIdx = done.length - s.textStartIdx := by
        unfold FmtInput.textLeft
        rw [if_pos (by omega), hlen]
      have hleft' : i.hide.textLeft s.textStartIdx = i.textLeft s.textStartIdx := rfl
      rw [FmtInput.loop_end (Nat.le_of_eq hlen), FmtInput.loop_end (i := i.hide) (Nat.le_of_eq hlen), hleft', hleft,
        FmtInput.copyText_hide (by omega)]
    | cons c rest =>
      obtain ⟨hlt, hc⟩ := getElem_of_append hfmt
      obtain ⟨heq, hnext⟩ := turnWithin hfmt hne hs
      rw [FmtInput.loop_turn hlt, FmtInput.loop_turn (i := i.hide) hlt]
      have hc' : i.hide.fmt[done.length] = c := hc
      rw [hc, hc', heq]
      cases hturn : i.turn done.length s c with
      | none => rfl
      | some turn =>
        cases turn with
        | error => rfl
        | next writes skip s' =>
          obtain ⟨more, rest', lastChar, hadv⟩ := hnext writes skip s' hturn
          have hidx := hadv.length
          have hshort : rest'.length < n := by
            have hlen := congrArg List.length (hfmt.symm.trans hadv.fmt)
            rw [List.length_append, List.length_append] at hlen
            omega
          have hin : done.length + skip < i.fmt.length := by
            rw [hadv.fmt, List.length_append, hidx]
            omega
          have hrec := ih rest'.length hshort hadv.fmt hadv.state rfl
          rw [hidx] at hrec
          simp only [Option.bind_some, FmtInput.byteAt_hide hin, hadv.last, hrec]

theorem reaches_state {i : FmtInput} (hne : ¬ EndsOpen i.fmt) {idx : Nat} {s : FmtScan} (h : i.Reaches idx s) :
    ∃ done rest, i.fmt = done ++ rest ∧ idx = done.length ∧ ScanState done rest s := by
  induction h with
  | start => exact ⟨[], i.fmt, rfl, rfl, .between .nil (Nat.le_refl _)⟩
  | turn h hlt hturn hlast ih =>
    obtain ⟨done, rest, hfmt, hidx, hs⟩ := ih
    subst hidx
    cases rest with
    | nil =>
      rw [hfmt, List.append_nil] at hlt
      exact absurd hlt (Nat.lt_irrefl _)
    | cons c rest =>
      obtain ⟨_, hc⟩ := getElem_of_append hfmt
      rw [hc] at hturn
      obtain ⟨more, rest', lastChar, hadv⟩ := (turnWithin hfmt hne hs).2 _ _ _ hturn
      rw [hadv.last] at hlast
      cases hlast
      exact ⟨done ++ more, rest', hadv.fmt, hadv.length.symm, hadv.state⟩

theorem readsOnlyTemplate {fmt : List UInt8} (hne : ¬ EndsOpen fmt) : ReadsOnlyTemplate fmt where
  result := by
    intro arena behind args ndebug
    have hloop : FmtInput.loop ⟨fmt, fun _ => none, args, ndebug⟩ 0 {} =
        FmtInput.loop ⟨fmt, behind, args, ndebug⟩ 0 {} :=
      @loop_hide ⟨fmt, behind, args, ndebug⟩ hne [] fmt {} rfl (.between .nil (Nat.le_refl _))
    unfold strFmtVargs
    rw [hloop]
  textStartIdx := by
    intro behind args ndebug idx s h
    obtain ⟨done, rest, hfmt, _, hs⟩ := reaches_state hne h
    have hlen : fmt.length = (done ++ rest).length := congrArg List.length hfmt
    rw [List.length_append] at hlen
    exact Nat.le_trans hs.text_le (by omega)

/-! ## Templates that end in an open brace -/

/-- Without arguments a complete part of a template writes texts only. -/
structure Passes (i : FmtInput) (idx idx' : Nat) (s s' : FmtScan) (writes : List FmtWrite) : Prop where
  loop : i.loop idx s = (i.loop idx' s').map fun trace => ⟨writes ++ trace.writes, trace.error⟩
  texts : FmtInput.AllTexts writes

theorem Passes.refl (i : FmtInput) (idx : Nat) (s : FmtScan) : Passes i idx idx s s [] where
  loop := by simp
  texts := fun _ hw => absurd hw List.not_mem_nil

theorem Passes.trans {i : FmtInput} {idx idx' idx'' : Nat} {s s' s'' : FmtScan} {ws ws' : List FmtWrite}
    (h : Passes i idx idx' s s' ws) (h' : Passes i idx' idx'' s' s'' ws') : Passes i idx idx'' s s'' (ws ++ ws') where
  loop := by
    rw [h.loop, h'.loop, Option.map_map]
    simp only [Function.comp_def, List.append_assoc]
  texts := by
    intro write hw
    cases List.mem_append.mp hw with
    | inl hw => exact h.texts write hw
    | inr hw => exact h'.texts write hw

section
variable {fmt done rest body : List UInt8} {c d last : UInt8} {k ts start : Nat} {behind : Nat → Option UInt8}

def bareInput (fmt : List UInt8) (behind : Nat → Option UInt8) : FmtInput := ⟨fmt, behind, [], true⟩

theorem strInsertValue_nil (k : Nat) (valueFormat : List UInt8) : strInsertValue k valueFormat [] = none := by
  unfold strInsertValue
  split
  · rfl
  · dsimp only
    split <;> rfl

theorem allTexts_nil : FmtInput.AllTexts [] := fun _ hw => absurd hw List.not_mem_nil

theorem passes_turn {i : FmtInput} {skip : Nat} {s s' : FmtScan} {writes : List FmtWrite}
    (hfmt : i.fmt = done ++ c :: rest) (hturn : i.turn done.length s c = some (.next writes skip s'))
    (hlast : i.byteAt (done.length + skip) = some last) (htexts : FmtInput.AllTexts writes) :
    Passes i done.length (done.length + skip + 1) s { s' with lastChar := last } writes :=
  ⟨FmtInput.loop_next hfmt hturn hlast, htexts⟩

theorem turn_inside {i : FmtInput} {idx : Nat} (h : c = chr '\x7d' → last = chr '\\') :
    i.turn idx ⟨last, k, some start, ts⟩ c = some (.next [] 0 ⟨last, k, some start, ts⟩) := by
  have hopen : ¬ (c = chr '\x7d' ∧ last ≠ chr '\\') := fun hc => hc.2 (h hc.1)
  unfold FmtInput.turn
  simp only [hopen, if_false]

theorem turn_bare {idx : Nat} (h : last ≠ chr '\\') :
    (bareInput fmt behind).turn idx ⟨last, k, some start, ts⟩ (chr '\x7d') =
      some (.next [] 0 ⟨last, k + 1, none, start⟩) := by
  unfold FmtInput.turn bareInput
  simp only [h, strInsertValue_nil, ne_eq, not_false_eq_true, and_self, if_true]

theorem Passes.loop_eq {i : FmtInput} {idx idx' : Nat} {s s' : FmtScan} (h : Passes i idx idx' s s' []) :
    i.loop idx s = i.loop idx' s' := by
  rw [h.loop]
  simp

theorem passes_body {i : FmtInput} (hfmt : i.fmt = done ++ (body ++ rest)) (hinner : Unclosed last body) :
    Passes i done.length (done ++ body).length ⟨last, k, some start, ts⟩
      ⟨body.getLast?.getD last, k, some start, ts⟩ [] := by
  induction body generalizing done last with
  | nil =>
    rw [List.append_nil]
    exact .refl _ _ _
  | cons c body ih =>
    have hbyte : i.fmt = done ++ c :: (body ++ rest) := hfmt
    have hfmt' : i.fmt = (done ++ [c]) ++ (body ++ rest) := hfmt.trans (List.append_cons ..)
    have hlen : (done ++ [c]).length = done.length + 0 + 1 := List.length_append
    have hfirst : Passes i done.length (done.length + 0 + 1) ⟨last, k, some start, ts⟩ ⟨c, k, some start, ts⟩ [] :=
      passes_turn hbyte (turn_inside hinner.1) (FmtInput.byteAt_of_append hbyte) allTexts_nil
    have hrest := ih hfmt' hinner.2
    rw [List.append_assoc, hlen] at hrest
    rw [List.getLast?_cons]
    exact hfirst.trans hrest

theorem Placeholder.next (h : Placeholder body) (u : List UInt8) :
    ∃ d u', body ++ chr '\x7d' :: u = d :: u' ∧ d ≠ chr '\x7b' := by
  cases body with
  | nil => exact ⟨_, u, rfl, by decide⟩
  | cons d body => exact ⟨d, _, rfl, fun hd => h.first (by rw [hd]; rfl)⟩

theorem Placeholder.last_ne (h : Placeholder body) : body.getLast?.getD (chr '\x7b') ≠ chr '\\' := by
  intro hlast
  have hne := h.last
  cases hget : body.getLast? with
  | none =>
    rw [hget] at hlast
    exact absurd hlast (by decide)
  | some c =>
    rw [hget] at hlast hne
    exact hne (congrArg some hlast)

theorem passes_char (hfmt : fmt = done ++ c :: rest) (hopen : c ≠ chr '\x7b') (hclose : c ≠ chr '\x7d') :
    Passes (bareInput fmt behind) done.length (done ++ [c]).length ⟨last, k, none, ts⟩ ⟨c, k, none, ts⟩ [] := by
  have hbyte : (bareInput fmt behind).fmt = done ++ c :: rest := hfmt
  rw [List.length_append]
  exact passes_turn hbyte (FmtInput.turn_char hopen hclose) (FmtInput.byteAt_of_append hbyte) allTexts_nil

theorem passes_double (hfmt : fmt = done ++ c :: c :: rest) (hc : c = chr '\x7b' ∨ c = chr '\x7d')
    (hts : ts ≤ done.length) :
    ∃ copied, Passes (bareInput fmt behind) done.length (done ++ [c, c]).length ⟨last, k, none, ts⟩
      ⟨c, k, none, done.length + 1 + 1⟩ copied := by
  have hbyte : (bareInput fmt behind).fmt = done ++ c :: c :: rest := hfmt
  have hlen : (bareInput fmt behind).fmt.length = done.length + (rest.length + 1 + 1) := by
    rw [hbyte, List.length_append]
    rfl
  have hnext := byteAt_next hbyte
  obtain ⟨copied, hcopy, htexts⟩ :=
    FmtInput.copyText_some (i := bareInput fmt behind) ts (done.length + 1 - ts) (by omega)
  rw [List.length_append]
  exact ⟨copied, passes_turn hbyte (FmtInput.turn_double hc hnext hcopy) hnext htexts⟩

theorem loop_closed {i : FmtInput} {copied writes : List FmtWrite} {ts' : Nat} (hbody : Placeholder body)
    (hfmt : i.fmt = done ++ chr '\x7b' :: (body ++ chr '\x7d' :: rest))
    (hcopy : i.copyText ts (done.length - ts) = some copied)
    (hturn : i.turn (done ++ [chr '\x7b'] ++ body).length
        ⟨body.getLast?.getD (chr '\x7b'), k, some done.length, done.length + 1⟩ (chr '\x7d') =
      some (.next writes 0 ⟨body.getLast?.getD (chr '\x7b'), k + 1, none, ts'⟩)) :
    i.loop done.length ⟨last, k, none, ts⟩ =
      (i.loop (done ++ [chr '\x7b'] ++ body ++ [chr '\x7d']).length ⟨chr '\x7d', k + 1, none, ts'⟩).map
        fun trace => ⟨copied ++ (writes ++ trace.writes), trace.error⟩ := by
  have hinner : i.fmt = (done ++ [chr '\x7b']) ++ (body ++ chr '\x7d' :: rest) := hfmt.trans (List.append_cons ..)
  obtain ⟨d, u, hu, hd⟩ := hbody.next rest
  have hnext : i.byteAt (done.length + 1) = some d := byteAt_next (by rw [hfmt, hu])
  exact FmtInput.loop_placeholder hfmt hnext hd hcopy (passes_body hinner hbody.inner).loop_eq hturn

/-- The argument is not found, so that the text begins at the brace again. -/
theorem passes_placeholder (hfmt : fmt = done ++ chr '\x7b' :: (body ++ chr '\x7d' :: rest)) (hbody : Placeholder body)
    (hts : ts ≤ done.length) :
    ∃ copied, Passes (bareInput fmt behind) done.length (done ++ [chr '\x7b'] ++ body ++ [chr '\x7d']).length
      ⟨last, k, none, ts⟩ ⟨chr '\x7d', k + 1, none, done.length⟩ copied := by
  have hopen : (bareInput fmt behind).fmt = done ++ chr '\x7b' :: (body ++ chr '\x7d' :: rest) := hfmt
  have hlt : done.length < (bareInput fmt behind).fmt.length := (getElem_of_append hopen).1
  obtain ⟨copied, hcopy, htexts⟩ := FmtInput.copyText_some (i := bareInput fmt behind) ts (done.length - ts) (by omega)
  exact ⟨copied, loop_closed hbody hopen hcopy (turn_bare hbody.last_ne), htexts⟩

theorem passes_complete {t : List UInt8} (h : Complete t) (hfmt : fmt = done ++ (t ++ rest)) (hts : ts ≤ done.length) :
    ∃ s writes, Passes (bareInput fmt behind) done.length (done ++ t).length ⟨last, k, none, ts⟩ s writes ∧
      s.insertStartIdx = none ∧ s.textStartIdx ≤ (done ++ t).length := by
  induction h generalizing done last k ts with
  | nil =>
    rw [List.append_nil]
    exact ⟨_, [], .refl _ _ _, rfl, hts⟩
  | @char c t hopen hclose _ ih =>
    have hfmt' : fmt = (done ++ [c]) ++ (t ++ rest) := hfmt.trans (List.append_cons ..)
    have hts' : ts ≤ (done ++ [c]).length := by
      rw [List.length_append]
      exact Nat.le_trans hts (Nat.le_add_right _ _)
    obtain ⟨s, writes, hpass, hs, hle⟩ := @ih (done ++ [c]) c k ts hfmt' hts'
    rw [← List.append_cons] at hpass hle
    exact ⟨s, _, (passes_char hfmt hopen hclose).trans hpass, hs, hle⟩
  | @double c t hc _ ih =>
    obtain ⟨copied, hfirst⟩ := @passes_double fmt done (t ++ rest) c last k ts behind hfmt hc hts
    have hfmt' : fmt = (done ++ [c, c]) ++ (t ++ rest) := by
      rw [List.append_assoc]
      exact hfmt
    have hlen : (done ++ [c, c]).length = done.length + 1 + 1 := List.length_append
    obtain ⟨s, writes, hpass, hs, hle⟩ := @ih (done ++ [c, c]) c k (done.length + 1 + 1) hfmt' (Nat.le_of_eq hlen.symm)
    rw [List.append_assoc] at hle
    rw [List.append_assoc done] at hpass
    exact ⟨s, _, hfirst.trans hpass, hs, hle⟩
  | @placeholder body t hbody _ ih =>
    have hopen : fmt = done ++ chr '\x7b' :: (body ++ chr '\x7d' :: (t ++ rest)) := by
      rw [List.cons_append, List.append_assoc] at hfmt
      exact hfmt
    have hdone : ∀ u, done ++ [chr '\x7b'] ++ body ++ [chr '\x7d'] ++ u =
        done ++ chr '\x7b' :: (body ++ chr '\x7d' :: u) := fun u => by
      simp only [List.append_assoc, List.cons_append, List.nil_append]
    have hts' : done.length ≤ (done ++ [chr '\x7b'] ++ body ++ [chr '\x7d']).length := by
      rw [List.append_assoc, List.append_assoc, List.length_append]
      exact Nat.le_add_right _ _
    obtain ⟨copied, hfirst⟩ := @passes_placeholder fmt done (t ++ rest) body last k ts behind hopen hbody hts
    obtain ⟨s, writes, hpass, hs, hle⟩ :=
      @ih (done ++ [chr '\x7b'] ++ body ++ [chr '\x7d']) (chr '\x7d') (k + 1) done.length
        (by rw [hdone]; exact hopen) hts'
    have hpass' := hfirst.trans hpass
    rw [hdone] at hpass' hle
    exact ⟨s, _, hpass', hs, hle⟩

/-- A push never fails where every 64-bit position is below the capacity. -/
theorem pushCopy_roomy {arena : Arena} (hcap : arena.cap = 2 ^ 64 - 1) (bytes : List UInt8) :
    ∃ arena', pushCopy arena bytes.length bytes = some arena' ∧ arena'.cap = arena.cap ∧
      arena'.unsafeRecord = arena.unsafeRecord := by
  have hle : wrap64 (arena.pos + pushSize arena bytes.length) ≤ arena.cap := by
    have := wrap64_lt (arena.pos + pushSize arena bytes.length)
    omega
  unfold pushSize at hle
  unfold pushCopy memArenaPush
  simp only [hle, if_true]
  exact ⟨_, rfl, rfl, rfl⟩

theorem texts_run {arena : Arena} {writes : List FmtWrite} (hcap : arena.cap = 2 ^ 64 - 1)
    (h : FmtInput.AllTexts writes) :
    ∃ arena', writes.foldlM FmtWrite.run arena = some arena' ∧ arena'.unsafeRecord = arena.unsafeRecord := by
  induction writes generalizing arena with
  | nil => exact ⟨arena, rfl, rfl⟩
  | cons write writes ih =>
    obtain ⟨bytes, rfl⟩ := h write List.mem_cons_self
    obtain ⟨arena', hpush, hcap', hrec⟩ := pushCopy_roomy hcap bytes
    obtain ⟨arena'', hrun, hrec'⟩ := ih (hcap'.trans hcap) fun write hw => h write (List.mem_cons_of_mem _ hw)
    refine ⟨arena'', ?_, hrec'.trans hrec⟩
    rw [List.foldlM_cons, FmtWrite.run, hpush]
    exact hrun

theorem fmt_of_texts {arena : Arena} {i : FmtInput} {trace : FmtTrace} (hcap : arena.cap = 2 ^ 64 - 1)
    (hrec : arena.unsafeRecord = 0) (hloop : i.loop 0 {} = some trace) (h : FmtInput.AllTexts trace.writes) :
    strFmtVargs arena i ≠ none := by
  have hcap' : (memArenaStartUnsafeRecord { arena with alignment := 1 }).cap = 2 ^ 64 - 1 := hcap
  obtain ⟨arena', hrun, hrec'⟩ := texts_run hcap' h
  have hone : arena'.unsafeRecord = 1 := by
    rw [hrec']
    show arena.unsafeRecord + 1 = 1
    rw [hrec]
    rfl
  unfold strFmtVargs
  simp only [hloop, hrun, Option.bind_eq_bind, Option.bind_some]
  by_cases herror : trace.error = true
  · rw [if_pos herror]
    exact Option.some_ne_none _
  · rw [if_neg herror]
    unfold strRecordEnd memArenaStopUnsafeRecord
    simp only [hone, Option.bind_eq_bind]
    exact Option.some_ne_none _

theorem turn_behind {i : FmtInput} {idx : Nat} (hc : c = chr '\x7b' ∨ c = chr '\x7d')
    (hnext : i.byteAt (idx + 1) = none) : i.turn idx ⟨last, k, none, ts⟩ c = none := by
  unfold FmtInput.turn
  cases hc with
  | inl hc => simp only [hc, if_true, hnext, Option.bind_eq_bind, Option.bind_none]
  | inr hc =>
    have hne : ¬ chr '\x7d' = chr '\x7b' := by decide
    simp only [hc, hne, if_true, if_false, hnext, Option.bind_eq_bind, Option.bind_none]

theorem byteAt_behind {t : List UInt8} : (bareInput (t ++ [c]) behind).byteAt (t.length + 1) = behind 0 := by
  have hlen : (bareInput (t ++ [c]) behind).fmt.length = t.length + 1 := List.length_append
  unfold FmtInput.byteAt
  rw [dif_neg (by omega), hlen, Nat.sub_self]
  rfl

/-- The scan of the complete part of a template that ends open. -/
theorem passes_start {t : List UInt8} (ht : Complete t) (c : UInt8) (behind : Nat → Option UInt8) :
    ∃ last k ts writes, Passes (bareInput (t ++ [c]) behind) 0 t.length {} ⟨last, k, none, ts⟩ writes ∧
      ts ≤ t.length := by
  have h : ∃ s writes, Passes (bareInput (t ++ [c]) behind) ([] : List UInt8).length ([] ++ t).length ⟨0, 0, none, 0⟩ s
      writes ∧ s.insertStartIdx = none ∧ s.textStartIdx ≤ ([] ++ t).length := passes_complete ht rfl (Nat.le_refl _)
  obtain ⟨⟨last, k, _, ts⟩, writes, hpass, hs, hts⟩ := h
  dsimp only at hs
  subst hs
  exact ⟨last, k, ts, writes, hpass, hts⟩

theorem loop_unreadable {t : List UInt8} (ht : Complete t) (hc : c = chr '\x7b' ∨ c = chr '\x7d') :
    (bareInput (t ++ [c]) fun _ => none).loop 0 {} = none := by
  obtain ⟨last, k, ts, writes, hpass, _⟩ := passes_start ht c fun _ => none
  obtain ⟨hlt, hget⟩ : ∃ hlt : t.length < (bareInput (t ++ [c]) fun _ => none).fmt.length,
      (bareInput (t ++ [c]) fun _ => none).fmt[t.length] = c := getElem_of_append rfl
  have hturn : (bareInput (t ++ [c]) fun _ => none).turn t.length ⟨last, k, none, ts⟩ c = none :=
    turn_behind hc byteAt_behind
  have hloop := hpass.loop
  rw [FmtInput.loop_turn hlt, hget, hturn] at hloop
  exact hloop

/-- An open brace at the end begins a placeholder that does not end. -/
theorem loop_open {t : List UInt8} (ht : Complete t) :
    ∃ trace, (bareInput (t ++ [chr '\x7b']) fun _ => some 0).loop 0 {} = some trace ∧
      FmtInput.AllTexts trace.writes := by
  obtain ⟨last, k, ts, writes, hpass, hts⟩ := passes_start ht (chr '\x7b') fun _ => some 0
  have hlen : (bareInput (t ++ [chr '\x7b']) fun _ => some 0).fmt.length = t.length + 1 := List.length_append
  have hbyte : (bareInput (t ++ [chr '\x7b']) fun _ => some 0).fmt = t ++ chr '\x7b' :: [] := rfl
  obtain ⟨copied, hcopy, htexts⟩ :=
    FmtInput.copyText_some (i := bareInput (t ++ [chr '\x7b']) fun _ => some 0) ts (t.length - ts) (by omega)
  have hturn : Passes (bareInput (t ++ [chr '\x7b']) fun _ => some 0) t.length (t.length + 0 + 1)
      ⟨last, k, none, ts⟩ ⟨chr '\x7b', k, some t.length, t.length + 1⟩ copied :=
    passes_turn hbyte (FmtInput.turn_open byteAt_behind (by decide) hcopy) (FmtInput.byteAt_of_append hbyte) htexts
  have hall := hpass.trans hturn
  have hleft : (bareInput (t ++ [chr '\x7b']) fun _ => some 0).textLeft (t.length + 1) = 0 := by
    unfold FmtInput.textLeft
    rw [hlen, if_pos (Nat.le_refl _), Nat.sub_self]
  have hend : (bareInput (t ++ [chr '\x7b']) fun _ => some 0).loop (t.length + 0 + 1)
      ⟨chr '\x7b', k, some t.length, t.length + 1⟩ = some ⟨[], false⟩ := by
    rw [FmtInput.loop_end (Nat.le_of_eq hlen), hleft]
    rfl
  refine ⟨⟨writes ++ copied ++ [], false⟩, ?_, ?_⟩
  · have hloop := hall.loop
    rw [hend] at hloop
    exact hloop
  · rw [List.append_nil]
    exact hall.texts

/-- A closing brace at the end is a lone one. -/
theorem loop_close {t : List UInt8} (ht : Complete t) :
    ∃ trace, (bareInput (t ++ [chr '\x7d']) fun _ => some 0).loop 0 {} = some trace ∧
      FmtInput.AllTexts trace.writes := by
  obtain ⟨last, k, ts, writes, hpass, _⟩ := passes_start ht (chr '\x7d') fun _ => some 0
  obtain ⟨hlt, hget⟩ : ∃ hlt : t.length < (bareInput (t ++ [chr '\x7d']) fun _ => some 0).fmt.length,
      (bareInput (t ++ [chr '\x7d']) fun _ => some 0).fmt[t.length] = chr '\x7d' := getElem_of_append rfl
  have hturn : (bareInput (t ++ [chr '\x7d']) fun _ => some 0).turn t.length ⟨last, k, none, ts⟩ (chr '\x7d') =
      some .error := FmtInput.turn_single byteAt_behind (by decide)
  have hloop := hpass.loop
  rw [FmtInput.loop_turn hlt, hget, hturn] at hloop
  refine ⟨⟨writes ++ [], true⟩, hloop, ?_⟩
  rw [List.append_nil]
  exact hpass.texts

theorem loop_readable {t : List UInt8} (ht : Complete t) (hc : c = chr '\x7b' ∨ c = chr '\x7d') :
    ∃ trace, (bareInput (t ++ [c]) fun _ => some 0).loop 0 {} = some trace ∧ FmtInput.AllTexts trace.writes := by
  cases hc with
  | inl hc =>
    subst hc
    exact loop_open ht
  | inr hc =>
    subst hc
    exact loop_close ht

theorem not_readsOnly_of_endsOpen (h : EndsOpen fmt) : ¬ ReadsOnlyTemplate fmt := by
  obtain ⟨t, c, rfl, hc, ht⟩ := h
  intro hreads
  obtain ⟨trace, hloop, htexts⟩ := loop_readable ht hc
  have hcap : (memMakeArenaAligned 1 (fun _ => 0) (2 ^ 64 - 1) 1).cap = 2 ^ 64 - 1 := rfl
  apply fmt_of_texts hcap rfl hloop htexts
  rw [bareInput, hreads.result]
  unfold strFmtVargs
  have hnone := loop_unreadable ht hc
  unfold bareInput at hnone
  rw [hnone]
  rfl

end

theorem readsOnlyTemplate_iff (fmt : List UInt8) : ReadsOnlyTemplate fmt ↔ ¬ EndsOpen fmt :=
  ⟨fun h hopen => not_readsOnly_of_endsOpen hopen h, readsOnlyTemplate⟩

theorem not_readsOnlyTemplate : ¬ ReadsOnlyTemplate (s8 "a\x7b") :=
  not_readsOnly_of_endsOpen ⟨s8 "a", chr '\x7b', rfl, .inl rfl, .char (by decide) (by decide) .nil⟩

end CWebServer
