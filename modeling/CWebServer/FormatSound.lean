import CWebServer.Format
import CWebServer.JoinSound
import Mathlib.Data.List.Induction

/-!
# Formatting inserts the arguments

A template of escaped texts with `{}` between them gives the texts with the
rendered arguments between them.
-/

namespace CWebServer

/-! ## Writes of a scan -/

def WritesAll (writes : List FmtWrite) (t : List UInt8) (peak : Nat) : Prop :=
  Writes (fun arena => writes.foldlM FmtWrite.run arena) t peak

theorem WritesAll.append {ws ws' : List FmtWrite} {t u : List UInt8} {m n : Nat} (h : WritesAll ws t m)
    (h' : WritesAll ws' u n) : WritesAll (ws ++ ws') (t ++ u) (max m (t.length + n)) := by
  have hbind := Writes.bind h h'
  unfold WritesAll
  simp only [List.foldlM_append]
  exact hbind

theorem WritesAll.single {write : FmtWrite} {t : List UInt8} {m : Nat} (h : Writes (FmtWrite.run · write) t m) :
    WritesAll [write] t m := by
  unfold WritesAll
  simp only [List.foldlM_cons, List.foldlM_nil, bind_pure]
  exact h

theorem WritesAll.text {ws ws' : List FmtWrite} {t u : List UInt8} {n : Nat} (h : WritesAll ws t t.length)
    (h' : WritesAll ws' u n) : WritesAll (ws ++ ws') (t ++ u) (t.length + n) := by
  have happ := h.append h'
  rwa [Nat.max_eq_right (Nat.le_add_right _ _)] at happ

theorem writesAll_value (arg : PlainValue) (format : List UInt8) :
    WritesAll [.value arg.toStrValue format] arg.render arg.peak := by
  apply WritesAll.single
  have h := (exact_value (Nat.le_refl arg.peak)).toWrites
  cases arg <;> exact h

/-! ## The scan, turn by turn -/

namespace FmtInput
variable {i : FmtInput}

theorem byteAt_of_append {done rest : List UInt8} {c : UInt8} (h : i.fmt = done ++ c :: rest) :
    i.byteAt done.length = some c := by
  have hlt : done.length < i.fmt.length := by
    rw [h, List.length_append, List.length_cons]
    omega
  unfold byteAt
  rw [dif_pos hlt]
  simp only [h, List.getElem_append_right (Nat.le_refl _), Nat.sub_self, List.getElem_cons_zero]

theorem readBytes_of_append {done t rest : List UInt8} (h : i.fmt = done ++ (t ++ rest)) :
    i.readBytes done.length t.length = some t := by
  unfold readBytes
  induction t using List.reverseRecOn generalizing rest with
  | nil => rfl
  | append_singleton t c ih =>
    rw [List.append_assoc] at h
    have hbyte : i.byteAt (done.length + t.length) = some c := by
      rw [← List.length_append]
      exact byteAt_of_append (by rw [h, List.append_assoc]; rfl)
    rw [List.length_append, List.length_singleton, List.range_succ, List.mapM_append, ih h]
    simp only [List.mapM_cons, List.mapM_nil, hbyte]
    rfl

theorem loop_end {idx : Nat} {s : FmtScan} (h : i.fmt.length ≤ idx) :
    i.loop idx s = (i.copyText s.textStartIdx (i.textLeft s.textStartIdx)).map fun writes => ⟨writes, false⟩ := by
  rw [loop, dif_neg (Nat.not_lt.mpr h), Option.map_eq_bind]
  rfl

theorem loop_turn {idx : Nat} {s : FmtScan} (h : idx < i.fmt.length) :
    i.loop idx s = (i.turn idx s i.fmt[idx]).bind fun
      | .error => some ⟨[], true⟩
      | .next writes skip s => (i.byteAt (idx + skip)).bind fun lastChar =>
        (i.loop (idx + skip + 1) { s with lastChar }).map fun trace => ⟨writes ++ trace.writes, trace.error⟩ := by
  rw [loop, dif_pos h]
  simp only [Option.map_eq_bind]
  rfl

theorem loop_next {done rest : List UInt8} {c last : UInt8} {writes : List FmtWrite} {skip : Nat} {s s' : FmtScan}
    (h : i.fmt = done ++ c :: rest) (hturn : i.turn done.length s c = some (.next writes skip s'))
    (hlast : i.byteAt (done.length + skip) = some last) :
    i.loop done.length s =
      (i.loop (done.length + skip + 1) { s' with lastChar := last }).map fun trace =>
        ⟨writes ++ trace.writes, trace.error⟩ := by
  have hlt : done.length < i.fmt.length := by
    rw [h, List.length_append, List.length_cons]
    omega
  have hc : i.fmt[done.length] = c := by
    simp only [h, List.getElem_append_right (Nat.le_refl _), Nat.sub_self, List.getElem_cons_zero]
  rw [loop_turn hlt, hc]
  simp only [hturn, hlast, Option.bind_some]

variable {idx k ts : Nat} {last c : UInt8} {writes : List FmtWrite}

theorem turn_char (hopen : c ≠ chr '\x7b') (hclose : c ≠ chr '\x7d') :
    i.turn idx ⟨last, k, none, ts⟩ c = some (.next [] 0 ⟨last, k, none, ts⟩) := by
  unfold turn
  simp only [hopen, hclose, if_false]

theorem turn_double (hc : c = chr '\x7b' ∨ c = chr '\x7d') (hnext : i.byteAt (idx + 1) = some c)
    (hcopy : i.copyText ts (idx + 1 - ts) = some writes) :
    i.turn idx ⟨last, k, none, ts⟩ c = some (.next writes 1 ⟨last, k, none, idx + 1 + 1⟩) := by
  cases hc with
  | inl hc =>
    unfold turn
    simp only [hc, if_true] at hnext ⊢
    simp only [hnext, Option.bind_eq_bind, Option.bind_some, if_true, hcopy]
    rfl
  | inr hc =>
    have hne : ¬ chr '\x7d' = chr '\x7b' := by decide
    unfold turn
    simp only [hc, hne, if_true, if_false] at hnext ⊢
    simp only [hnext, Option.bind_eq_bind, Option.bind_some, if_true, hcopy]

theorem turn_open (hnext : i.byteAt (idx + 1) = some c) (hc : c ≠ chr '\x7b')
    (hcopy : i.copyText ts (idx - ts) = some writes) :
    i.turn idx ⟨last, k, none, ts⟩ (chr '\x7b') = some (.next writes 0 ⟨last, k, some idx, idx + 1⟩) := by
  unfold turn
  simp only [hnext, Option.bind_eq_bind, Option.bind_some, hc, if_true, if_false, Nat.add_zero, hcopy, ne_eq,
    not_false_eq_true]

theorem turn_single (hnext : i.byteAt (idx + 1) = some c) (hc : c ≠ chr '\x7d') :
    i.turn idx ⟨last, k, none, ts⟩ (chr '\x7d') = if i.ndebug then some .error else none := by
  have hne : ¬ chr '\x7d' = chr '\x7b' := by decide
  unfold turn
  simp only [hnext, Option.bind_eq_bind, Option.bind_some, hne, hc, if_true, if_false]

theorem turn_value {start : Nat} {write : FmtWrite} (hlast : last ≠ chr '\\')
    (hinsert : strInsertValue k ((i.fmt.drop (start + 1)).take (idx - (start + 1))) i.args = some write) :
    i.turn idx ⟨last, k, some start, ts⟩ (chr '\x7d') =
      some (.next [write] 0 ⟨last, k + 1, none, idx + 1⟩) := by
  unfold turn
  simp only [hlast, hinsert, ne_eq, not_false_eq_true, and_self, if_true]

/-- The turn of a closing brace, behind what the braces enclose. -/
theorem loop_placeholder {done body rest : List UInt8} {inner d : UInt8} {copied : List FmtWrite} {ts' : Nat}
    (hfmt : i.fmt = done ++ chr '\x7b' :: (body ++ chr '\x7d' :: rest))
    (hnext : i.byteAt (done.length + 1) = some d) (hd : d ≠ chr '\x7b')
    (hcopy : i.copyText ts (done.length - ts) = some copied)
    (hbody : i.loop (done ++ [chr '\x7b']).length ⟨chr '\x7b', k, some done.length, done.length + 1⟩ =
      i.loop (done ++ [chr '\x7b'] ++ body).length ⟨inner, k, some done.length, done.length + 1⟩)
    (hturn : i.turn (done ++ [chr '\x7b'] ++ body).length ⟨inner, k, some done.length, done.length + 1⟩ (chr '\x7d') =
      some (.next writes 0 ⟨inner, k + 1, none, ts'⟩)) :
    i.loop done.length ⟨last, k, none, ts⟩ =
      (i.loop (done ++ [chr '\x7b'] ++ body ++ [chr '\x7d']).length ⟨chr '\x7d', k + 1, none, ts'⟩).map
        fun trace => ⟨copied ++ (writes ++ trace.writes), trace.error⟩ := by
  have hclose : i.fmt = (done ++ [chr '\x7b'] ++ body) ++ chr '\x7d' :: rest :=
    hfmt.trans ((List.append_cons ..).trans (List.append_assoc ..).symm)
  have hopen : (done ++ [chr '\x7b']).length = done.length + 0 + 1 := List.length_append
  have hend : (done ++ [chr '\x7b'] ++ body ++ [chr '\x7d']).length =
      (done ++ [chr '\x7b'] ++ body).length + 0 + 1 := List.length_append
  have hfirst : i.loop done.length ⟨last, k, none, ts⟩ =
      (i.loop (done ++ [chr '\x7b']).length ⟨chr '\x7b', k, some done.length, done.length + 1⟩).map fun trace =>
        ⟨copied ++ trace.writes, trace.error⟩ := by
    rw [hopen]
    exact loop_next hfmt (turn_open hnext hd hcopy) (byteAt_of_append hfmt)
  rw [hfirst, hbody, loop_next hclose hturn (byteAt_of_append hclose), ← hend, Option.map_map]
  rfl

theorem copy_of_append {done t rest : List UInt8} (h : i.fmt = done ++ (t ++ rest)) :
    ∃ writes, i.copyText done.length t.length = some writes ∧ WritesAll writes t t.length := by
  unfold copyText
  by_cases h0 : 0 < t.length
  · rw [if_pos h0, readBytes_of_append h]
    exact ⟨[.text t], rfl, .single (emits_pushCopy t).writes⟩
  · rw [if_neg h0]
    have hnil : t = [] := List.length_eq_zero_iff.mp (Nat.eq_zero_of_not_pos h0)
    subst hnil
    exact ⟨[], rfl, writes_nil⟩

end FmtInput

/-! ## Templates -/

structure FmtArg where
  key : List UInt8
  value : PlainValue
  deriving DecidableEq, Repr

def FmtArg.toStrKeyValue (arg : FmtArg) : StrKeyValue := ⟨arg.key, arg.value.toStrValue⟩

def escapeChar (c : UInt8) : List UInt8 := if c = chr '\x7b' ∨ c = chr '\x7d' then [c, c] else [c]

def escape (text : List UInt8) : List UInt8 := text.flatMap escapeChar

/-- The texts, escaped, with a placeholder before each but the first. -/
def fmtTemplate (text : List UInt8) : List (List UInt8) → List UInt8
  | [] => escape text
  | next :: texts => escape text ++ (s8 "\x7b\x7d" ++ fmtTemplate next texts)

def fmtText (text : List UInt8) : List (List UInt8) → List FmtArg → List UInt8
  | next :: texts, arg :: args => text ++ (arg.value.render ++ fmtText next texts args)
  | _, _ => text

def fmtPeak (text : List UInt8) : List (List UInt8) → List FmtArg → Nat
  | next :: texts, arg :: args => text.length + max arg.value.peak (arg.value.render.length + fmtPeak next texts args)
  | _, _ => text.length

variable {c : UInt8} {text : List UInt8}

theorem fmtTemplate_cons (c : UInt8) (text : List UInt8) (texts : List (List UInt8)) :
    fmtTemplate (c :: text) texts = escapeChar c ++ fmtTemplate text texts := by
  cases texts with
  | nil => rfl
  | cons next texts =>
    unfold fmtTemplate escape
    rw [List.flatMap_cons, List.append_assoc]

theorem fmtText_cons (c : UInt8) (text : List UInt8) (texts : List (List UInt8)) (args : List FmtArg) :
    fmtText (c :: text) texts args = c :: fmtText text texts args := by
  cases texts with
  | nil => rfl
  | cons next texts => cases args <;> rfl

theorem fmtPeak_cons (c : UInt8) (text : List UInt8) (texts : List (List UInt8)) (args : List FmtArg) :
    fmtPeak (c :: text) texts args = 1 + fmtPeak text texts args := by
  cases texts with
  | nil => exact Nat.add_comm _ _
  | cons next texts =>
    cases args with
    | nil => exact Nat.add_comm _ _
    | cons arg args =>
      unfold fmtPeak
      rw [List.length_cons, Nat.add_comm text.length 1, Nat.add_assoc]

/-- Behind `pending`, which is still to be copied, the scan writes `t` for the rest of the template. -/
def ScansTo (i : FmtInput) (rest : List UInt8) (k : Nat) (t : List UInt8) (peak : Nat) : Prop :=
  ∀ (done pending : List UInt8) (last : UInt8), i.fmt = done ++ (pending ++ rest) →
    ∃ writes, i.loop (done ++ pending).length ⟨last, k, none, done.length⟩ = some ⟨writes, false⟩ ∧
      WritesAll writes (pending ++ t) (pending.length + peak)

section
variable {i : FmtInput} {rest t : List UInt8} {k peak : Nat}

theorem ScansTo.nil : ScansTo i [] k [] 0 := by
  intro done pending last hfmt
  have hlen : i.fmt.length = (done ++ pending).length := by rw [hfmt, List.append_nil]
  have hleft : i.textLeft done.length = pending.length := by
    unfold FmtInput.textLeft
    rw [hlen, List.length_append, if_pos (Nat.le_add_right _ _), Nat.add_sub_cancel_left]
  obtain ⟨writes, hcopy, hwrites⟩ := FmtInput.copy_of_append hfmt
  refine ⟨writes, ?_, ?_⟩
  · rw [FmtInput.loop_end (Nat.le_of_eq hlen)]
    simp only [hleft, hcopy, Option.map_some]
  · rw [List.append_nil]
    exact hwrites

theorem ScansTo.char (h : ScansTo i rest k t peak) (hopen : c ≠ chr '\x7b') (hclose : c ≠ chr '\x7d') :
    ScansTo i (c :: rest) k (c :: t) (1 + peak) := by
  intro done pending last hfmt
  have hbyte : i.fmt = done ++ pending ++ c :: rest := by rw [hfmt, List.append_assoc]
  obtain ⟨writes, hloop, hwrites⟩ := h done (pending ++ [c]) c (by rw [hfmt, List.append_assoc]; rfl)
  have hidx : (done ++ (pending ++ [c])).length = (done ++ pending).length + 0 + 1 := by
    rw [← List.append_assoc, List.length_append]
    rfl
  refine ⟨writes, ?_, ?_⟩
  · rw [FmtInput.loop_next hbyte (FmtInput.turn_char hopen hclose) (FmtInput.byteAt_of_append hbyte), ← hidx, hloop]
    rfl
  · rw [← Nat.add_assoc]
    rw [List.append_assoc, List.length_append] at hwrites
    exact hwrites

theorem ScansTo.brace (h : ScansTo i rest k t peak) (hc : c = chr '\x7b' ∨ c = chr '\x7d') :
    ScansTo i (c :: c :: rest) k (c :: t) (1 + peak) := by
  intro done pending last hfmt
  have hfirst : i.fmt = done ++ pending ++ c :: (c :: rest) := by rw [hfmt, List.append_assoc]
  have hsecond : i.fmt = (done ++ pending ++ [c]) ++ c :: rest := by
    rw [hfirst, List.append_assoc _ [c]]
    rfl
  have hnext : i.byteAt ((done ++ pending).length + 1) = some c := by
    have hbyte := FmtInput.byteAt_of_append hsecond
    rwa [List.length_append] at hbyte
  have hpending : i.fmt = done ++ ((pending ++ [c]) ++ c :: rest) := by
    rw [hfmt, List.append_assoc]
    rfl
  obtain ⟨copied, hcopy, hcopied⟩ := FmtInput.copy_of_append hpending
  have hsize : (done ++ pending).length + 1 - done.length = (pending ++ [c]).length := by
    rw [List.length_append, List.length_append, List.length_singleton]
    omega
  obtain ⟨writes, hloop, hwrites⟩ := h (done ++ pending ++ [c, c]) [] c
    (by rw [hfirst, List.append_assoc _ [c, c]]; rfl)
  have hidx : (done ++ pending ++ [c, c]).length = (done ++ pending).length + 1 + 1 := by
    rw [List.length_append]
    rfl
  refine ⟨copied ++ writes, ?_, ?_⟩
  · rw [List.append_nil, hidx] at hloop
    rw [FmtInput.loop_next hfirst (FmtInput.turn_double hc hnext (by rw [hsize]; exact hcopy)) hnext, hloop]
    rfl
  · rw [← Nat.add_assoc]
    rw [List.nil_append, List.length_nil, Nat.zero_add] at hwrites
    have happ := hcopied.text hwrites
    rwa [List.append_assoc, List.length_append] at happ

theorem ScansTo.cons (h : ScansTo i rest k t peak) (c : UInt8) :
    ScansTo i (escapeChar c ++ rest) k (c :: t) (1 + peak) := by
  unfold escapeChar
  split
  · rename_i hc
    exact h.brace hc
  · rename_i hc
    exact h.char (fun hopen => hc (.inl hopen)) fun hclose => hc (.inr hclose)

/-- A placeholder that writes a value. -/
theorem ScansTo.value {body u : List UInt8} {m : Nat} {write : FmtWrite} (h : ScansTo i rest (k + 1) t peak)
    (hvalue : WritesAll [write] u m)
    (hpass : ∀ (done : List UInt8) (last : UInt8) (ts : Nat) (copied : List FmtWrite),
      i.fmt = done ++ chr '\x7b' :: (body ++ chr '\x7d' :: rest) → i.copyText ts (done.length - ts) = some copied →
      i.loop done.length ⟨last, k, none, ts⟩ =
        (i.loop (done ++ [chr '\x7b'] ++ body ++ [chr '\x7d']).length
          ⟨chr '\x7d', k + 1, none, (done ++ [chr '\x7b'] ++ body).length + 1⟩).map
          fun trace => ⟨copied ++ ([write] ++ trace.writes), trace.error⟩) :
    ScansTo i (chr '\x7b' :: (body ++ chr '\x7d' :: rest)) k (u ++ t) (max m (u.length + peak)) := by
  intro done pending last hfmt
  have hopen : i.fmt = done ++ pending ++ chr '\x7b' :: (body ++ chr '\x7d' :: rest) := by
    rw [hfmt, List.append_assoc]
  have hclose : i.fmt = (done ++ pending ++ [chr '\x7b'] ++ body) ++ chr '\x7d' :: rest :=
    hopen.trans ((List.append_cons ..).trans (List.append_assoc ..).symm)
  have hbehind : i.fmt = (done ++ pending ++ [chr '\x7b'] ++ body ++ [chr '\x7d']) ++ ([] ++ rest) :=
    hclose.trans (List.append_cons ..)
  have hend : (done ++ pending ++ [chr '\x7b'] ++ body ++ [chr '\x7d']).length =
      (done ++ pending ++ [chr '\x7b'] ++ body).length + 1 := List.length_append
  obtain ⟨copied, hcopy, hcopied⟩ := FmtInput.copy_of_append hfmt
  have hsize : (done ++ pending).length - done.length = pending.length := by
    rw [List.length_append, Nat.add_sub_cancel_left]
  obtain ⟨writes, hloop, hwrites⟩ := h _ [] (chr '\x7d') hbehind
  refine ⟨copied ++ ([write] ++ writes), ?_, ?_⟩
  · rw [List.append_nil] at hloop
    rw [hpass _ last _ copied hopen (by rw [hsize]; exact hcopy), ← hend, hloop]
    rfl
  · rw [List.nil_append, List.length_nil, Nat.zero_add] at hwrites
    exact hcopied.text (hvalue.append hwrites)

end

/-- The scan writes the text of the rest of the template. -/
def Scans (i : FmtInput) (text : List UInt8) (texts : List (List UInt8)) (k : Nat) (args : List FmtArg) : Prop :=
  ∀ (done pending : List UInt8) (last : UInt8), i.fmt = done ++ (pending ++ fmtTemplate text texts) →
    ∃ writes, i.loop (done ++ pending).length ⟨last, k, none, done.length⟩ = some ⟨writes, false⟩ ∧
      WritesAll writes (pending ++ fmtText text texts args) (pending.length + fmtPeak text texts args)

variable {i : FmtInput} {texts : List (List UInt8)} {args : List FmtArg} {k : Nat}

theorem Scans.cons (h : Scans i text texts k args) (c : UInt8) : Scans i (c :: text) texts k args := by
  have hscan := ScansTo.cons h c
  rwa [← fmtTemplate_cons, ← fmtText_cons, ← fmtPeak_cons] at hscan

theorem strInsertValue_count {k : Nat} {args : List StrKeyValue} {arg : StrKeyValue} (harg : args[k]? = some arg) :
    strInsertValue k [] args = some (.value arg.value []) := by
  unfold strInsertValue insertIndex
  simp only [List.head?_nil, harg, Option.map_some]
  rfl

theorem Scans.placeholder {next : List UInt8} {arg : FmtArg} (h : Scans i next texts (k + 1) args)
    (harg : i.args[k]? = some arg.toStrKeyValue) : Scans i [] (next :: texts) k (arg :: args) := by
  have hscan : ScansTo i (chr '\x7b' :: ([] ++ chr '\x7d' :: fmtTemplate next texts)) k
      (arg.value.render ++ fmtText next texts args)
      (max arg.value.peak (arg.value.render.length + fmtPeak next texts args)) := by
    apply ScansTo.value h (writesAll_value arg.value [])
    intro done last ts copied hfmt hcopy
    have hclose : i.fmt = (done ++ [chr '\x7b']) ++ chr '\x7d' :: fmtTemplate next texts :=
      hfmt.trans (List.append_cons ..)
    have hlen : (done ++ [chr '\x7b']).length = done.length + 1 := List.length_append
    have hnext : i.byteAt (done.length + 1) = some (chr '\x7d') := by
      rw [← hlen]
      exact FmtInput.byteAt_of_append hclose
    apply FmtInput.loop_placeholder hfmt hnext (by decide) hcopy
    · rw [List.append_nil]
    · apply FmtInput.turn_value (by decide)
      rw [List.append_nil, hlen, Nat.sub_self, List.take_zero]
      exact strInsertValue_count harg
  have hpeak : fmtPeak [] (next :: texts) (arg :: args) =
      max arg.value.peak (arg.value.render.length + fmtPeak next texts args) := Nat.zero_add _
  rw [← hpeak] at hscan
  exact hscan

theorem scans_template (texts : List (List UInt8)) (text : List UInt8) (k : Nat) (args : List FmtArg)
    (hargs : i.args.drop k = args.map FmtArg.toStrKeyValue) (hlen : texts.length ≤ args.length) :
    Scans i text texts k args := by
  induction texts generalizing text k args with
  | nil =>
    induction text with
    | nil => exact ScansTo.nil
    | cons c text ih => exact ih.cons c
  | cons next texts ihTexts =>
    induction text with
    | nil =>
      cases args with
      | nil => cases hlen
      | cons arg args =>
        apply Scans.placeholder
        · apply ihTexts
          · rw [← List.drop_drop, hargs]
            rfl
          · exact Nat.le_of_succ_le_succ hlen
        · have hhead := congrArg List.head? hargs
          rwa [List.head?_drop] at hhead
    | cons c text ih => exact ih.cons c

theorem ScansTo.loop {t : List UInt8} {peak : Nat} (h : ScansTo i i.fmt 0 t peak) :
    ∃ writes, i.loop 0 {} = some ⟨writes, false⟩ ∧ WritesAll writes t peak := by
  obtain ⟨writes, hloop, hwrites⟩ := h [] [] 0 rfl
  rw [List.nil_append, List.length_nil, Nat.zero_add] at hwrites
  exact ⟨writes, hloop, hwrites⟩

theorem loop_template {text : List UInt8} {texts : List (List UInt8)} {args : List FmtArg}
    (hn : texts.length ≤ args.length) (behind : Nat → Option UInt8) (ndebug : Bool) :
    ∃ writes, FmtInput.loop ⟨fmtTemplate text texts, behind, args.map FmtArg.toStrKeyValue, ndebug⟩ 0 {} =
        some ⟨writes, false⟩ ∧
      WritesAll writes (fmtText text texts args) (fmtPeak text texts args) := by
  have hscan : Scans ⟨fmtTemplate text texts, behind, args.map FmtArg.toStrKeyValue, ndebug⟩ text texts 0 args :=
    scans_template texts text 0 args rfl hn
  exact ScansTo.loop hscan

/-! ## The record of a format -/

theorem strRecord_eq (arena : Arena) (body : Arena → Option Arena) :
    strRecord arena body =
      (body (memArenaStartUnsafeRecord arena)).bind (strRecordEnd (memGetArenaMemOffsetPos arena + 1)) := rfl

theorem strFmtVargs_of_loop {arena : Arena} {writes : List FmtWrite} (h : i.loop 0 {} = some ⟨writes, false⟩) :
    strFmtVargs arena i =
      (strRecord { arena with alignment := 1 } fun arena => writes.foldlM FmtWrite.run arena).map fun (strOut, arena') =>
        .str strOut { arena' with alignment := arena.alignment % 2 ^ 32 } := by
  unfold strFmtVargs
  rw [h, strRecord_eq, Option.map_bind]
  simp only [Option.bind_eq_bind, Option.bind_some, Bool.false_eq_true, if_false]
  apply congrArg
  funext arena'
  rw [Function.comp_apply]
  cases strRecordEnd (memGetArenaMemOffsetPos { arena with alignment := 1 } + 1) arena' <;> rfl

/-- What a format returns whose scan writes `t`. -/
theorem fmt_of_scan {t : List UInt8} {peak : Nat} (hscan : ScansTo i i.fmt 0 t peak) {arena : Arena}
    (h : HasRoom arena peak) :
    ∃ str arena', strFmtVargs arena i = some (.str str arena') ∧ Returns arena' str t := by
  obtain ⟨writes, hloop, hwrites⟩ := hscan.loop
  have hroom : HasRoom { arena with alignment := 1 } peak := ⟨h.record, h.pos, h.room, h.cap⟩
  obtain ⟨arena', hrecord, hmem, _⟩ := strRecord_spec hwrites hroom
  rw [strFmtVargs_of_loop hloop, hrecord]
  refine ⟨_, _, rfl, returns_recorded ?_⟩
  rw [hmem]
  exact Memory.read_write ..

end CWebServer
