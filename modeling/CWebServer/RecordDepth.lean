import CWebServer.FormatSound
import CWebServer.HtmlSound

/-!
# Record depth and alignment

A join or a format closes the record that it opens, and a format puts the
alignment back that it sets to 1, though only 32 bits of it. A session of the
HTML builder opens two records and closes one of them.
-/

namespace CWebServer

/-- The record depth and the alignment. -/
def Arena.mode (arena : Arena) : Int × Nat := (arena.unsafeRecord, arena.alignment)

def Keeps (f : Arena → Option Arena) : Prop := ∀ arena arena', f arena = some arena' → arena'.mode = arena.mode

/-- The function of a custom value leaves the record depth and the alignment as it found them. -/
def StrValue.Keeps : StrValue → Prop
  | .custom buildStrFn => ∀ format, CWebServer.Keeps (buildStrFn · format)
  | _ => True

section
variable {f g : Arena → Option Arena}

theorem keeps_some : Keeps some := by
  intro arena arena' h
  cases h
  rfl

theorem Keeps.bind (hf : Keeps f) (hg : Keeps g) : Keeps fun arena => f arena >>= g := by
  intro arena arena'' h
  obtain ⟨arena', hf', hg'⟩ := Option.bind_eq_some_iff.mp h
  rw [hg _ _ hg', hf _ _ hf']

theorem Keeps.ite {p : Prop} [Decidable p] (hf : Keeps f) (hg : Keeps g) :
    Keeps fun arena => if p then f arena else g arena := by
  by_cases h : p
  · simp only [h, if_true]
    exact hf
  · simp only [h, if_false]
    exact hg

theorem Keeps.foldlM {α : Type*} {f : Arena → α → Option Arena} {l : List α} (h : ∀ a ∈ l, Keeps (f · a)) :
    Keeps fun arena => l.foldlM f arena := by
  induction l with
  | nil => exact keeps_some
  | cons a l ih =>
    exact (h a List.mem_cons_self).bind (ih fun b hb => h b (List.mem_cons_of_mem _ hb))

theorem mode_push (arena : Arena) (size : Nat) : (memArenaPush arena size).2.mode = arena.mode := by
  unfold memArenaPush
  simp only [← pushSize.eq_def]
  split <;> rfl

theorem mode_popTo (arena : Arena) (pos : Nat) : (memArenaPopTo arena pos).mode = arena.mode := by
  rcases memArenaPopTo_cases arena pos with ⟨_, he⟩ | ⟨_, he⟩ <;> rw [he]
  rfl

theorem keeps_pushCopy (size : Nat) (bytes : List UInt8) : Keeps fun arena => pushCopy arena size bytes := by
  intro arena arena' h
  have hmode := mode_push arena size
  simp only [pushCopy] at h
  cases hpush : memArenaPush arena size with
  | mk off pushed =>
    rw [hpush] at h hmode
    cases off with
    | some off =>
      cases h
      exact hmode
    | none =>
      by_cases hnil : bytes = []
      · simp only [hnil, if_true] at h
        cases h
        exact hmode
      · simp only [hnil, if_false] at h
        cases h

theorem keeps_pushChars (size : Nat) (chars : List UInt8) : Keeps fun arena => pushChars arena size chars := by
  intro arena arena' h
  unfold pushChars at h
  split at h
  · exact keeps_pushCopy _ _ arena arena' h
  · cases h

theorem keeps_point (c : FloatChars) : Keeps fun arena => (do
    let arena ← pushChars arena (wrap64 c.decPos) c.chars
    let arena ← pushCopy arena 1 (s8 ".")
    pushChars arena (wrap64 (c.length - c.decPos) % 2 ^ 32) (c.chars.drop (wrap64 c.decPos))) :=
  (keeps_pushChars _ _).bind ((keeps_pushCopy _ _).bind (keeps_pushChars _ _))

theorem keeps_f32 (c : FloatChars) : Keeps (strRecordf32Cast · c) := by
  have hdigits : Keeps fun arena =>
      if wrap64 c.decPos % 2 ^ 32 < c.length then do
        let arena ← pushChars arena (wrap64 c.decPos) c.chars
        let arena ← pushCopy arena 1 (s8 ".")
        pushChars arena (wrap64 (c.length - c.decPos) % 2 ^ 32) (c.chars.drop (wrap64 c.decPos))
      else pushChars arena c.length c.chars := by
    apply Keeps.ite
    · exact keeps_point c
    · exact keeps_pushChars _ _
  exact ((keeps_pushCopy 2 (s8 "0.")).bind hdigits).ite (keeps_some.bind hdigits)

theorem keeps_f64 (c : FloatChars) : Keeps (strRecordF64 · c) := by
  have hdigits := keeps_point c
  exact ((keeps_pushCopy c.length (s8 "0.")).bind hdigits).ite (keeps_some.bind hdigits)

theorem keeps_sign (isNegativ : Bool) : Keeps (recordSign · isNegativ) := (keeps_pushCopy _ _).ite keeps_some

theorem keeps_u64 (value : Nat) (isNegativ : Bool) : Keeps (strRecordU64 · value isNegativ) :=
  (keeps_sign isNegativ).bind ((keeps_pushCopy _ _).ite (keeps_pushCopy _ _))

theorem keeps_u32 (value : Nat) (isNegativ : Bool) : Keeps (strRecordU32 · value isNegativ) := by
  apply (keeps_sign isNegativ).bind
  apply Keeps.ite
  · exact keeps_pushCopy _ _
  · apply (keeps_pushCopy _ _).bind
    intro arena arena' h
    cases h
    split
    · exact mode_popTo _ _
    · rfl

theorem keeps_value {value : StrValue} (h : value.Keeps) : Keeps (strRecordValue · value) := by
  cases value with
  | custom buildStrFn => exact h []
  | str strVal => exact keeps_pushCopy _ _
  | char charVal => exact keeps_pushCopy _ _
  | f32 f32Val => exact keeps_f32 f32Val
  | f64 f64Val => exact keeps_f64 f64Val
  | u32 u32Val => exact keeps_u32 u32Val false
  | u64 u64Val => exact keeps_u64 u64Val false
  | i32 i32Val => exact keeps_u32 _ _
  | i64 i64Val => exact keeps_u64 _ _

/-! ## Records -/

theorem mode_stop {arena arena' : Arena} (h : memArenaStopUnsafeRecord arena = some arena') :
    arena'.mode = (arena.unsafeRecord - 1, arena.alignment) := by
  rcases memArenaStop_cases h with ⟨hrec, he⟩ | ⟨_, he⟩ <;> rw [he]
  · rw [hrec]
    rfl
  · rfl

theorem mode_recordEnd {startIdx : Nat} {arena arena' : Arena} {str : S8}
    (h : strRecordEnd startIdx arena = some (str, arena')) :
    arena'.mode = (arena.unsafeRecord - 1, arena.alignment) := by
  unfold strRecordEnd at h
  obtain ⟨arena'', hstop, hsome⟩ := Option.bind_eq_some_iff.mp h
  cases hsome
  exact mode_stop hstop

theorem mode_record (hf : Keeps f) {arena arena' : Arena} {str : S8} (h : strRecord arena f = some (str, arena')) :
    arena'.mode = arena.mode := by
  rw [strRecord_eq] at h
  obtain ⟨arena'', hbody, hend⟩ := Option.bind_eq_some_iff.mp h
  have hmode := hf _ _ hbody
  rw [mode_recordEnd hend]
  unfold Arena.mode memArenaStartUnsafeRecord at *
  simp only [Prod.mk.injEq] at hmode ⊢
  omega

theorem mode_join {arena arena' : Arena} {args : List StrValue} {str : S8} (hargs : ∀ arg ∈ args, arg.Keeps)
    (h : strJoinVargs arena args = some (str, arena')) : arena'.mode = arena.mode :=
  mode_record (.foldlM fun arg harg => keeps_value (hargs arg harg)) h

theorem keeps_strJoin (texts : List (List UInt8)) : Keeps (strJoin · texts) := by
  intro arena arena' h
  obtain ⟨⟨str, _⟩, hjoin, rfl⟩ := Option.map_eq_some_iff.mp h
  refine mode_join (fun arg harg => ?_) hjoin
  obtain ⟨text, _, rfl⟩ := List.mem_map.mp harg
  exact trivial

end

theorem keeps_write {value : StrValue} (h : value.Keeps) (format : List UInt8) :
    Keeps (FmtWrite.run · (.value value format)) := by
  cases value with
  | custom buildStrFn => exact h format
  | _ => exact keeps_value h

/-! ## Formats -/

def FmtWrite.Keeps : FmtWrite → Prop
  | .text _ => True
  | .value arg _ => arg.Keeps

def FmtInput.Keeps (i : FmtInput) : Prop := ∀ arg ∈ i.args, arg.value.Keeps

section
variable {i : FmtInput} {writes : List FmtWrite} {write : FmtWrite}

theorem FmtWrite.Keeps.run (h : write.Keeps) : CWebServer.Keeps (FmtWrite.run · write) := by
  cases write with
  | text bytes => exact keeps_pushCopy _ _
  | value arg format => exact keeps_write h format

theorem copyText_keeps {start size : Nat} (h : i.copyText start size = some writes) : ∀ w ∈ writes, w.Keeps := by
  unfold FmtInput.copyText at h
  split at h
  · obtain ⟨bytes, _, rfl⟩ := Option.map_eq_some_iff.mp h
    intro w hw
    rw [List.mem_singleton.mp hw]
    exact trivial
  · cases h
    exact fun w hw => absurd hw List.not_mem_nil

theorem insertValue_keeps (hi : i.Keeps) {k : Nat} {valueFormat : List UInt8}
    (h : strInsertValue k valueFormat i.args = some write) : write.Keeps := by
  unfold strInsertValue at h
  split at h
  · obtain ⟨arg, harg, rfl⟩ := Option.map_eq_some_iff.mp h
    exact hi arg (List.mem_of_getElem? harg)
  · dsimp only at h
    split at h
    · obtain ⟨arg, harg, rfl⟩ := Option.map_eq_some_iff.mp h
      exact hi arg (List.mem_of_find?_eq_some harg)
    · cases h

theorem turn_keeps (hi : i.Keeps) {idx skip : Nat} {s s' : FmtScan} {c : UInt8}
    (h : i.turn idx s c = some (.next writes skip s')) : ∀ w ∈ writes, w.Keeps := by
  have hnil : ∀ w ∈ ([] : List FmtWrite), w.Keeps := fun w hw => absurd hw List.not_mem_nil
  unfold FmtInput.turn at h
  split at h
  · split at h
    · dsimp only at h
      split at h
      · rename_i hinsert
        cases h
        intro w hw
        rw [List.mem_singleton.mp hw]
        exact insertValue_keeps hi hinsert
      · split at h <;> cases h
        exact hnil
    · cases h
      exact hnil
  · split at h
    · obtain ⟨next, _, h⟩ := Option.bind_eq_some_iff.mp h
      obtain ⟨copied, hcopy, h⟩ := Option.bind_eq_some_iff.mp h
      cases h
      exact copyText_keeps hcopy
    · split at h
      · obtain ⟨next, _, h⟩ := Option.bind_eq_some_iff.mp h
        split at h
        · obtain ⟨copied, hcopy, h⟩ := Option.bind_eq_some_iff.mp h
          cases h
          exact copyText_keeps hcopy
        · split at h <;> cases h
      · cases h
        exact hnil

theorem loop_keeps (hi : i.Keeps) {idx : Nat} {s : FmtScan} {trace : FmtTrace} (h : i.loop idx s = some trace) :
    ∀ w ∈ trace.writes, w.Keeps := by
  induction hn : i.fmt.length - idx using Nat.strong_induction_on generalizing idx s trace with
  | h n ih =>
    by_cases hlt : idx < i.fmt.length
    · rw [FmtInput.loop_turn hlt] at h
      obtain ⟨turn, hturn, h⟩ := Option.bind_eq_some_iff.mp h
      cases turn with
      | error =>
        cases h
        exact fun w hw => absurd hw List.not_mem_nil
      | next writes skip s' =>
        obtain ⟨lastChar, _, h⟩ := Option.bind_eq_some_iff.mp h
        obtain ⟨rest, hrest, rfl⟩ := Option.map_eq_some_iff.mp h
        intro w hw
        cases List.mem_append.mp hw with
        | inl hw => exact turn_keeps hi hturn w hw
        | inr hw => exact ih _ (by omega) hrest rfl w hw
    · rw [FmtInput.loop_end (Nat.not_lt.mp hlt)] at h
      obtain ⟨copied, hcopy, rfl⟩ := Option.map_eq_some_iff.mp h
      exact copyText_keeps hcopy

theorem mode_fmt (hi : i.Keeps) {arena : Arena} {result : FmtResult} (h : strFmtVargs arena i = some result) :
    match result with
    | .str _ arena' => arena'.mode = (arena.unsafeRecord, arena.alignment % 2 ^ 32)
    | .failed arena' => arena'.mode = (arena.unsafeRecord + 1, arena.alignment % 2 ^ 32) := by
  unfold strFmtVargs at h
  obtain ⟨trace, hloop, h⟩ := Option.bind_eq_some_iff.mp h
  obtain ⟨written, hrun, h⟩ := Option.bind_eq_some_iff.mp h
  have hmode : written.mode = (arena.unsafeRecord + 1, 1) :=
    Keeps.foldlM (fun w hw => (loop_keeps hi hloop w hw).run) _ _ hrun
  unfold Arena.mode at hmode
  rw [Prod.mk.injEq] at hmode
  split at h
  · cases h
    show (written.unsafeRecord, arena.alignment % 2 ^ 32) = _
    rw [hmode.1]
  · obtain ⟨⟨str, ended⟩, hend, h⟩ := Option.bind_eq_some_iff.mp h
    cases h
    have hended := congrArg Prod.fst (mode_recordEnd hend)
    show (ended.unsafeRecord, arena.alignment % 2 ^ 32) = _
    rw [show ended.unsafeRecord = written.unsafeRecord - 1 from hended, hmode.1, Int.add_sub_cancel]

end

/-! ## HTML builder sessions -/

theorem keeps_attr (attr : HtmlAttr) : Keeps (joinAttr · attr) := (keeps_strJoin _).ite keeps_some

theorem keeps_prop (id : List UInt8) (prop : HtmlProp) : Keeps (joinProp id · prop) :=
  ((keeps_strJoin _).ite (keeps_strJoin _)).ite keeps_some

theorem keeps_hidden (hidden : Bool) : Keeps (joinHidden · hidden) := (keeps_strJoin _).ite keeps_some

theorem keeps_title (title : List UInt8) : Keeps (joinTitle · title) := (keeps_strJoin _).ite keeps_some

theorem keeps_startTag (tag : List UInt8) (attrs : List HtmlAttr) (id : List UInt8) (props : Vector HtmlProp 5)
    (hidden : Bool) : Keeps (startTag · tag attrs id props hidden) := by
  have hend := (keeps_hidden hidden).bind (keeps_strJoin [s8 ">\n"])
  have hprops := (Keeps.foldlM (l := props.toList) fun prop _ => keeps_prop id prop).bind hend
  exact (keeps_strJoin [tag]).bind ((Keeps.foldlM fun attr _ => keeps_attr attr).bind hprops)

theorem join_keeps {builder builder' : HtmlBuilder} {depth : Int32} {f : Arena → Option Arena} (hf : Keeps f)
    (h : builder.join depth f = some builder') : builder'.arena.mode = builder.arena.mode := by
  obtain ⟨arena', hjoin, rfl⟩ := Option.map_eq_some_iff.mp h
  exact hf _ _ hjoin

theorem call_keeps {builder builder' : HtmlBuilder} {call : HtmlCall} (h : call.run builder = some builder') :
    builder'.arena.mode = builder.arena.mode := by
  cases call with
  | htmlStart p => exact join_keeps (keeps_startTag _ _ _ _ _) h
  | headStart p => exact join_keeps ((keeps_startTag _ _ _ _ _).bind (keeps_title p.title)) h
  | bodyStart p => exact join_keeps (keeps_startTag _ _ _ _ _) h
  | divStart p => exact join_keeps (keeps_startTag _ _ _ _ _) h
  | endTag element => cases element <;> exact join_keeps (keeps_strJoin _) h
  | text t => exact join_keeps (keeps_strJoin _) h

theorem calls_keep {builder builder' : HtmlBuilder} {calls : List HtmlCall}
    (h : calls.foldlM HtmlCall.run builder = some builder') : builder'.arena.mode = builder.arena.mode := by
  induction calls generalizing builder with
  | nil =>
    cases h
    rfl
  | cons call calls ih =>
    obtain ⟨next, hcall, hcalls⟩ := Option.bind_eq_some_iff.mp h
    rw [ih hcalls, call_keeps hcall]

theorem mode_html {arena arena' : Arena} {calls : List HtmlCall} {str : S8}
    (h : htmlSession arena calls = some (str, arena')) : arena'.mode = (arena.unsafeRecord + 1, arena.alignment) := by
  obtain ⟨builder, hcalls, hend⟩ := Option.bind_eq_some_iff.mp h
  obtain ⟨ended, hstop, hresult⟩ := Option.bind_eq_some_iff.mp hend
  have hended : ended = arena' := by
    split at hresult <;> cases hresult <;> rfl
  have hmode : builder.arena.mode = (arena.unsafeRecord + 1 + 1, arena.alignment) := calls_keep hcalls
  unfold Arena.mode at hmode
  rw [Prod.mk.injEq] at hmode
  rw [← hended, mode_stop hstop, hmode.1, hmode.2, Int.add_sub_cancel]

/-! ## Sequences -/

inductive StrSession
  | join (args : List StrValue)
  | fmt (i : FmtInput)
  | html (calls : List HtmlCall)

namespace StrSession

/-- The arena behind a session that succeeds. -/
def run (arena : Arena) : StrSession → Option Arena
  | join args => (strJoinVargs arena args).map Prod.snd
  | fmt i =>
    match strFmtVargs arena i with
    | some (.str _ arena) => some arena
    | _ => none
  | html calls => (htmlSession arena calls).map Prod.snd

def Keeps : StrSession → Prop
  | join args => ∀ arg ∈ args, arg.Keeps
  | fmt i => i.Keeps
  | html _ => True

def isHtml : StrSession → Bool
  | html _ => true
  | _ => false

def isFmt : StrSession → Bool
  | fmt _ => true
  | _ => false

end StrSession

theorem mode_session {arena arena' : Arena} {session : StrSession} (hk : session.Keeps)
    (h : session.run arena = some arena') :
    arena'.mode = (arena.unsafeRecord + if session.isHtml then 1 else 0,
      if session.isFmt then arena.alignment % 2 ^ 32 else arena.alignment) := by
  cases session with
  | join args =>
    obtain ⟨⟨str, _⟩, hjoin, rfl⟩ := Option.map_eq_some_iff.mp h
    rw [mode_join hk hjoin]
    show _ = (arena.unsafeRecord + 0, arena.alignment)
    rw [Int.add_zero]
    rfl
  | fmt i =>
    simp only [StrSession.run] at h
    split at h
    · rename_i hfmt
      cases h
      rw [mode_fmt hk hfmt]
      show _ = (arena.unsafeRecord + 0, arena.alignment % 2 ^ 32)
      rw [Int.add_zero]
    · cases h
  | html calls =>
    obtain ⟨⟨str, _⟩, hhtml, rfl⟩ := Option.map_eq_some_iff.mp h
    exact mode_html hhtml

theorem mode_sessions {arena arena' : Arena} {sessions : List StrSession} (hk : ∀ s ∈ sessions, s.Keeps)
    (h : sessions.foldlM StrSession.run arena = some arena') :
    arena'.mode = (arena.unsafeRecord + sessions.countP StrSession.isHtml,
      if sessions.any StrSession.isFmt then arena.alignment % 2 ^ 32 else arena.alignment) := by
  induction sessions generalizing arena with
  | nil =>
    cases h
    rw [List.countP_nil, Int.natCast_zero, Int.add_zero]
    rfl
  | cons session sessions ih =>
    obtain ⟨next, hsession, hrest⟩ := Option.bind_eq_some_iff.mp h
    have hnext := mode_session (hk session List.mem_cons_self) hsession
    unfold Arena.mode at hnext
    rw [Prod.mk.injEq] at hnext
    have hdepth : arena.unsafeRecord + (if session.isHtml then 1 else 0) + sessions.countP StrSession.isHtml =
        arena.unsafeRecord + (session :: sessions).countP StrSession.isHtml := by
      rw [List.countP_cons]
      cases session.isHtml <;> simp only [Bool.false_eq_true, if_true, if_false] <;> omega
    rw [ih (fun s hs => hk s (List.mem_cons_of_mem _ hs)) hrest, hnext.1, hnext.2, hdepth, List.any_cons]
    cases session.isFmt <;> cases sessions.any StrSession.isFmt <;> simp

theorem restored_iff {arena arena' : Arena} {sessions : List StrSession} (hk : ∀ s ∈ sessions, s.Keeps)
    (h : sessions.foldlM StrSession.run arena = some arena') :
    (arena'.unsafeRecord = arena.unsafeRecord ∧ arena'.alignment = arena.alignment) ↔
      (∀ s ∈ sessions, s.isHtml = false) ∧ ((∃ s ∈ sessions, s.isFmt = true) → arena.alignment < 2 ^ 32) := by
  have hmode := mode_sessions hk h
  unfold Arena.mode at hmode
  rw [Prod.mk.injEq] at hmode
  rw [hmode.1, hmode.2]
  apply and_congr
  · have hcount : sessions.countP StrSession.isHtml = 0 ↔ ∀ s ∈ sessions, s.isHtml = false := by
      rw [List.countP_eq_zero]
      exact forall_congr' fun s => forall_congr' fun _ => Bool.not_eq_true _ ▸ Iff.rfl
    rw [← hcount]
    omega
  · rw [← List.any_eq_true]
    by_cases hfmt : sessions.any StrSession.isFmt = true
    · rw [if_pos hfmt]
      refine ⟨fun heq _ => ?_, fun hlt => Nat.mod_eq_of_lt (hlt hfmt)⟩
      rw [← heq]
      exact Nat.mod_lt _ (Nat.two_pow_pos 32)
    · rw [if_neg hfmt]
      exact ⟨fun _ h => absurd h hfmt, fun _ => rfl⟩

/-- A join, and a format of one number. -/
def joinThenFmt : List StrSession :=
  [.join [.str (s8 "ab")],
    .fmt ⟨fmtTemplate (s8 "n=") [[]], fun _ => none, [⟨s8 "n", .i64 (-3)⟩].map FmtArg.toStrKeyValue, false⟩]

def smallArena : Arena := memMakeArenaPreAllocated (fun _ => 0) 1024

theorem restored_iff_join :
    ∃ arena', joinThenFmt.foldlM StrSession.run smallArena = some arena' ∧
      ((arena'.unsafeRecord = smallArena.unsafeRecord ∧ arena'.alignment = smallArena.alignment) ↔
        (∀ s ∈ joinThenFmt, s.isHtml = false) ∧
          ((∃ s ∈ joinThenFmt, s.isFmt = true) → smallArena.alignment < 2 ^ 32)) := by
  have hjoin : (StrSession.join [.str (s8 "ab")]).run smallArena =
      some { smallArena with pos := 144, memory := Memory.write (fun _ => 0) 0 (s8 "ab") } := rfl
  have hscan : Scans ⟨fmtTemplate (s8 "n=") [[]], fun _ => none, [⟨s8 "n", .i64 (-3)⟩].map FmtArg.toStrKeyValue, false⟩
      (s8 "n=") [[]] 0 [⟨s8 "n", .i64 (-3)⟩] := scans_template [[]] (s8 "n=") 0 _ rfl (Nat.le_refl _)
  have hroom : HasRoom { smallArena with pos := 144, memory := Memory.write (fun _ => 0) 0 (s8 "ab") }
      (fmtPeak (s8 "n=") [[]] [⟨s8 "n", .i64 (-3)⟩]) := ⟨Int.le_refl _, by decide, by decide, by decide⟩
  obtain ⟨str, arena', hfmt, -⟩ := fmt_of_scan hscan hroom
  have hrun : joinThenFmt.foldlM StrSession.run smallArena = some arena' := by
    rw [joinThenFmt, List.foldlM_cons, hjoin, Option.bind_eq_bind, Option.bind_some, List.foldlM_cons, StrSession.run,
      hfmt]
    rfl
  refine ⟨arena', hrun, restored_iff ?_ hrun⟩
  intro s hs
  rcases List.mem_cons.mp hs with rfl | hs
  · exact List.forall_mem_singleton.mpr trivial
  · obtain rfl := List.mem_singleton.mp hs
    exact List.forall_mem_singleton.mpr trivial

/-- An empty session of the builder leaves a record open. -/
theorem not_restored :
    (StrSession.html []).run (memMakeArenaPreAllocated (fun _ => 0) 1024) =
        some { memMakeArenaPreAllocated (fun _ => 0) 1024 with unsafeRecord := 1 } ∧
      (memMakeArenaPreAllocated (fun _ => 0) 1024).unsafeRecord = 0 := ⟨rfl, rfl⟩

end CWebServer
