import CWebServer.Html

/-!
# What the HTML builder returns

The calls between `html_builderStart` and `html_builderEnd` write their texts
one behind the other. The returned string starts where they start and is one
byte longer, in every session.
-/

namespace CWebServer

/-! ## The texts of the calls -/

def attrText (attr : HtmlAttr) : List UInt8 :=
  if attr.field ≠ [] then [attr.name, attr.value, s8 "\""].flatten else []

def propText (id : List UInt8) (prop : HtmlProp) : List UInt8 :=
  if prop.key ≠ [] then
    if prop.value = [] then [prop.key].flatten else [id, s8 "=\"", prop.value, s8 "\""].flatten
  else []

def hiddenText (hidden : Bool) : List UInt8 := if hidden then [s8 " hidden"].flatten else []

def startTagText (tag : List UInt8) (attrs : List HtmlAttr) (id : List UInt8) (props : Vector HtmlProp 5)
    (hidden : Bool) : List UInt8 :=
  [tag].flatten ++ (attrs.flatMap attrText ++ (props.toList.flatMap (propText id) ++
    (hiddenText hidden ++ [s8 ">\n"].flatten)))

def titleText (title : List UInt8) : List UInt8 :=
  if title ≠ [] then [s8 "<title>", title, s8 "</title>\n"].flatten else []

theorem emits_attr (attr : HtmlAttr) : Emits (joinAttr · attr) (attrText attr) :=
  .ite (fun _ => emits_strJoin _) fun _ => emits_nil

theorem emits_prop (id : List UInt8) (prop : HtmlProp) : Emits (joinProp id · prop) (propText id prop) :=
  .ite (fun _ => .ite (fun _ => emits_strJoin _) fun _ => emits_strJoin _) fun _ => emits_nil

theorem emits_hidden (hidden : Bool) : Emits (joinHidden · hidden) (hiddenText hidden) :=
  .ite (fun _ => emits_strJoin _) fun _ => emits_nil

theorem emits_title (title : List UInt8) : Emits (joinTitle · title) (titleText title) :=
  .ite (fun _ => emits_strJoin _) fun _ => emits_nil

theorem emits_startTag (tag : List UInt8) (attrs : List HtmlAttr) (id : List UInt8) (props : Vector HtmlProp 5)
    (hidden : Bool) : Emits (startTag · tag attrs id props hidden) (startTagText tag attrs id props hidden) := by
  have hend := (emits_hidden hidden).bind (emits_strJoin [s8 ">\n"])
  have hprops := (Emits.foldlM (emits_prop id) props.toList).bind hend
  exact (emits_strJoin [tag]).bind ((Emits.foldlM emits_attr attrs).bind hprops)

def HtmlCall.emitted : HtmlCall → List UInt8
  | .htmlStart p => startTagText (s8 "<html") (htmlAttrs p) p.id p.props false
  | .headStart p => startTagText (s8 "<head") (headAttrs p) p.id p.props false ++ titleText p.title
  | .bodyStart p => startTagText (s8 "<body") (bodyAttrs p) p.id p.props false
  | .divStart p => startTagText (s8 "<div") (divAttrs p) p.id p.props p.hidden
  | .endTag .html => s8 "</html>"
  | .endTag .head => s8 "</head>"
  | .endTag .body => s8 "</body>"
  | .endTag .div => s8 "</div>\n"
  | .text t => t

def HtmlCall.depth : HtmlCall → Int32
  | .endTag _ => -1
  | .text _ => 0
  | _ => 1

theorem emits_text (t : List UInt8) : Emits (strJoin · [t]) t := by
  have h := emits_strJoin [t]
  rwa [List.flatten_singleton] at h

theorem join_spec (builder : HtmlBuilder) (depth : Int32) {f : Arena → Option Arena} {t : List UInt8} (hf : Emits f t)
    (h : Recording builder.arena t.length) :
    ∃ c, builder.join depth f =
      some { builder with arena := builder.arena.append t c, depth := builder.depth + depth } := by
  obtain ⟨c, hc⟩ := hf _ h
  exact ⟨c, by rw [HtmlBuilder.join, hc]; rfl⟩

theorem run_spec (builder : HtmlBuilder) (call : HtmlCall) (h : Recording builder.arena call.emitted.length) :
    ∃ c, call.run builder =
      some { builder with arena := builder.arena.append call.emitted c, depth := builder.depth + call.depth } := by
  cases call with
  | htmlStart p => exact join_spec builder 1 (emits_startTag _ _ _ _ _) h
  | headStart p => exact join_spec builder 1 ((emits_startTag _ _ _ _ _).bind (emits_title p.title)) h
  | bodyStart p => exact join_spec builder 1 (emits_startTag _ _ _ _ _) h
  | divStart p => exact join_spec builder 1 (emits_startTag _ _ _ _ _) h
  | endTag element => cases element <;> exact join_spec builder (-1) (emits_text _) h
  | text t => exact join_spec builder 0 (emits_text t) h

def emittedText (calls : List HtmlCall) : List UInt8 := calls.flatMap HtmlCall.emitted

def depthOf : List HtmlCall → Int32
  | [] => 0
  | call :: calls => call.depth + depthOf calls

theorem runs_spec (builder : HtmlBuilder) (calls : List HtmlCall)
    (h : Recording builder.arena (emittedText calls).length) :
    ∃ c, calls.foldlM HtmlCall.run builder = some
      { builder with
        arena := builder.arena.append (emittedText calls) c
        depth := builder.depth + depthOf calls } := by
  induction calls generalizing builder with
  | nil =>
    refine ⟨builder.arena.commitPos, ?_⟩
    show some builder = _
    rw [emittedText, List.flatMap_nil, append_nil, depthOf, Int32.add_zero]
  | cons call calls ih =>
    have htext : emittedText (call :: calls) = call.emitted ++ emittedText calls := List.flatMap_cons
    rw [htext, List.length_append] at h
    obtain ⟨c, hc⟩ := run_spec builder call (h.mono (Nat.le_add_right _ _))
    obtain ⟨c', hc'⟩ := ih { builder with
      arena := builder.arena.append call.emitted c, depth := builder.depth + call.depth } (h.append c)
    refine ⟨c', ?_⟩
    rw [List.foldlM_cons, hc, Option.bind_eq_bind, Option.bind_some, hc', htext, append_append h.pos]
    simp only [depthOf, Int32.add_assoc]

theorem depth_of_start {call : HtmlCall} {calls : List HtmlCall} {element : HtmlElement} {opened : List HtmlElement}
    (hcall : call.depth = 1) (h : depthOf calls = -.ofNat (element :: opened).length) :
    depthOf (call :: calls) = -.ofNat opened.length := by
  rw [List.length_cons, Int32.ofNat_add] at h
  rw [depthOf, hcall, h]
  grind

/-! ## Sessions -/

structure EnoughSpace (arena : Arena) (n : Nat) : Prop where
  record : arena.unsafeRecord = 0
  pos : sizeOfArena ≤ arena.pos
  room : arena.pos + n ≤ arena.cap
  cap : arena.cap < 2 ^ 64

/-- The calls close, innermost first, the elements of `opened` and those they open. -/
def Nested : List HtmlElement → List HtmlCall → Prop
  | opened, [] => opened = []
  | opened, .htmlStart _ :: calls => Nested (.html :: opened) calls
  | opened, .headStart _ :: calls => Nested (.head :: opened) calls
  | opened, .bodyStart _ :: calls => Nested (.body :: opened) calls
  | opened, .divStart _ :: calls => Nested (.div :: opened) calls
  | [], .endTag _ :: _ => False
  | element' :: opened, .endTag element :: calls => element = element' ∧ Nested opened calls
  | opened, .text _ :: calls => Nested opened calls

def Balanced (calls : List HtmlCall) : Prop := Nested [] calls

def ReturnsEmitted (arena : Arena) (calls : List HtmlCall) : Prop :=
  ∃ result arena', htmlSession arena calls = some (result, arena') ∧ result.inArena arena' = emittedText calls

theorem depth_of_nested : ∀ (calls : List HtmlCall) (opened : List HtmlElement), Nested opened calls →
    depthOf calls = -.ofNat opened.length
  | [], opened, h => by
    rw [show opened = [] from h]; rfl
  | .htmlStart _ :: calls, opened, h => depth_of_start rfl (depth_of_nested calls (.html :: opened) h)
  | .headStart _ :: calls, opened, h => depth_of_start rfl (depth_of_nested calls (.head :: opened) h)
  | .bodyStart _ :: calls, opened, h => depth_of_start rfl (depth_of_nested calls (.body :: opened) h)
  | .divStart _ :: calls, opened, h => depth_of_start rfl (depth_of_nested calls (.div :: opened) h)
  | .endTag _ :: _, [], h => h.elim
  | .endTag _ :: calls, _ :: opened, h => by
    rw [depthOf, depth_of_nested calls opened h.2, HtmlCall.depth, List.length_cons, Int32.ofNat_add]
    grind
  | .text _ :: calls, opened, h => by
    rw [depthOf, depth_of_nested calls opened h, HtmlCall.depth, Int32.zero_add]

/-- One of the two records stays open. -/
theorem stop_first {arena : Arena} (h : arena.unsafeRecord = 0) (t : List UInt8) (c : Nat) :
    memArenaStopUnsafeRecord ((htmlBuilderStart arena).arena.append t c) =
      some (memArenaStartUnsafeRecord (arena.append t c)) := by
  unfold memArenaStopUnsafeRecord htmlBuilderStart memArenaStartUnsafeRecord Arena.append
  simp only [h]
  rfl

/-- `startIdx` is not shifted at the start, but the size is computed as if it were. -/
theorem builder_size {start n : Nat} (h : start + n + 1 < 2 ^ 64) :
    wrap64 ((start + n : Nat) - ((start : Nat) - 1)) = n + 1 := by
  have hint : ((start + n : Nat) : Int) - ((start : Nat) - 1) = (n + 1 : Nat) := by omega
  rw [hint]
  exact wrap64_of_lt (by omega)

theorem session_result {arena : Arena} {calls : List HtmlCall} (h : EnoughSpace arena (emittedText calls).length)
    (hd : depthOf calls = 0) :
    ∃ c, htmlSession arena calls =
      some (.slice (arena.pos - sizeOfArena) ((emittedText calls).length + 1),
        memArenaStartUnsafeRecord (arena.append (emittedText calls) c)) := by
  have hpos := h.pos
  have hroom := h.room
  have hcap := h.cap
  have hsizeOf : 1 ≤ sizeOfArena := by decide
  have hrec : Recording (htmlBuilderStart arena).arena (emittedText calls).length :=
    ⟨by show 0 < arena.unsafeRecord + 1 + 1; rw [h.record]; decide, hpos, hroom, hcap⟩
  obtain ⟨c, hc⟩ := runs_spec _ calls hrec
  refine ⟨c, ?_⟩
  have hstart : (htmlBuilderStart arena).startIdx = arena.pos - sizeOfArena := memOffsetPos_eq hpos (by omega)
  have hend : memGetArenaMemOffsetPos (memArenaStartUnsafeRecord (arena.append (emittedText calls) c)) =
      arena.pos + (emittedText calls).length - sizeOfArena :=
    memOffsetPos_eq (Nat.le_trans hpos (Nat.le_add_right _ _)) (by show arena.pos + _ < _; omega)
  have hdepth : ¬ (htmlBuilderStart arena).depth + 0 ≠ 0 := fun hne => hne rfl
  unfold htmlSession
  rw [hc, Option.bind_eq_bind, Option.bind_some, htmlBuilderEnd]
  simp only [stop_first h.record, Option.bind_eq_bind, Option.bind_some, hd, hend, hstart]
  rw [if_neg hdepth, Nat.sub_add_comm hpos, builder_size (by omega)]

/-- The returned string is what was emitted and the byte behind it. -/
theorem session_bytes {arena : Arena} {calls : List HtmlCall} (h : EnoughSpace arena (emittedText calls).length)
    (hd : depthOf calls = 0) :
    ∃ result arena', htmlSession arena calls = some (result, arena') ∧ result.inArena arena' =
      emittedText calls ++ [arena'.memory (arena.pos - sizeOfArena + (emittedText calls).length)] := by
  obtain ⟨c, hc⟩ := session_result h hd
  refine ⟨_, _, hc, ?_⟩
  rw [S8.inArena, Memory.read_succ, memory_startUnsafeRecord, memory_append, Memory.read_write]

/-- No session returns what its calls emit. -/
theorem not_returnsEmitted (arena : Arena) (calls : List HtmlCall) (h : EnoughSpace arena (emittedText calls).length)
    (hb : Balanced calls) : ¬ ReturnsEmitted arena calls := by
  have hd : depthOf calls = 0 := depth_of_nested calls [] hb
  obtain ⟨result, arena', hs, hbytes⟩ := session_bytes h hd
  intro hr
  obtain ⟨result', arena'', hs', hbytes'⟩ := hr
  rw [hs] at hs'
  obtain ⟨rfl, rfl⟩ := Prod.mk.inj (Option.some.inj hs')
  have hlen := congrArg List.length (hbytes.symm.trans hbytes')
  rw [List.length_append, List.length_singleton] at hlen
  omega

/-- The arena of the response: two KiB on the stack. -/
def responseArena : Arena := memMakeArenaPreAllocated (fun _ => 0) (sizeOfArena + 2048)

theorem not_returnsEmitted_text : ¬ ReturnsEmitted responseArena [.text (s8 "a")] :=
  not_returnsEmitted responseArena [.text (s8 "a")] ⟨rfl, by decide, by decide, by decide⟩ rfl

/-- The page of `route_index` has 94 bytes and is returned with 95. -/
theorem routeIndex_not_returned : ¬ ReturnsEmitted responseArena routeIndex := by
  intro h
  obtain ⟨result, arena', hs, hbytes⟩ := h
  have hresult : (htmlSession responseArena routeIndex).map Prod.fst = some (.slice 0 95) := by decide
  rw [hs] at hresult
  obtain rfl : result = .slice 0 95 := Option.some.inj hresult
  have hlen := congrArg List.length hbytes
  rw [S8.inArena, Memory.length_read] at hlen
  exact absurd hlen (by decide)

/-! ## Nesting

The builder counts the open elements and does not know their kinds.
-/

def HtmlCall.isStart : HtmlCall → Bool
  | .endTag _ => false
  | .text _ => false
  | _ => true

def HtmlCall.isEnd : HtmlCall → Bool
  | .endTag _ => true
  | _ => false

/-- A session that returns anything but `STR_EMPTY` is well nested. -/
def AcceptsNested (arena : Arena) (calls : List HtmlCall) : Prop :=
  ∀ result arena', htmlSession arena calls = some (result, arena') → result ≠ .lit [] → Balanced calls

theorem join_depth {builder builder' : HtmlBuilder} (depth : Int32) {f : Arena → Option Arena}
    (h : builder.join depth f = some builder') : builder'.depth = builder.depth + depth := by
  obtain ⟨arena, -, he⟩ := Option.map_eq_some_iff.mp h
  rw [← he]

theorem run_depth {builder builder' : HtmlBuilder} {call : HtmlCall} (h : call.run builder = some builder') :
    builder'.depth = builder.depth + call.depth := by
  cases call with
  | endTag element =>
    cases element <;>
      · simp only [HtmlCall.run] at h
        exact join_depth (-1) h
  | text t =>
    simp only [HtmlCall.run] at h
    exact join_depth 0 h
  | _ =>
    simp only [HtmlCall.run] at h
    exact join_depth 1 h

theorem runs_depth {builder builder' : HtmlBuilder} {calls : List HtmlCall}
    (h : calls.foldlM HtmlCall.run builder = some builder') : builder'.depth = builder.depth + depthOf calls := by
  induction calls generalizing builder with
  | nil =>
    cases h
    simp [depthOf]
  | cons call calls ih =>
    rw [List.foldlM_cons] at h
    obtain ⟨next, hcall, hcalls⟩ := Option.bind_eq_some_iff.mp h
    rw [ih hcalls, run_depth hcall, depthOf, Int32.add_assoc]

theorem depthOf_eq (calls : List HtmlCall) :
    depthOf calls = .ofNat (calls.countP HtmlCall.isStart) - .ofNat (calls.countP HtmlCall.isEnd) := by
  induction calls with
  | nil => rfl
  | cons call calls ih =>
    rw [depthOf, ih, List.countP_cons, List.countP_cons, Int32.ofNat_add, Int32.ofNat_add]
    cases call with
    | endTag element =>
      simp only [HtmlCall.depth, HtmlCall.isStart, HtmlCall.isEnd, if_true, Bool.false_eq_true, if_false]
      grind
    | text t =>
      simp only [HtmlCall.depth, HtmlCall.isStart, HtmlCall.isEnd, Bool.false_eq_true, if_false]
      grind
    | _ =>
      simp only [HtmlCall.depth, HtmlCall.isStart, HtmlCall.isEnd, if_true, Bool.false_eq_true, if_false]
      grind

theorem builderEnd_empty_iff {builder : HtmlBuilder} {result : S8} {arena' : Arena}
    (h : htmlBuilderEnd builder = some (result, arena')) : result ≠ .lit [] ↔ builder.depth = 0 := by
  unfold htmlBuilderEnd at h
  obtain ⟨arena, -, hresult⟩ := Option.bind_eq_some_iff.mp h
  by_cases hd : builder.depth = 0
  · simp only [hd, ne_eq, not_true_eq_false, if_false] at hresult
    cases hresult
    simp [hd]
  · simp only [hd, ne_eq, not_false_eq_true, if_true] at hresult
    cases hresult
    simp [hd]

theorem sub_eq_zero_iff {n m : Nat} (hn : n < 2 ^ 31) (hm : m < 2 ^ 31) :
    Int32.ofNat n - Int32.ofNat m = 0 ↔ n = m := by
  constructor
  · intro h
    have heq : Int32.ofNat n = Int32.ofNat m := by grind
    have hint := congrArg Int32.toInt heq
    rw [Int32.toInt_ofNat_of_lt hn, Int32.toInt_ofNat_of_lt hm] at hint
    omega
  · rintro rfl
    exact Int32.sub_self _

/-- Only the numbers of the start calls and of the end calls are compared, as long as an `i32` can count them. -/
theorem session_accepts_iff {arena arena' : Arena} {calls : List HtmlCall} {result : S8}
    (hstarts : calls.countP HtmlCall.isStart < 2 ^ 31) (hends : calls.countP HtmlCall.isEnd < 2 ^ 31)
    (h : htmlSession arena calls = some (result, arena')) :
    result ≠ .lit [] ↔ calls.countP HtmlCall.isStart = calls.countP HtmlCall.isEnd := by
  unfold htmlSession at h
  obtain ⟨builder, hcalls, hend⟩ := Option.bind_eq_some_iff.mp h
  have hdepth : builder.depth = 0 + depthOf calls := runs_depth hcalls
  rw [builderEnd_empty_iff hend, hdepth, Int32.zero_add, depthOf_eq]
  exact sub_eq_zero_iff hstarts hends

/-- `html_start` is closed by `html_divEnd`. -/
def crossedCalls : List HtmlCall := [.htmlStart {}, .endTag .div]

theorem not_acceptsNested : ¬ AcceptsNested responseArena crossedCalls := by
  intro h
  have hresult : (htmlSession responseArena crossedCalls).map Prod.fst = some (.slice 0 15) := by decide
  cases hs : htmlSession responseArena crossedCalls with
  | none =>
    rw [hs] at hresult
    cases hresult
  | some returned =>
    rw [hs] at hresult
    have hne : returned.1 ≠ .lit [] := by
      rw [Option.some.inj hresult]
      exact S8.noConfusion
    cases (h returned.1 returned.2 hs hne).1

/-- Two sessions of the same counts, one of them nested. -/
theorem session_accepts_crossed :
    ∃ result arena', htmlSession responseArena crossedCalls = some (result, arena') ∧
      (result ≠ .lit [] ↔ crossedCalls.countP HtmlCall.isStart = crossedCalls.countP HtmlCall.isEnd) := by
  have hsome : (htmlSession responseArena crossedCalls).isSome = true := by decide
  obtain ⟨⟨result, arena'⟩, hs⟩ := Option.isSome_iff_exists.mp hsome
  exact ⟨result, arena', hs, session_accepts_iff (by decide) (by decide) hs⟩

end CWebServer
