import CWebServer.HtmlSound

/-!
# Start tags

The pieces that a start call joins for its fields and custom properties,
against the attributes that the fields ask for. They agree where the copied
lines, which write `dir` for `lang` and `id` for a key, write the right text.
-/

namespace CWebServer

inductive HtmlStart
  | html (p : HtmHtmlProperties)
  | head (p : HtmHeadProps)
  | body (p : HtmBodyProps)
  | div (p : HtmDivProps)
  deriving DecidableEq, Repr

/-! ## The attributes that are asked for -/

/-- The attribute of a named field. -/
def ownText (field : List UInt8 × List UInt8) : List UInt8 :=
  if field.2 ≠ [] then s8 " " ++ field.1 ++ s8 "=\"" ++ field.2 ++ s8 "\"" else []

def customText (prop : HtmlProp) : List UInt8 :=
  if prop.key = [] then []
  else if prop.value = [] then s8 " " ++ prop.key
  else s8 " " ++ prop.key ++ s8 "=\"" ++ prop.value ++ s8 "\""

def ownTag (element : List UInt8) (fields : List (List UInt8 × List UInt8)) (props : Vector HtmlProp 5)
    (hidden : Bool) : List (List UInt8) :=
  (s8 "<" ++ element) ::
    (fields.map ownText ++ props.toList.map customText ++ [if hidden then s8 " hidden" else [], s8 ">\n"])

namespace HtmlStart

def toCall : HtmlStart → HtmlCall
  | html p => .htmlStart p
  | head p => .headStart p
  | body p => .bodyStart p
  | div p => .divStart p

def props : HtmlStart → Vector HtmlProp 5
  | html p => p.props
  | head p => p.props
  | body p => p.props
  | div p => p.props

def lang : HtmlStart → List UInt8
  | html p => p.lang
  | head p => p.lang
  | body p => p.lang
  | div p => p.lang

def dir : HtmlStart → List UInt8
  | html p => p.dir
  | head p => p.dir
  | body p => p.dir
  | div p => p.dir

def id : HtmlStart → List UInt8
  | html p => p.id
  | head p => p.id
  | body p => p.id
  | div p => p.id

/-- The start tag, piece by piece: its name, one piece for each field and custom property, and its end. -/
def own : HtmlStart → List (List UInt8)
  | html p =>
    ownTag (s8 "html") [(s8 "class", p.class_), (s8 "id", p.id), (s8 "lang", p.lang), (s8 "dir", p.dir)] p.props false
  | head p =>
    ownTag (s8 "head") [(s8 "class", p.class_), (s8 "id", p.id), (s8 "lang", p.lang), (s8 "dir", p.dir)] p.props false
  | body p =>
    ownTag (s8 "body")
      [(s8 "class", p.class_), (s8 "id", p.id), (s8 "style", p.style), (s8 "lang", p.lang), (s8 "dir", p.dir)]
      p.props false
  | div p =>
    ownTag (s8 "div")
      [(s8 "class", p.class_), (s8 "id", p.id), (s8 "title", p.title), (s8 "style", p.style), (s8 "lang", p.lang),
        (s8 "dir", p.dir), (s8 "onclick", p.onclick), (s8 "onmouseover", p.onmouseover),
        (s8 "onmouseout", p.onmouseout)]
      p.props p.hidden

/-- What stands behind the start tag. -/
def behind : HtmlStart → List UInt8
  | head p => titleText p.title
  | _ => []

end HtmlStart

/-! ## The pieces that are joined -/

def joinedTag (tag : List UInt8) (attrs : List HtmlAttr) (id : List UInt8) (props : Vector HtmlProp 5)
    (hidden : Bool) : List (List UInt8) :=
  tag :: (attrs.map attrText ++ props.toList.map (propText id) ++ [hiddenText hidden, s8 ">\n"])

theorem startTagText_eq (tag : List UInt8) (attrs : List HtmlAttr) (id : List UInt8) (props : Vector HtmlProp 5)
    (hidden : Bool) : startTagText tag attrs id props hidden = (joinedTag tag attrs id props hidden).flatten := by
  simp [startTagText, joinedTag, List.flatMap_def]

def HtmlStart.joined : HtmlStart → List (List UInt8)
  | html p => joinedTag (s8 "<html") (htmlAttrs p) p.id p.props false
  | head p => joinedTag (s8 "<head") (headAttrs p) p.id p.props false
  | body p => joinedTag (s8 "<body") (bodyAttrs p) p.id p.props false
  | div p => joinedTag (s8 "<div") (divAttrs p) p.id p.props p.hidden

theorem emitted_eq (start : HtmlStart) : start.toCall.emitted = start.joined.flatten ++ start.behind := by
  cases start <;> simp [HtmlStart.toCall, HtmlCall.emitted, HtmlStart.joined, HtmlStart.behind, startTagText_eq]

/-- The call joins the start tag of its own fields, piece by piece, and the tag is what it appends. -/
structure EmitsOwn (start : HtmlStart) : Prop where
  pieces : start.joined = start.own
  run : ∀ builder, Recording builder.arena (start.own.flatten ++ start.behind).length →
    ∃ c, start.toCall.run builder = some
      { builder with arena := builder.arena.append (start.own.flatten ++ start.behind) c, depth := builder.depth + 1 }

/-- An attribute that is written with the field that is tested. -/
def fieldAttr (field : List UInt8 × List UInt8) : HtmlAttr := ⟨field.2, s8 " " ++ field.1 ++ s8 "=\"", field.2⟩

theorem attrText_field (field : List UInt8 × List UInt8) : attrText (fieldAttr field) = ownText field := by
  simp [attrText, ownText, fieldAttr]

theorem attrText_lang (lang dir : List UInt8) :
    attrText ⟨lang, s8 " lang=\"", dir⟩ = ownText (s8 "lang", lang) ↔ lang = [] ∨ lang = dir := by
  have hname : s8 " lang=\"" = s8 " " ++ s8 "lang" ++ s8 "=\"" := rfl
  unfold attrText ownText
  by_cases hlang : lang = []
  · simp [hlang]
  · simp [hlang, hname, eq_comm]

theorem propText_iff (id : List UInt8) (prop : HtmlProp) :
    propText id prop = customText prop ↔ (prop.key ≠ [] → prop.value ≠ [] ∧ id = s8 " " ++ prop.key) := by
  unfold propText customText
  by_cases hkey : prop.key = []
  · simp [hkey]
  · by_cases hvalue : prop.value = []
    · -- the key without the space is shorter
      simp [hkey, hvalue, s8]
    · have hid : [id, s8 "=\"", prop.value, s8 "\""].flatten = id ++ (s8 "=\"" ++ prop.value ++ s8 "\"") := by simp
      have hown : s8 " " ++ prop.key ++ s8 "=\"" ++ prop.value ++ s8 "\"" =
          s8 " " ++ prop.key ++ (s8 "=\"" ++ prop.value ++ s8 "\"") := by simp
      rw [if_pos hkey, if_neg hvalue, if_neg hkey, if_neg hvalue, hid, hown, List.append_left_inj]
      simp [hkey, hvalue]

theorem joinedTag_iff (element : List UInt8) (front later : List (List UInt8 × List UInt8)) (lang dir id : List UInt8)
    (props : Vector HtmlProp 5) (hidden : Bool) :
    joinedTag (s8 "<" ++ element) (front.map fieldAttr ++ ⟨lang, s8 " lang=\"", dir⟩ :: later.map fieldAttr) id props
        hidden = ownTag element (front ++ (s8 "lang", lang) :: later) props hidden ↔
      (lang = [] ∨ lang = dir) ∧
        ∀ prop ∈ props.toList, prop.key ≠ [] → prop.value ≠ [] ∧ id = s8 " " ++ prop.key := by
  have hfields : ∀ fields : List (List UInt8 × List UInt8),
      (fields.map fieldAttr).map attrText = fields.map ownText := by
    intro fields
    simp [attrText_field]
  have hhidden : hiddenText hidden = if hidden then s8 " hidden" else [] := by simp [hiddenText]
  unfold joinedTag ownTag
  rw [List.map_append, List.map_cons, hfields, hfields, List.map_append, List.map_cons, hhidden, List.cons_inj_right,
    List.append_left_inj]
  constructor
  · intro h
    obtain ⟨hattrs, hprops⟩ := List.append_inj h (by simp)
    have hlang := (List.cons.inj (List.append_cancel_left hattrs)).1
    refine ⟨(attrText_lang lang dir).mp hlang, fun prop hprop => ?_⟩
    exact (propText_iff id prop).mp (List.map_inj_left.mp hprops prop hprop)
  · rintro ⟨hlang, hprops⟩
    rw [(attrText_lang lang dir).mpr hlang,
      List.map_congr_left fun prop hprop => (propText_iff id prop).mpr (hprops prop hprop)]

theorem joined_iff (start : HtmlStart) : start.joined = start.own ↔
    (start.lang = [] ∨ start.lang = start.dir) ∧
      ∀ prop ∈ start.props.toList, prop.key ≠ [] → prop.value ≠ [] ∧ start.id = s8 " " ++ prop.key := by
  cases start with
  | html p => exact joinedTag_iff (s8 "html") [(s8 "class", p.class_), (s8 "id", p.id)] [(s8 "dir", p.dir)] _ _ _ _ _
  | head p => exact joinedTag_iff (s8 "head") [(s8 "class", p.class_), (s8 "id", p.id)] [(s8 "dir", p.dir)] _ _ _ _ _
  | body p =>
    exact joinedTag_iff (s8 "body") [(s8 "class", p.class_), (s8 "id", p.id), (s8 "style", p.style)]
      [(s8 "dir", p.dir)] _ _ _ _ _
  | div p =>
    exact joinedTag_iff (s8 "div")
      [(s8 "class", p.class_), (s8 "id", p.id), (s8 "title", p.title), (s8 "style", p.style)]
      [(s8 "dir", p.dir), (s8 "onclick", p.onclick), (s8 "onmouseover", p.onmouseover),
        (s8 "onmouseout", p.onmouseout)] _ _ _ _ _

theorem emitsOwn_iff (start : HtmlStart) : EmitsOwn start ↔
    (start.lang = [] ∨ start.lang = start.dir) ∧
      ∀ prop ∈ start.props.toList, prop.key ≠ [] → prop.value ≠ [] ∧ start.id = s8 " " ++ prop.key := by
  rw [← joined_iff]
  constructor
  · exact fun h => h.pieces
  · intro hpieces
    refine ⟨hpieces, fun builder h => ?_⟩
    rw [← hpieces, ← emitted_eq] at h ⊢
    have hdepth : start.toCall.depth = 1 := by cases start <;> rfl
    rw [← hdepth]
    exact run_spec builder start.toCall h

theorem not_emitsOwn_lang : ¬ EmitsOwn (.html { lang := s8 "en" }) := by
  intro h
  have := h.pieces
  revert this
  decide

end CWebServer
