import CWebServer.Lib.Markup
import CWebServer.StartTags

/-!
# Pages as trees

The calls of a balanced session are the calls of one tree of elements and
texts. The builder escapes nothing, and it writes `dir` for `lang`: what it
emits reads back as this tree if and only if no text holds a `<`, no value a
quote, and each `lang` is empty or the `dir` beside it (`page_reads_back`).
-/

namespace CWebServer

open Markup (Tag Attr IsName IsAttr)
open Nesting (Forest Event)

def HtmlStart.element : HtmlStart → HtmlElement
  | html _ => .html
  | head _ => .head
  | body _ => .body
  | div _ => .div

/-! ## Calls and trees -/

def HtmlCall.event : HtmlCall → Event HtmlStart HtmlElement (List UInt8)
  | .htmlStart p => .start (.html p)
  | .headStart p => .start (.head p)
  | .bodyStart p => .start (.body p)
  | .divStart p => .start (.div p)
  | .endTag element => .stop element
  | .text t => .leaf t

/-- An attribute that is written if `field` is not empty. -/
def written (field name value : List UInt8) : List Attr := if field ≠ [] then [(name, some value)] else []

def classWritten (p : HtmHtmlProperties) : List Attr :=
  written p.class_ (s8 "class") p.class_ ++ written p.id (s8 "id") p.id

def langAttributes (p : HtmHtmlProperties) : List Attr :=
  written p.lang (s8 "lang") p.lang ++ written p.dir (s8 "dir") p.dir

/-- What the source makes of them: where `lang` is tested, `dir` is written. -/
def langWritten (p : HtmHtmlProperties) : List Attr :=
  written p.lang (s8 "lang") p.dir ++ written p.dir (s8 "dir") p.dir

namespace HtmlStart

def name : HtmlStart → List UInt8
  | html _ => s8 "html"
  | head _ => s8 "head"
  | body _ => s8 "body"
  | div _ => s8 "div"

def common : HtmlStart → HtmHtmlProperties
  | html p => p
  | head p => p.1
  | body p => p.1
  | div p => p.1.1

/-- The attributes in front of `lang`. -/
def front : HtmlStart → List Attr
  | html p => classWritten p
  | head p => classWritten p.1
  | body p => classWritten p.1 ++ written p.style (s8 "style") p.style
  | div p => classWritten p.1.1 ++ (written p.title (s8 "title") p.title ++ written p.style (s8 "style") p.style)

/-- The attributes behind `dir`. -/
def later : HtmlStart → List Attr
  | div p =>
    written p.onclick (s8 "onclick") p.onclick ++ (written p.onmouseover (s8 "onmouseover") p.onmouseover ++
      written p.onmouseout (s8 "onmouseout") p.onmouseout) ++ if p.hidden then [(s8 "hidden", none)] else []
  | _ => []

def tagWith (lang : HtmHtmlProperties → List Attr) (start : HtmlStart) : Tag :=
  ⟨start.name, start.front ++ lang start.common ++ start.later⟩

end HtmlStart

def HtmlStart.title : HtmlStart → List UInt8
  | head p => p.title
  | _ => []

/-- The attributes that are joined have the text of attributes of a document. -/
def Spells (attrs : List HtmlAttr) (attrs' : List Attr) : Prop :=
  attrs.flatMap attrText = attrs'.flatMap Markup.attrText

theorem Spells.append {attrs₁ attrs₂ : List HtmlAttr} {attrs₁' attrs₂' : List Attr} (h₁ : Spells attrs₁ attrs₁')
    (h₂ : Spells attrs₂ attrs₂') : Spells (attrs₁ ++ attrs₂) (attrs₁' ++ attrs₂') := by
  unfold Spells at *
  rw [List.flatMap_append, List.flatMap_append, h₁, h₂]

/-- No value of the start tag holds a quote, and no title a `<`. -/
structure HtmlStart.PlainWith (lang : HtmHtmlProperties → List Attr) (start : HtmlStart) : Prop where
  values : ∀ attr ∈ (start.tagWith lang).attrs, ∀ value ∈ attr.2, Markup.quote ∉ value
  title : Markup.lt ∉ start.title

def HtmlCall.PlainWith (lang : HtmHtmlProperties → List Attr) (call : HtmlCall) : Prop :=
  match call.event with
  | .start start => start.PlainWith lang
  | .stop _ => True
  | .leaf t => Markup.lt ∉ t

def HtmlCall.Plain (call : HtmlCall) : Prop := call.PlainWith langAttributes

def Named (attrs : List Attr) : Prop := ∀ attr ∈ attrs, IsName attr.1

theorem Named.append {attrs attrs' : List Attr} (h : Named attrs) (h' : Named attrs') : Named (attrs ++ attrs') :=
  List.forall_mem_append.mpr ⟨h, h'⟩

section
variable {lang : HtmHtmlProperties → List Attr} (hlang : ∀ p, Named (lang p))

end

/-! ## What is written for `lang` -/

/-- What is written for `lang` has the values of other attributes. -/
theorem HtmlStart.PlainWith.written {start : HtmlStart} (h : start.PlainWith langAttributes) :
    start.PlainWith langWritten := by
  refine ⟨fun attr hattr value hvalue => ?_, h.title⟩
  have hfield : ∀ {field name value' : List UInt8}, attr ∈ CWebServer.written field name value' → value = value' := by
    intro field name value' hmem
    unfold CWebServer.written at hmem
    split at hmem
    · rw [List.mem_singleton.mp hmem] at hvalue
      exact (Option.some.inj hvalue).symm
    · cases hmem
  have hdir : ∀ value', value' = start.common.dir → Markup.quote ∉ value' := by
    rintro value' rfl
    by_cases hempty : start.common.dir = []
    · simp [hempty]
    · refine h.values (s8 "dir", some start.common.dir) ?_ _ rfl
      simp [HtmlStart.tagWith, langAttributes, CWebServer.written, hempty]
  rcases List.mem_append.mp hattr with hattr | hattr
  · rcases List.mem_append.mp hattr with hattr | hattr
    · exact h.values attr (List.mem_append_left _ (List.mem_append_left _ hattr)) value hvalue
    · rcases List.mem_append.mp hattr with hattr | hattr <;> exact hdir value (hfield hattr)
  · exact h.values attr (List.mem_append_right _ hattr) value hvalue

theorem HtmlCall.Plain.written {call : HtmlCall} (h : call.Plain) : call.PlainWith langWritten := by
  revert h
  unfold HtmlCall.Plain HtmlCall.PlainWith
  cases call.event with
  | start start => exact HtmlStart.PlainWith.written
  | stop element => exact id
  | leaf t => exact id

end CWebServer
