import CWebServer.Join

/-!
# The HTML builder

Each call joins its texts behind the last one, in a record that
`htmlBuilderStart` opens twice and `htmlBuilderEnd` closes once.
-/

namespace CWebServer

/-- `arena` is the arena that `builder->arena` points to, with all its bytes. -/
structure HtmlBuilder where
  arena : Arena
  depth : Int32
  startIdx : Nat

def htmlBuilderStart (arena : Arena) : HtmlBuilder :=
  { startIdx := memGetArenaMemOffsetPos arena
    depth := 0
    arena := memArenaStartUnsafeRecord (memArenaStartUnsafeRecord arena) }

/-- The string is a slice of `arena->memory`. The builder is of no use afterwards: its `arena` is set to `NULL`. -/
def htmlBuilderEnd (builder : HtmlBuilder) : Option (S8 × Arena) := do
  let arena ← memArenaStopUnsafeRecord builder.arena
  if builder.depth ≠ 0 then some (.lit [], arena)
  else
    -- `pos - (startIdx - 1)` in 64 bits
    let size := wrap64 (memGetArenaMemOffsetPos arena - (builder.startIdx - 1))
    some (.slice builder.startIdx size, arena)

structure HtmlProp where
  key : List UInt8 := []
  value : List UInt8 := []
  deriving DecidableEq, Repr

/-- An attribute of a start tag: the field that is tested, the text before the value, and the field that is written. -/
structure HtmlAttr where
  field : List UInt8
  name : List UInt8
  value : List UInt8
  deriving DecidableEq, Repr

def joinAttr (arena : Arena) (attr : HtmlAttr) : Option Arena :=
  if attr.field ≠ [] then strJoin arena [attr.name, attr.value, s8 "\""] else some arena

/-- A turn of the loop over `props.props`. It writes `props.id` where the key belongs. -/
def joinProp (id : List UInt8) (arena : Arena) (prop : HtmlProp) : Option Arena :=
  if prop.key ≠ [] then
    if prop.value = [] then strJoin arena [prop.key] else strJoin arena [id, s8 "=\"", prop.value, s8 "\""]
  else some arena

def joinHidden (arena : Arena) (hidden : Bool) : Option Arena :=
  if hidden then strJoin arena [s8 " hidden"] else some arena

def startTag (arena : Arena) (tag : List UInt8) (attrs : List HtmlAttr) (id : List UInt8) (props : Vector HtmlProp 5)
    (hidden : Bool) : Option Arena := do
  let arena ← strJoin arena [tag]
  let arena ← attrs.foldlM joinAttr arena
  let arena ← props.toList.foldlM (joinProp id) arena
  let arena ← joinHidden arena hidden
  strJoin arena [s8 ">\n"]

structure HtmHtmlProperties where
  class_ : List UInt8 := []
  id : List UInt8 := []
  lang : List UInt8 := []
  dir : List UInt8 := []
  props : Vector HtmlProp 5 := Vector.replicate 5 {}
  deriving DecidableEq, Repr

structure HtmHeadProps extends HtmHtmlProperties where
  title : List UInt8 := []
  deriving DecidableEq, Repr

structure HtmBodyProps extends HtmHtmlProperties where
  title : List UInt8 := []
  style : List UInt8 := []
  deriving DecidableEq, Repr

structure HtmDivProps extends HtmBodyProps where
  onclick : List UInt8 := []
  onmouseover : List UInt8 := []
  onmouseout : List UInt8 := []
  hidden : Bool := false
  deriving DecidableEq, Repr

def classAttrs (p : HtmHtmlProperties) : List HtmlAttr :=
  [⟨p.class_, s8 " class=\"", p.class_⟩, ⟨p.id, s8 " id=\"", p.id⟩]

/-- Where `lang` is tested, the source writes `dir`. -/
def langAttrs (p : HtmHtmlProperties) : List HtmlAttr :=
  [⟨p.lang, s8 " lang=\"", p.dir⟩, ⟨p.dir, s8 " dir=\"", p.dir⟩]

def htmlAttrs (p : HtmHtmlProperties) : List HtmlAttr := classAttrs p ++ langAttrs p

def headAttrs (p : HtmHeadProps) : List HtmlAttr := classAttrs p.1 ++ langAttrs p.1

def bodyAttrs (p : HtmBodyProps) : List HtmlAttr :=
  classAttrs p.1 ++ [⟨p.style, s8 " style=\"", p.style⟩] ++ langAttrs p.1

def divAttrs (p : HtmDivProps) : List HtmlAttr :=
  classAttrs p.1.1 ++
    [⟨p.title, s8 " title=\"", p.title⟩, ⟨p.style, s8 " style=\"", p.style⟩] ++
    langAttrs p.1.1 ++
    [⟨p.onclick, s8 " onclick=\"", p.onclick⟩, ⟨p.onmouseover, s8 " onmouseover=\"", p.onmouseover⟩,
      ⟨p.onmouseout, s8 " onmouseout=\"", p.onmouseout⟩]

def HtmlBuilder.join (builder : HtmlBuilder) (depth : Int32) (f : Arena → Option Arena) : Option HtmlBuilder :=
  (f builder.arena).map fun arena => { builder with arena, depth := builder.depth + depth }

def htmlStart (builder : HtmlBuilder) (p : HtmHtmlProperties) : Option HtmlBuilder :=
  builder.join 1 fun arena => startTag arena (s8 "<html") (htmlAttrs p) p.id p.props false

def htmlEnd (builder : HtmlBuilder) : Option HtmlBuilder := builder.join (-1) (strJoin · [s8 "</html>"])

def joinTitle (arena : Arena) (title : List UInt8) : Option Arena :=
  if title ≠ [] then strJoin arena [s8 "<title>", title, s8 "</title>\n"] else some arena

def htmlHeadStart (builder : HtmlBuilder) (p : HtmHeadProps) : Option HtmlBuilder :=
  builder.join 1 fun arena => do
    let arena ← startTag arena (s8 "<head") (headAttrs p) p.id p.props false
    joinTitle arena p.title

def htmlHeadEnd (builder : HtmlBuilder) : Option HtmlBuilder := builder.join (-1) (strJoin · [s8 "</head>"])

def htmlBodyStart (builder : HtmlBuilder) (p : HtmBodyProps) : Option HtmlBuilder :=
  builder.join 1 fun arena => startTag arena (s8 "<body") (bodyAttrs p) p.id p.props false

def htmlBodyEnd (builder : HtmlBuilder) : Option HtmlBuilder := builder.join (-1) (strJoin · [s8 "</body>"])

def htmlDivStart (builder : HtmlBuilder) (p : HtmDivProps) : Option HtmlBuilder :=
  builder.join 1 fun arena => startTag arena (s8 "<div") (divAttrs p) p.id p.props p.hidden

def htmlDivEnd (builder : HtmlBuilder) : Option HtmlBuilder := builder.join (-1) (strJoin · [s8 "</div>\n"])

def htmlText (builder : HtmlBuilder) (text : List UInt8) : Option HtmlBuilder := builder.join 0 (strJoin · [text])

/-! ## Sessions -/

inductive HtmlElement
  | html | head | body | div
  deriving DecidableEq, Repr

inductive HtmlCall
  | htmlStart (p : HtmHtmlProperties)
  | headStart (p : HtmHeadProps)
  | bodyStart (p : HtmBodyProps)
  | divStart (p : HtmDivProps)
  | endTag (element : HtmlElement)
  | text (text : List UInt8)
  deriving DecidableEq, Repr

def HtmlCall.run (builder : HtmlBuilder) : HtmlCall → Option HtmlBuilder
  | .htmlStart p => CWebServer.htmlStart builder p
  | .headStart p => htmlHeadStart builder p
  | .bodyStart p => htmlBodyStart builder p
  | .divStart p => htmlDivStart builder p
  | .endTag .html => htmlEnd builder
  | .endTag .head => htmlHeadEnd builder
  | .endTag .body => htmlBodyEnd builder
  | .endTag .div => htmlDivEnd builder
  | .text t => htmlText builder t

def htmlSession (arena : Arena) (calls : List HtmlCall) : Option (S8 × Arena) := do
  let builder ← calls.foldlM HtmlCall.run (htmlBuilderStart arena)
  htmlBuilderEnd builder

/-- The page of `route_index`. -/
def routeIndex : List HtmlCall :=
  [.htmlStart {}, .headStart { title := s8 "Hello world" }, .endTag .head, .bodyStart {}, .divStart {},
    .text (s8 "Hello World!"), .endTag .div, .endTag .body, .endTag .html]

end CWebServer
