import Mathlib

/-! # The view tree

`VNode`, the sky-ids that `assignSkyIDs` stamps on its elements, and the passes of
`applyStyleInjections`. The CSS text that a pass builds from the rules of an
element is a parameter. -/

namespace Sky.Live

/-- The characters of a sky-id. -/
abbrev SkyID := List Char

abbrev Attrs := AList fun _ : String => String

/-- A node of the view. `Msg` is the type of the messages that events carry. -/
inductive VNode (Msg : Type*) where
  | text (s : String)
  | raw (s : String)
  | element (tag : String) (attrs : Attrs) (events : AList fun _ : String => Msg)
      (children : List (VNode Msg)) (skyID : SkyID)

/-- The value of an attribute, empty when it is absent. -/
def Attrs.get (attrs : Attrs) (k : String) : String := (attrs.lookup k).getD ""

variable {Msg : Type*}

def isVoidTag (t : String) : Bool :=
  t ∈ ["area", "base", "br", "col", "embed", "hr", "img", "input", "link", "meta", "param",
    "source", "track", "wbr"]

/-! ## Sky-ids -/

/-- Everything outside `[A-Za-z0-9_-]` becomes an underscore. -/
def sanitiseSkyIDKey (s : String) : List Char :=
  s.toList.map fun r =>
    if r.isLower || r.isUpper || r.isDigit || r == '-' || r == '_' then r else '_'

/-- The stable key of an element, empty when it has none. -/
def skyIDKey (tag : String) (attrs : Attrs) : List Char :=
  if attrs.get "sky-key" ≠ "" then sanitiseSkyIDKey (attrs.get "sky-key")
  else if tag ∈ ["input", "textarea", "select", "form", "button", "fieldset"] then
    sanitiseSkyIDKey (attrs.get "name")
  else []

def itoa (n : ℕ) : List Char := Nat.toDigits 10 n

/-- The names `tag:key` of the keyed children, which `seen` counts. -/
def keyedNames (children : List (VNode Msg)) : List (List Char) :=
  children.filterMap fun
    | .element tag attrs _ _ _ =>
        if skyIDKey tag attrs = [] then none else some (tag.toList ++ ':' :: skyIDKey tag attrs)
    | _ => none

/-- What the id of the child in slot `i` adds to the id of its parent. -/
def segment (names : List (List Char)) (i : ℕ) : VNode Msg → List Char
  | .element tag attrs _ _ _ =>
      let key := skyIDKey tag attrs
      if key = [] then '.' :: (itoa i ++ '#' :: tag.toList)
      else if names.length ≤ 1 ∨ names.count (tag.toList ++ ':' :: key) = 1 then
        '.' :: '#' :: (tag.toList ++ ':' :: key)
      else '.' :: (itoa i ++ '#' :: (tag.toList ++ ':' :: key))
  | _ => []

/-- The option whose value is `sv` is the selected one. -/
def markOption (sv : String) : VNode Msg → VNode Msg
  | .element tag attrs events children skyID =>
      if tag = "option" then
        let has := (attrs.lookup "selected").isSome
        let want := attrs.get "value" == sv
        if has = want ∧ (has = false ∨ attrs.get "selected" = "selected") then
          .element tag attrs events children skyID
        else if want then .element tag (attrs.insert "selected" "selected") events children skyID
        else .element tag (attrs.erase "selected") events children skyID
      else .element tag attrs events children skyID
  | n => n

def markSelectedOptions (attrs : Attrs) (children : List (VNode Msg)) : List (VNode Msg) :=
  if attrs.get "value" = "" then children else children.map (markOption (attrs.get "value"))

mutual

/-- Stamps every element with the path of segments that leads to it. The options
of a select are marked after the descent: no id is built from what is marked. -/
def assignSkyIDs (path : SkyID) : VNode Msg → VNode Msg
  | .text s => .text s
  | .raw s => .raw s
  | .element tag attrs events children _ =>
      let stamped := assignChildren path (keyedNames children) 0 children
      .element tag attrs events
        (if tag = "select" then markSelectedOptions attrs stamped else stamped) path

def assignChildren (path : SkyID) (names : List (List Char)) (i : ℕ) :
    List (VNode Msg) → List (VNode Msg)
  | [] => []
  | c :: cs =>
      assignSkyIDs (path ++ segment names i c) c :: assignChildren path names (i + 1) cs

end

/-! ## Style injection -/

/-- One pass: the marker attributes it consumes, the attribute it puts on the style
element, and the CSS text it builds from the id and the attributes of the owner. -/
structure StyleMarkerSpec where
  markerAttrs : List String
  styleAttr : String
  build : SkyID → Attrs → String

namespace StyleMarkerSpec

variable (spec : StyleMarkerSpec)

def hasAny (attrs : Attrs) : Bool := spec.markerAttrs.any fun ma => attrs.get ma ≠ ""

/-- The attributes without the markers. -/
def strip (attrs : Attrs) : Attrs := spec.markerAttrs.foldl (fun attrs ma => attrs.erase ma) attrs

end StyleMarkerSpec

def trimPrefix (p s : List Char) : List Char := if p <+: s then s.drop p.length else s

def injectedStyleID (owner : SkyID) (spec : StyleMarkerSpec) : SkyID :=
  owner ++ '.' :: '~' :: trimPrefix "data-sky-".toList spec.styleAttr.toList

/-- The style element that a pass makes for the element `owner`. -/
def styleNode (spec : StyleMarkerSpec) (owner : SkyID) (styleText : String) : VNode Msg :=
  .element "style" ((∅ : Attrs).insert spec.styleAttr (String.ofList owner)) ∅ [.raw styleText]
    (injectedStyleID owner spec)

/-- The attributes that stay, and the style element, if any, that goes in front of
the children. -/
def applyMarkerAsFirstChild (spec : StyleMarkerSpec) (attrs : Attrs) (skyID : SkyID) :
    Attrs × List (VNode Msg) :=
  if skyID = [] ∨ spec.hasAny attrs = false then (spec.strip attrs, [])
  else if spec.build skyID attrs = "" then (spec.strip attrs, [])
  else (spec.strip attrs, [styleNode spec skyID (spec.build skyID attrs)])

/-- A child after its own descent, with the style element of a void child behind it. -/
def hoist (spec : StyleMarkerSpec) : VNode Msg → List (VNode Msg)
  | .element tag attrs events children skyID =>
      if isVoidTag tag = true ∧ skyID ≠ [] ∧ spec.hasAny attrs = true then
        .element tag (spec.strip attrs) events children skyID ::
          if spec.build skyID attrs = "" then []
          else [styleNode spec skyID (spec.build skyID attrs)]
      else [.element tag attrs events children skyID]
  | n => [n]

mutual

/-- One pass over an element. The code also descends into the style element that it
has just put in front: `injectStyleMarker_styleNode` says that this does nothing. -/
def injectStyleMarker (spec : StyleMarkerSpec) : VNode Msg → VNode Msg
  | .text s => .text s
  | .raw s => .raw s
  | .element tag attrs events children skyID =>
      if isVoidTag tag then
        .element tag attrs events (walkChildrenWithVoidSiblingHoist spec children) skyID
      else
        let own : Attrs × List (VNode Msg) := applyMarkerAsFirstChild spec attrs skyID
        .element tag own.1 events (own.2 ++ walkChildrenWithVoidSiblingHoist spec children) skyID

def walkChildrenWithVoidSiblingHoist (spec : StyleMarkerSpec) : List (VNode Msg) → List (VNode Msg)
  | [] => []
  | c :: cs => hoist spec (injectStyleMarker spec c) ++ walkChildrenWithVoidSiblingHoist spec cs

end

/-- The CSS text of each pass. -/
structure StyleCSS where
  mediaQuery : SkyID → Attrs → String
  pseudoClass : SkyID → Attrs → String
  transition : SkyID → Attrs → String
  animation : SkyID → Attrs → String

structure StyleMarkerPass where
  bit : ℕ
  spec : StyleMarkerSpec

def mediaQuerySpec (css : StyleCSS) : StyleMarkerSpec :=
  ⟨["data-sky-mq-q", "data-sky-mq-rules"], "data-sky-mq", css.mediaQuery⟩

def pseudoClassSpec (css : StyleCSS) : StyleMarkerSpec :=
  ⟨["data-sky-pc-rules"], "data-sky-pc", css.pseudoClass⟩

def transitionSpec (css : StyleCSS) : StyleMarkerSpec :=
  ⟨["data-sky-tr-rules", "data-sky-tr-respect"], "data-sky-tr", css.transition⟩

def animationSpec (css : StyleCSS) : StyleMarkerSpec :=
  ⟨["data-sky-anim-rules"], "data-sky-anim", css.animation⟩

def styleMarkerPasses (css : StyleCSS) : List StyleMarkerPass :=
  [⟨1, mediaQuerySpec css⟩, ⟨2, pseudoClassSpec css⟩, ⟨4, transitionSpec css⟩,
    ⟨8, animationSpec css⟩]

/-- The passes that consume an attribute, as a set of bits. -/
def styleMarkerBits (passes : List StyleMarkerPass) (a : String) : ℕ :=
  passes.foldl (fun m p => if a ∈ p.spec.markerAttrs then m ||| p.bit else m) 0

mutual

/-- The passes that have an attribute to consume somewhere in the tree. -/
def scanStyleMarkers (passes : List StyleMarkerPass) (found : ℕ) : VNode Msg → ℕ
  | .text _ => found
  | .raw _ => found
  | .element _ attrs _ children _ =>
      let own := attrs.keys.foldl (fun found k =>
        if "data-sky-".toList <+: k.toList then found ||| styleMarkerBits passes k else found) found
      scanChildren passes own children

def scanChildren (passes : List StyleMarkerPass) (found : ℕ) : List (VNode Msg) → ℕ
  | [] => found
  | c :: cs => scanChildren passes (scanStyleMarkers passes found c) cs

end

/-- The radio group that the children of an element belong to. -/
def radioGroup (group : String) (attrs : Attrs) (skyID : SkyID) : String :=
  if (attrs.lookup "data-sky-radio-group").isSome then
    if attrs.get "name" ≠ "" then attrs.get "name"
    else if skyID ≠ [] then String.ofList skyID
    else group
  else group

mutual

/-- Names the radios of every radio group. -/
def applyRadioGroupNames (group : String) : VNode Msg → VNode Msg
  | .text s => .text s
  | .raw s => .raw s
  | .element tag attrs events children skyID =>
      let group := radioGroup group attrs skyID
      let attrs :=
        if group ≠ "" ∧ tag = "input" ∧ (attrs.get "type").toList.map Char.toLower = "radio".toList ∧
            attrs.get "name" = "" then attrs.insert "name" group
        else attrs
      .element tag attrs events (applyRadioGroupNamesAll group children) skyID

def applyRadioGroupNamesAll (group : String) : List (VNode Msg) → List (VNode Msg)
  | [] => []
  | c :: cs => applyRadioGroupNames group c :: applyRadioGroupNamesAll group cs

end

/-- The passes that the scan asks for, in their order. -/
def applyStyleInjections (css : StyleCSS) (n : VNode Msg) : VNode Msg :=
  let n := applyRadioGroupNames "" n
  let present := scanStyleMarkers (styleMarkerPasses css) 0 n
  (styleMarkerPasses css).foldl
    (fun n p => if present &&& p.bit ≠ 0 then injectStyleMarker p.spec n else n) n

end Sky.Live
