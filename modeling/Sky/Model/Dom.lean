import Mathlib
import Sky.Model.Diff

/-! # The page

The DOM that a view renders to, and the patches applied to it. A node of the page
keeps its tag, its sky-id and its children; other attributes are left out. What the
browser makes of a raw fragment, and the text that the markup of an element is inside
a style, script or textarea, are parameters. -/

namespace Sky.Live

open Sky.Library

variable {Msg : Type*}

/-- A node of the page. `value` is the text of a textarea that its value attribute gives. -/
inductive DNode where
  | text (s : String)
  | value (s : String)
  | element (tag : String) (skyID : Option SkyID) (kids : List DNode)

/-- The parts of a browser and of the renderer that are not modelled. -/
structure Browser (Msg : Type*) where
  parseHTML : String → List DNode
  markup : VNode Msg → String

/-! ## Rendering -/

/-- The elements whose content is text for the parser. -/
def isTextOnly (tag : String) : Bool := tag = "style" || tag = "script" || tag = "textarea"

/-- A child of an element whose content is text. -/
def textOf (browser : Browser Msg) : VNode Msg → String
  | .text s => s
  | .raw s => s
  | n => browser.markup n

/-- The text of a textarea without children. -/
def textareaText (tag : String) (attrs : Attrs) (children : List (VNode Msg)) : List DNode :=
  if tag = "textarea" ∧ attrs.get "value" ≠ "" ∧ children.isEmpty then
    [.value (attrs.get "value")]
  else []

mutual

/-- The nodes of the page that `renderVNode` makes of a node. -/
def domOf (browser : Browser Msg) : VNode Msg → List DNode
  | .text s => [.text s]
  | .raw s => browser.parseHTML s
  | .element tag attrs _ children skyID =>
      let content :=
        if isTextOnly tag then children.map fun c => .text (textOf browser c)
        else domAll browser children
      if tag = "!doctype-wrapper" then domAll browser children
      else
        [.element tag (if skyID = [] then none else some skyID)
          (if isVoidTag tag then []
            else textareaText tag attrs children ++ if isIsland attrs then [] else content)]

def domAll (browser : Browser Msg) : List (VNode Msg) → List DNode
  | [] => []
  | c :: cs => domOf browser c ++ domAll browser cs

end

/-- The children of an element on the page. -/
def domKids (browser : Browser Msg) : VNode Msg → List DNode
  | .element tag _ _ children _ =>
      if isTextOnly tag then children.map fun c => .text (textOf browser c)
      else domAll browser children
  | _ => []

/-! ## Applying patches -/

namespace DNode

def skyID : DNode → Option SkyID
  | .element _ skyID _ => skyID
  | _ => none

end DNode

mutual

/-- The first element with a sky-id, in document order. -/
def DNode.find (id : SkyID) : DNode → Option DNode
  | .text _ => none
  | .value _ => none
  | .element tag skyID kids =>
      if skyID = some id then some (.element tag skyID kids) else findAll id kids

def findAll (id : SkyID) : List DNode → Option DNode
  | [] => none
  | d :: ds => (d.find id).or (findAll id ds)

end

mutual

/-- The page with `repl` in the place of the first element with a sky-id. -/
def DNode.splice (id : SkyID) (repl : List DNode) : DNode → List DNode
  | .text s => [.text s]
  | .value s => [.value s]
  | .element tag skyID kids =>
      if skyID = some id then repl else [.element tag skyID (spliceAll id repl kids)]

def spliceAll (id : SkyID) (repl : List DNode) : List DNode → List DNode
  | [] => []
  | d :: ds => if (d.find id).isSome then d.splice id repl ++ ds else d :: spliceAll id repl ds

end

mutual

def DNode.renameSubtree (p q : SkyID) : DNode → DNode
  | .text s => .text s
  | .value s => .value s
  | .element tag skyID kids =>
      .element tag (skyID.map (DottedPath.rename '.' p q)) (renameSubtreeAll p q kids)

def renameSubtreeAll (p q : SkyID) : List DNode → List DNode
  | [] => []
  | d :: ds => d.renameSubtree p q :: renameSubtreeAll p q ds

end

/-- The children after the slots of a kids patch. A node of the page can take one slot
only, and a patch fails when a child that it keeps is missing. -/
def applyKids (browser : Browser Msg) : List DNode → List (KidOp Msg) → Option (List DNode)
  | _, [] => some []
  | kids, kop :: kops =>
      if kop.keep ≠ [] then
        (kids.find? fun d => d.skyID = some kop.keep).bind fun d =>
          (applyKids browser (kids.eraseP fun d => d.skyID = some kop.keep) kops).map fun rest =>
            (if kop.id ≠ [] ∧ kop.id ≠ kop.keep then d.renameSubtree kop.keep kop.id else d) :: rest
      else
        (applyKids browser kids kops).map fun rest =>
          (kop.html.map (domOf browser)).getD [] ++ rest

/-- What setting attributes does to the sky-id. -/
def applyAttrs (skyID : Option SkyID) (attrs : Attrs) : Option SkyID :=
  match attrs.lookup "sky-id" with
  | some v => if v = "" then none else some v.toList
  | none => skyID

/-- The target of a patch after it. -/
def Patch.edit (browser : Browser Msg) (p : Patch Msg) : DNode → Option (List DNode)
  | .text _ => none
  | .value _ => none
  | .element tag skyID kids =>
      match p.replace with
      | some n => some (domOf browser n)
      | none =>
          let kids := (p.text.map fun s => [.text s]).getD kids
          let kids := (p.html.map (domKids browser)).getD kids
          ((p.kids.map (applyKids browser kids)).getD (some kids)).map fun kids =>
            [.element tag ((p.attrs.map (applyAttrs skyID)).getD skyID) kids]

/-- One patch. It fails when its target, or a child that it keeps, is missing. -/
def applyPatch (browser : Browser Msg) (doc : List DNode) (p : Patch Msg) : Option (List DNode) :=
  (findAll p.id doc).bind fun d => (p.edit browser d).map fun repl => spliceAll p.id repl doc

def applyPatches (browser : Browser Msg) (doc : List DNode) (patches : List (Patch Msg)) :
    Option (List DNode) :=
  patches.foldlM (applyPatch browser) doc

/-! ## Comparing pages -/

/-- A text in front of nodes that are already merged. -/
def addText (s : String) : List DNode → List DNode
  | .text t :: ds => .text (s ++ t) :: ds
  | ds => if s = "" then ds else .text s :: ds

mutual

/-- The page with adjacent texts merged and empty ones dropped. What a value attribute
gives is dropped too: it is no more compared than other attributes are. -/
def canon : List DNode → List DNode
  | [] => []
  | d :: ds => d.canonOn (canon ds)

def DNode.canonOn (rest : List DNode) : DNode → List DNode
  | .text s => addText s rest
  | .value _ => rest
  | .element tag skyID kids => .element tag skyID (canon kids) :: rest

end

mutual

/-- The page with all its text, also that of the value attributes. -/
def showValues : List DNode → List DNode
  | [] => []
  | d :: ds => d.showValue :: showValues ds

def DNode.showValue : DNode → DNode
  | .text s => .text s
  | .value s => .text s
  | .element tag skyID kids => .element tag skyID (showValues kids)

end

end Sky.Live
