import Mathlib
import Sky.Library.DottedPath
import Sky.Model.VNode

/-! # The diff of two views

`diffTrees` and the patches it emits. Markup in a patch is kept as the nodes that it
renders. The names of messages and handlers, which the code finds by reflection, are
parameters. -/

namespace Sky.Live

open Sky.Library

variable {Msg : Type*}

/-- One new child: an old child that stays, under a new id when `id` is not empty, or
new markup. -/
structure KidOp (Msg : Type*) where
  keep : SkyID := []
  id : SkyID := []
  html : Option (VNode Msg) := none

/-- One change of the page, at the element with sky-id `id`. `html` is the element
whose children are the markup. -/
structure Patch (Msg : Type*) where
  id : SkyID
  text : Option String := none
  html : Option (VNode Msg) := none
  kids : Option (List (KidOp Msg)) := none
  replace : Option (VNode Msg) := none
  attrs : Option Attrs := none

/-- What the client last reported of its inputs. -/
abbrev ClientState := AList fun _ : SkyID => String

/-- The names that reflection finds for a message and for its handler. -/
structure EventNames (Msg : Type*) where
  liveEventAttrValue : Msg → String
  handlerIdentity : Msg → String

namespace VNode

def isElement : VNode Msg → Bool
  | .element .. => true
  | _ => false

def tag : VNode Msg → String
  | .element tag .. => tag
  | _ => ""

def skyID : VNode Msg → SkyID
  | .element _ _ _ _ skyID => skyID
  | _ => []

end VNode

mutual

def renameSubtreeIDs (p q : SkyID) : VNode Msg → VNode Msg
  | .text s => .text s
  | .raw s => .raw s
  | .element tag attrs events children skyID =>
      .element tag attrs events (renameAllIDs p q children) (DottedPath.rename '.' p q skyID)

def renameAllIDs (p q : SkyID) : List (VNode Msg) → List (VNode Msg)
  | [] => []
  | c :: cs => renameSubtreeIDs p q c :: renameAllIDs p q cs

end

def renameClientState (cs : ClientState) (p q : SkyID) : ClientState :=
  cs.entries.foldl (fun out e => (out.insert e.1 e.2).insert (DottedPath.rename '.' p q e.1) e.2) ∅

/-! ## Attributes and events -/

def isFormInputTag (t : String) : Bool := t = "input" || t = "textarea" || t = "select"

def isAuthorityControlledAttr (k : String) : Bool := k = "value" || k = "checked" || k = "selected"

/-- The changes from the attributes `old` to `new`. `client` is the value that the
page shows, when it is known. -/
def attrChanges (client : Option String) (old new : Attrs) : Attrs :=
  let changes := new.entries.foldl (fun (changes : Attrs) e =>
    if old.lookup e.1 = some e.2 then changes
    else if isAuthorityControlledAttr e.1 && client == some e.2 then changes
    else changes.insert e.1 e.2) ∅
  old.keys.foldl (fun changes k =>
    if (new.lookup k).isSome then changes else changes.insert k "") changes

def eventAttrName (ev : String) : String :=
  if "sky-".toList <+: ev.toList then "data-sky-ev-" ++ ev else "sky-" ++ ev

/-- The handler id of the first event of an element. -/
def firstEventHID (events : AList fun _ : String => Msg) (skyID : SkyID) : String :=
  let first := events.keys.foldl (fun first ev => if first = "" ∨ ev < first then ev else first) ""
  if first = "" then "" else String.ofList skyID ++ "." ++ first

/-- The changes of the attributes that bind the events. -/
def eventChanges (names : EventNames Msg) (old new : AList fun _ : String => Msg) : Attrs :=
  let changes := new.entries.foldl (fun (changes : Attrs) e =>
    if (old.lookup e.1).map names.liveEventAttrValue = some (names.liveEventAttrValue e.2) then
      changes
    else changes.insert (eventAttrName e.1) (names.liveEventAttrValue e.2)) ∅
  old.keys.foldl (fun changes ev =>
    if (new.lookup ev).isSome then changes else changes.insert (eventAttrName ev) "") changes

/-- All attribute changes of one element, `data-sky-hid` included. -/
def elementChanges (names : EventNames Msg) (client : Option String) (oattrs nattrs : Attrs)
    (oevents nevents : AList fun _ : String => Msg) (oid nid : SkyID) : Attrs :=
  let evs := eventChanges names oevents nevents
  let changes := evs.entries.foldl (fun (changes : Attrs) e => changes.insert e.1 e.2)
    (attrChanges client oattrs nattrs)
  let hid := firstEventHID nevents nid
  if evs.entries ≠ [] ∧ (hid ≠ "" ∨ firstEventHID oevents oid ≠ "") then
    changes.insert "data-sky-hid" hid
  else changes

/-! ## Identity -/

def isIsland (attrs : Attrs) : Bool := attrs.get "data-sky-island" ≠ ""

def islandIdentity (attrs : Attrs) : String :=
  if isIsland attrs then attrs.get "data-sky-island" ++ "\x00" ++ attrs.get "data-sky-island-id"
  else ""

def formIdentity (names : EventNames Msg) (attrs : Attrs) (events : AList fun _ : String => Msg) :
    String :=
  ((events.lookup "submit").map names.handlerIdentity).getD "" ++ "|" ++ attrs.get "action"

/-- Whether two elements in one slot are the same form, if they are forms at all. -/
def sameForm (names : EventNames Msg) (otag ntag : String) (oattrs nattrs : Attrs)
    (oevents nevents : AList fun _ : String => Msg) : Bool :=
  if ntag ≠ "form" ∨ otag ≠ "form" then true
  else formIdentity names oattrs oevents = formIdentity names nattrs nevents

/-! ## Matching children -/

/-- The fast path: the same children in the same slots. -/
def childrenSameSlots : List (VNode Msg) → List (VNode Msg) → Bool
  | [], [] => true
  | .text s :: os, .text t :: ns => s = t && childrenSameSlots os ns
  | .raw s :: os, .raw t :: ns => s = t && childrenSameSlots os ns
  | .element otag _ _ _ oid :: os, .element ntag _ _ _ nid :: ns =>
      otag = ntag && oid = nid && childrenSameSlots os ns
  | _, _ => false

def isRaw : VNode Msg → Bool
  | .raw _ => true
  | _ => false

def childrenNeedWholeHTML (tag : String) (ocs ncs : List (VNode Msg)) : Bool :=
  tag = "style" || tag = "script" || tag = "textarea" || ocs.any isRaw || ncs.any isRaw

def injectedStyleAttrs : List String := ["data-sky-mq", "data-sky-pc", "data-sky-tr", "data-sky-anim"]

/-- The matching key of a child. -/
def childShape : VNode Msg → String
  | .element tag attrs _ children _ =>
      tag ++ "|" ++ attrs.get "sky-key" ++ "|" ++ attrs.get "name" ++ "|" ++ attrs.get "type" ++
        injectedStyleAttrs.foldl
          (fun sb sa => if (attrs.lookup sa).isSome then sb ++ "|" ++ sa else sb) "" ++ "|" ++
        children.foldl (fun sb c => sb ++ (match c with
          | .element tag .. => tag
          | .text _ => "text"
          | .raw _ => "raw") ++ ",") ""
  | _ => ""

def alignChildrenLCSLimit : ℕ := 1 <<< 18

/-- Whether the id of a child does not depend on its slot. -/
def skyIDIsIndexFree (parentID childID : SkyID) : Bool :=
  parentID <+: childID && match childID.drop parentID.length with
    | '.' :: c :: _ => c = '#' || c = '~'
    | _ => false

def keyedUnder (parentID : SkyID) (c : VNode Msg) : Bool :=
  c.isElement && skyIDIsIndexFree parentID c.skyID

/-- The old child of each index-free id, by what the id adds to that of the parent. -/
def indexByID (parentID : SkyID) (ocs : List (VNode Msg)) : AList fun _ : SkyID => ℕ :=
  ocs.zipIdx.foldl (fun m cj =>
    if keyedUnder parentID cj.1 then m.insert (cj.1.skyID.drop parentID.length) cj.2 else m) ∅

/-- Step 1: index-free ids. -/
def matchKeyed (oldID newID : SkyID) (ocs ncs : List (VNode Msg)) : List (Option ℕ) :=
  let byID := indexByID oldID ocs
  ncs.map fun c =>
    if keyedUnder newID c then
      (byID.lookup (c.skyID.drop newID.length)).filter fun j =>
        (ocs[j]?).map VNode.tag = some c.tag
    else none

/-- The pairs of a common prefix, and what is left of both sides. Each item is a slot
and its shape; a pair is a new slot and an old slot. -/
def matchPrefix : List (ℕ × String) → List (ℕ × String) →
    List (ℕ × ℕ) × List (ℕ × String) × List (ℕ × String)
  | (j, a) :: as, (i, b) :: bs =>
      if a = b then ((i, j) :: (matchPrefix as bs).1, (matchPrefix as bs).2)
      else ([], (j, a) :: as, (i, b) :: bs)
  | as, bs => ([], as, bs)

/-- One row of the table, from the row below it. -/
def lcsRow (a : String) : List String → List ℕ → List ℕ
  | [], _ => [0]
  | b :: bs, below =>
      let rest := lcsRow a bs below.tail
      (if a = b then below.tail.headD 0 + 1
        else if rest.headD 0 ≤ below.headD 0 then below.headD 0 else rest.headD 0) :: rest

/-- `dp`: the length of the longest common subsequence of every two suffixes. -/
def lcsTable : List String → List String → List (List ℕ)
  | [], bs => [List.replicate (bs.length + 1) 0]
  | a :: as, bs => lcsRow a bs ((lcsTable as bs).headD []) :: lcsTable as bs

def lcsWalk (dp : ℕ → ℕ → ℕ) (x y : ℕ) : List (ℕ × String) → List (ℕ × String) → List (ℕ × ℕ)
  | (j, a) :: as, (i, b) :: bs =>
      if a = b then (i, j) :: lcsWalk dp (x + 1) (y + 1) as bs
      else if dp x (y + 1) ≤ dp (x + 1) y then lcsWalk dp (x + 1) y as ((i, b) :: bs)
      else lcsWalk dp x (y + 1) ((j, a) :: as) bs
  | _, _ => []
termination_by as bs => as.length + bs.length

/-- Past the limit: each new child takes the next old child of its shape. -/
def matchGreedy : List (ℕ × String) → List (ℕ × String) → List (ℕ × ℕ)
  | _, [] => []
  | as, (i, b) :: bs =>
      match as.dropWhile fun a => a.2 ≠ b with
      | (j, _) :: rest => (i, j) :: matchGreedy rest bs
      | [] => matchGreedy as bs

/-- Step 2: shapes along a common subsequence. -/
def matchShapes (as bs : List (ℕ × String)) : List (ℕ × ℕ) :=
  let front := matchPrefix as bs
  let back := matchPrefix front.2.1.reverse front.2.2.reverse
  let as := back.2.1.reverse
  let bs := back.2.2.reverse
  let dp := lcsTable (as.map Prod.snd) (bs.map Prod.snd)
  front.1 ++ back.1 ++
    if as = [] ∨ bs = [] then []
    else if as.length * bs.length ≤ alignChildrenLCSLimit then
      lcsWalk (fun x y => ((dp[x]?).bind (·[y]?)).getD 0) 0 0 as bs
    else matchGreedy as bs

/-- The new slots of one run, each paired with the next free old slot that fits. A
slot is used when the match holds it. -/
def pairRun (eligible : ℕ → Bool) (fits : ℕ → ℕ → Bool) (hi : ℕ) :
    List ℕ → ℕ → List (Option ℕ) → List (Option ℕ)
  | [], _, m => m
  | k :: ks, j, m =>
      if eligible k then
        match (List.range' j (hi - j)).find? fun j => decide (some j ∉ m) && fits k j with
        | some j => pairRun eligible fits hi ks (j + 1) (m.set k (some j))
        | none => pairRun eligible fits hi ks (max j hi) m
      else pairRun eligible fits hi ks j m

/-- Step 3: what is left between two matches. -/
def pairLeftovers (eligible : ℕ → Bool) (fits : ℕ → ℕ → Bool) (olds news i lo : ℕ)
    (m : List (Option ℕ)) : List (Option ℕ) :=
  if i < news then
    match (m[i]?).join with
    | some j => pairLeftovers eligible fits olds news (i + 1) (if lo ≤ j then j + 1 else lo) m
    | none =>
        let e := i + 1 + ((m.drop (i + 1)).takeWhile Option.isNone).length
        let hi := ((m.drop e).findSome? fun o => o.filter (lo ≤ ·)).getD olds
        pairLeftovers eligible fits olds news e lo
          (pairRun eligible fits hi (List.range' i (e - i)) lo m)
  else m
termination_by news - i

/-- The old elements that step 1 leaves, by slot and shape. -/
def oldShapes (oldID : SkyID) (ocs : List (VNode Msg)) (m : List (Option ℕ)) : List (ℕ × String) :=
  ocs.zipIdx.filterMap fun cj =>
    if cj.1.isElement && decide (some cj.2 ∉ m) && !keyedUnder oldID cj.1 then
      some (cj.2, childShape cj.1)
    else none

/-- The new elements that step 1 leaves, by slot and shape. -/
def newShapes (newID : SkyID) (ncs : List (VNode Msg)) (m : List (Option ℕ)) : List (ℕ × String) :=
  (ncs.zipIdx.zip m).filterMap fun ci =>
    if ci.1.1.isElement && ci.2.isNone && !keyedUnder newID ci.1.1 then
      some (ci.1.2, childShape ci.1.1)
    else none

/-- For each new child the slot of the old child that it keeps. -/
def alignChildren (oldID newID : SkyID) (ocs ncs : List (VNode Msg)) : List (Option ℕ) :=
  let m := matchKeyed oldID newID ocs ncs
  let pairs := matchShapes (oldShapes oldID ocs m) (newShapes newID ncs m)
  let m := pairs.foldl (fun m p => m.set p.1 (some p.2)) m
  pairLeftovers (fun k => (ncs[k]?).any fun c => c.isElement && !keyedUnder newID c)
    (fun k j => (ocs[j]?).any fun o =>
      o.isElement && (ncs[k]?).map VNode.tag = some o.tag && !keyedUnder oldID o)
    ocs.length ncs.length 0 0 m

/-! ## The diff -/

/-- The old child that a slot keeps, under its new id, with the client state for it. -/
def keptChild (cs : ClientState) (ocs : List (VNode Msg)) (j : Option ℕ) (c : VNode Msg) :
    Option (ClientState × VNode Msg) :=
  (j.bind (ocs[·]?)).map fun o =>
    if o.skyID ≠ c.skyID then
      (renameClientState cs o.skyID c.skyID, renameSubtreeIDs o.skyID c.skyID o)
    else (cs, o)

/-- The slot of the kids patch for a new child. -/
def kidOp (ocs : List (VNode Msg)) (j : Option ℕ) (c : VNode Msg) : KidOp Msg :=
  match j.bind (ocs[·]?) with
  | some o => { keep := o.skyID, id := if o.skyID ≠ c.skyID then c.skyID else [] }
  | none => { html := some c }

/-- The patch for the children of an element, and the old child that each new child
is compared with. -/
def diffChildren (cs : ClientState) (tag : String) (oid : SkyID) (ocs : List (VNode Msg))
    (new : VNode Msg) (ncs : List (VNode Msg)) :
    List (Patch Msg) × List (Option (ClientState × VNode Msg)) :=
  if childrenSameSlots ocs ncs then
    ([], ocs.map fun o => if o.isElement then some (cs, o) else none)
  else if oid = [] then ([], [])
  else if childrenNeedWholeHTML tag ocs ncs then ([{ id := oid, html := some new }], [])
  else
    let m := alignChildren oid new.skyID ocs ncs
    if m.all Option.isNone then ([{ id := oid, html := some new }], [])
    else
      ([{ id := oid, kids := some (List.zipWith (kidOp ocs) m ncs) }],
        List.zipWith (keptChild cs ocs) m ncs)

/-- The same for all that is inside an element. Nothing is compared inside an island. -/
def diffContent (cs : ClientState) (tag : String) (attrs : Attrs) (oid : SkyID)
    (ocs : List (VNode Msg)) (new : VNode Msg) (ncs : List (VNode Msg)) :
    List (Patch Msg) × List (Option (ClientState × VNode Msg)) :=
  if islandIdentity attrs ≠ "" then ([], [])
  else
    match ocs, ncs with
    | [.text a], [.text b] =>
        (if a ≠ b ∧ oid ≠ [] then [{ id := oid, text := some b }] else [], [])
    | _, _ => diffChildren cs tag oid ocs new ncs

/-- The patch for the attributes of an element. -/
def attrPatch (changes : Attrs) (oid : SkyID) : List (Patch Msg) :=
  if changes.entries ≠ [] ∧ oid ≠ [] then [{ id := oid, attrs := some changes }] else []

mutual

/-- The patches that turn the node `old` into the given one. -/
def diffNodes (names : EventNames Msg) (cs : ClientState) (old : VNode Msg) :
    VNode Msg → List (Patch Msg)
  | .text s =>
      match old with
      | .text _ => []
      | _ => [{ id := old.skyID, replace := some (.text s) }]
  | .raw s =>
      match old with
      | .raw _ => []
      | _ => [{ id := old.skyID, replace := some (.raw s) }]
  | .element tag attrs events children skyID =>
      match old with
      | .element otag oattrs oevents ochildren oid =>
          if otag ≠ tag ∨ sameForm names otag tag oattrs attrs oevents events = false ∨
              islandIdentity oattrs ≠ islandIdentity attrs then
            [{ id := oid, replace := some (.element tag attrs events children skyID) }]
          else
            let client := if isFormInputTag tag ∧ skyID ≠ [] then cs.lookup skyID else none
            let out := diffContent cs tag attrs oid ochildren
              (.element tag attrs events children skyID) children
            attrPatch (elementChanges names client oattrs attrs oevents events oid skyID) oid ++
              (out.1 ++ diffAll names out.2 children)
      | _ => [{ id := old.skyID, replace := some (.element tag attrs events children skyID) }]

/-- The descent into the new children that are compared with an old one. -/
def diffAll (names : EventNames Msg) (olds : List (Option (ClientState × VNode Msg))) :
    List (VNode Msg) → List (Patch Msg)
  | [] => []
  | c :: children =>
      (olds.head?.join.elim [] fun co => diffNodes names co.1 co.2 c) ++
        diffAll names olds.tail children

end

/-- The patches from one tree to another. -/
def diffTrees (names : EventNames Msg) (old new : VNode Msg) (cs : ClientState) :
    List (Patch Msg) :=
  diffNodes names cs old new

end Sky.Live
