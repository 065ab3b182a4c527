import Sky.Model.Utf8

/-! # Hydration of the server-painted page

`spa_hydrate.go`: the check that the server's DOM shows the client's first tree, and the splitting
of its text nodes. A Go string is its bytes; the data of a text node is valid Unicode. `none` is an
exception that the DOM throws. -/

namespace Sky.Hydration

open Library

abbrev Bytes := List UInt8

instance lawfulBEq_bytes : LawfulBEq Bytes := inferInstance

/-- An ASCII literal. -/
def ascii (s : String) : Bytes := s.toList.map fun c => UInt8.ofNat c.val.toNat

/-! ## The trees -/

inductive Kind where
  | element
  | text
  | raw
  deriving DecidableEq

abbrev Attributes := List (Bytes × Bytes)

/-- A node of the client's tree, without its events. -/
inductive VNode where
  | mk (kind : Kind) (tag text : Bytes) (attrs : Attributes) (children : List VNode) (skyID : Bytes)

namespace VNode

def kind : VNode → Kind
  | mk kind _ _ _ _ _ => kind

def tag : VNode → Bytes
  | mk _ tag _ _ _ _ => tag

def text : VNode → Bytes
  | mk _ _ text _ _ _ => text

def attrs : VNode → Attributes
  | mk _ _ _ attrs _ _ => attrs

def children : VNode → List VNode
  | mk _ _ _ _ children _ => children

def skyID : VNode → Bytes
  | mk _ _ _ _ _ skyID => skyID

end VNode

/-- A DOM node; an element has an identity. -/
inductive Dom where
  | element (id : ℕ) (tag : Bytes) (attrs : Attributes) (children : List Dom)
  | text (data : List Char)

namespace Dom

/-- `Attr` -/
def attr (k : Bytes) : Dom → Option Bytes
  | element _ _ attrs _ => attrs.lookup k
  | text _ => none

/-- `FirstChild` and the siblings behind it. -/
def firstChild : Dom → List Dom
  | element _ _ _ children => children
  | text _ => []

/-- The code units of a character in UTF-16. -/
def units (c : Char) : ℕ := if c.val.toNat ≥ 0x10000 then 2 else 1

/-- The characters before an offset in code units, and those behind it. -/
def cut : ℕ → List Char → Option (List Char × List Char)
  | 0, cs => some ([], cs)
  | _ + 1, [] => none
  | n + 1, c :: cs =>
      if units c ≤ n + 1 then (cut (n + 1 - units c) cs).map fun p => (c :: p.1, p.2) else none

/-- `SplitText`: the node keeps the first part, its new sibling holds the rest. -/
def splitText (offset : ℕ) : Dom → Option (Dom × Dom)
  | text data => (cut offset data).map fun p => (text p.1, text p.2)
  | element .. => none

end Dom

/-! ## The slots of a child list -/

inductive Slot where
  | child (i : ℕ)
  | texts (ts : List Bytes)
  deriving DecidableEq

/-- `strings.ReplaceAll(s, "\r\n", "\n")` -/
def joinLines : Bytes → Bytes
  | 0x0D :: 0x0A :: s => 0x0A :: joinLines s
  | b :: s => b :: joinLines s
  | [] => []

/-- `strings.ReplaceAll(s, "\r", "\n")` -/
def replaceCR (s : Bytes) : Bytes := s.map fun b => if b = 0x0D then 0x0A else b

def spaParsedText (parent s : Bytes) : Bytes :=
  let s := if 0x0D ∈ s then replaceCR (joinLines s) else s
  if 0x00 ∈ s then
    if parent ∈ ["style", "script", "textarea", "title", "xmp", "iframe", "noembed",
        "noframes"].map ascii then
      s.flatMap fun b => if b = 0x00 then [0xEF, 0xBF, 0xBD] else [b]
    else s.filter fun b => b ≠ 0x00
  else s

/-- `strings.TrimPrefix(t, "\n")` -/
def trimNewline : Bytes → Bytes
  | 0x0A :: t => t
  | t => t

/-- The text joins the run that the slots end with. -/
def pushText (slots : List Slot) (t : Bytes) : List Slot :=
  match slots.getLast? with
  | some (.texts ts) => slots.dropLast ++ [.texts (ts ++ [t])]
  | _ => slots ++ [.texts [t]]

/-- One child of `spaSSRSlots`. -/
def addSlot (tag : Bytes) (st : List Slot × Bool) (c : VNode × ℕ) : List Slot × Bool :=
  if c.1.kind ≠ .text then (st.1 ++ [.child c.2], false)
  else
    let t := spaParsedText tag c.1.text
    let trims := st.2 ∧ t ≠ []
    let t := if trims then trimNewline t else t
    let dropLF := if trims then false else st.2
    if t = [] then (st.1, dropLF) else (pushText st.1 t, dropLF)

def spaSSRSlots (v : VNode) : List Slot :=
  let dropLF := v.tag = ascii "pre" ∨ v.tag = ascii "listing" ∨ v.tag = ascii "textarea"
  (v.children.zipIdx.foldl (addSlot v.tag) ([], dropLF)).1

/-! ## What is not compared -/

def spaValuedTextareaLeaf (v : VNode) : Bool := v.tag = ascii "textarea" ∧ v.children.length = 0

def spaChildrenContainRaw (children : List VNode) : Bool := children.any fun c => c.kind = .raw

def isIsland (v : VNode) : Bool :=
  v.kind = .element ∧ (v.attrs.lookup (ascii "data-sky-island")).getD [] ≠ []

/-- The children of the node are passed over. -/
def VNode.closed (v : VNode) : Bool :=
  spaChildrenContainRaw v.children || spaValuedTextareaLeaf v || isIsland v

def spaIsServerCsrfInput : List Dom → Bool
  | n@(.element _ tag _ _) :: _ =>
      tag = ascii "input" ∧ (n.attr (ascii "type")).getD [] = ascii "hidden" ∧
        (n.attr (ascii "name")).getD [] = ascii "__sky_csrf" ∧ (n.attr (ascii "sky-id")).isNone
  | _ => false

def spaSkipServerCsrfInput (first : List Dom) : List Dom :=
  if spaIsServerCsrfInput first then first.tail else first

/-! ## The check -/

/-- Why the client rebuilds. -/
inductive Reason where
  | noElement (skyID : Bytes)
  | tag (skyID server client : Bytes)
  | skyID (skyID : Bytes)
  | attr (k skyID : Bytes)
  | fewer (skyID : Bytes)
  | expected (skyID : Bytes)
  | text (skyID : Bytes)
  | more (skyID : Bytes)
  | missing
  deriving DecidableEq

def Reason.message : Reason → Bytes
  | noElement id => ascii "server DOM has no element for " ++ id
  | tag id server client =>
      ascii "tag differs at " ++ id ++ ascii ": server <" ++ server ++ ascii ">, client <" ++ client ++
        ascii ">"
  | skyID id => ascii "sky-id differs at " ++ id
  | attr k id => ascii "attribute " ++ k ++ ascii " differs at " ++ id
  | fewer id => ascii "server DOM has fewer children at " ++ id
  | expected id => ascii "text expected at " ++ id
  | text id => ascii "text differs at " ++ id
  | more id => ascii "server DOM has more children at " ++ id
  | missing => []

abbrev Parity := List Dom → Except Reason Unit

/-- `k == "value" && (v.Tag == "select" || v.Tag == "textarea")` -/
def skipsAttr (tag k : Bytes) : Bool :=
  k = ascii "value" ∧ (tag = ascii "select" ∨ tag = ascii "textarea")

/-- The attributes, in the order in which `range` gives them. -/
def checkAttrs (v : VNode) (node : Dom) : Attributes → Except Reason Unit
  | [] => .ok ()
  | (k, want) :: attrs =>
      if skipsAttr v.tag k then checkAttrs v node attrs
      else if node.attr k = some want then checkAttrs v node attrs
      else .error (.attr k v.skyID)

/-- The slots against the children from `dom` on. -/
def checkSlots (v : VNode) (checks : List Parity) : List Slot → List Dom → Except Reason Unit
  | [], [] => .ok ()
  | [], _ :: _ => .error (.more v.skyID)
  | _ :: _, [] => .error (.fewer v.skyID)
  | .child i :: slots, dom :: rest => do
      match checks[i]? with
      | none => .error .missing
      | some check => do
          check (dom :: rest)
          checkSlots v checks slots rest
  | .texts ts :: slots, dom :: rest =>
      match dom with
      | .element .. => .error (.expected v.skyID)
      | .text data =>
          if Utf8.encode data = ts.flatten then checkSlots v checks slots rest
          else .error (.text v.skyID)

/-- The first of the nodes against `v`, whose children have the given checks. -/
def checkNode (v : VNode) (checks : List Parity) : Parity
  | node@(.element _ tag _ children) :: _ =>
      if tag ≠ v.tag then .error (.tag v.skyID tag v.tag)
      else if v.skyID ≠ [] ∧ node.attr (ascii "sky-id") ≠ some v.skyID then
        .error (.skyID v.skyID)
      else do
        checkAttrs v node v.attrs
        if v.closed then .ok ()
        else
          let dom := if v.tag = ascii "form" then spaSkipServerCsrfInput children else children
          checkSlots v checks (spaSSRSlots v) dom
  | _ => .error (.noElement v.skyID)

mutual

/-- The node is the first of the list, its siblings are the others. -/
def spaHydrationParity : VNode → Parity
  | .mk kind tag text attrs children skyID =>
      checkNode (.mk kind tag text attrs children skyID) (spaHydrationParityAll children)

def spaHydrationParityAll : List VNode → List Parity
  | [] => []
  | c :: cs => spaHydrationParity c :: spaHydrationParityAll cs

end

/-- `spaCanHydrate` -/
def spaCanHydrate (dom : Dom) (root : VNode) : Except Reason Unit := spaHydrationParity root [dom]

/-! ## The splitting -/

/-- `for _, r := range s` -/
def spaUTF16Len (s : Bytes) : ℕ :=
  (Utf8.runes.pieces s).foldl (fun n c => if Utf8.rune c ≥ 0x10000 then n + 2 else n + 1) 0

/-- The nodes before the cursor, the node at it and those behind it. -/
structure Cursor where
  before : List Dom
  node : Dom
  rest : List Dom

/-- `dom = dom.SplitText(offset)` -/
def Cursor.split (c : Cursor) (offset : ℕ) : Option Cursor :=
  (c.node.splitText offset).map fun p => ⟨c.before ++ [p.1], p.2, c.rest⟩

abbrev Hydrate := Dom → Option Dom

/-- The slots over the children from the cursor on; the result is the whole child list. -/
def hydrateSlots (runs : List Hydrate) : List Slot → List Dom → List Dom → Option (List Dom)
  | [], before, rest => some (before ++ rest)
  | _ :: _, before, [] => some before
  | .child i :: slots, before, dom :: rest => do
      let run ← runs[i]?
      let dom ← run dom
      hydrateSlots runs slots (before ++ [dom]) rest
  | .texts ts :: slots, before, dom :: rest => do
      let c ← ts.dropLast.foldlM (fun c part => Cursor.split c (spaUTF16Len part))
        ⟨before, dom, rest⟩
      hydrateSlots runs slots (c.before ++ [c.node]) c.rest

def hydrateNode (v : VNode) (runs : List Hydrate) : Hydrate
  | .text data => some (.text data)
  | .element id tag attrs children =>
      if v.closed then some (.element id tag attrs children)
      else do
        let skipped :=
          if v.tag = ascii "form" ∧ spaIsServerCsrfInput children then children.take 1 else []
        let dom := if v.tag = ascii "form" then spaSkipServerCsrfInput children else children
        let children ← hydrateSlots runs (spaSSRSlots v) skipped dom
        some (.element id tag attrs children)

mutual

def spaHydrateTextRuns : VNode → Hydrate
  | .mk kind tag text attrs children skyID =>
      hydrateNode (.mk kind tag text attrs children skyID) (spaHydrateTextRunsAll children)

def spaHydrateTextRunsAll : List VNode → List Hydrate
  | [] => []
  | c :: cs => spaHydrateTextRuns c :: spaHydrateTextRunsAll cs

end

end Sky.Hydration
