import Mathlib

/-! # The exhaustiveness check: unions, patterns, and the walk over `case` expressions -/

namespace Sky.Exhaustive

abbrev Name := String
abbrev DefId := ℕ
abbrev LocalId := ℕ
abbrev Span := ℕ × ℕ

/-! ## Patterns and expressions -/

structure CtorRef where
  ctor : DefId
  type_ : DefId
  deriving DecidableEq

inductive Pattern where
  | anything
  | var (l : LocalId)
  | unit
  | bool (b : Bool)
  | chr (s : String)
  | str (s : String)
  | int (n : ℤ)
  | float (literal : String)
  | record (fields : List (Name × LocalId))
  | aliased (inner : Pattern) (l : LocalId)
  | tuple (ps : List Pattern)
  | list (ps : List Pattern)
  | cons (head tail : Pattern)
  | ctor (ref : Option CtorRef) (name : Name) (args : List Pattern)
  | error

/-- An expression; a `case` keeps the span of its subject. -/
inductive Expr where
  | leaf
  | list (xs : List Expr)
  | tuple (xs : List Expr)
  | record (fields : List (Name × Expr))
  | update (base : Expr) (fields : List (Name × Expr))
  | negate (x : Expr)
  | access (x : Expr) (field : Name)
  | lambda (params : List Pattern) (body : Expr)
  | call (callee : Expr) (args : List Expr)
  | binop (op : Name) (lhs rhs : Expr)
  | ifElse (arms : List (Expr × Expr)) (els : Expr)
  | letIn (defs : List (Name × Expr)) (body : Expr)
  | caseOf (subject : Expr) (span : Option Span) (branches : List (Pattern × Expr))

/-! ## The world's union tables -/

inductive Ty where
  | var (name : Name)
  | int
  | float
  | str
  | chr
  | bool
  | unit
  | tuple (ts : List Ty)
  | list (t : Ty)
  | record (fields : List (Name × Ty))
  | arrow (a b : Ty)
  | union (d : DefId) (args : List Ty)
  | foreign (name : Name)

structure Variant where
  ctor : DefId
  name : Name
  args : List Ty

structure UnionDecl where
  type_ : DefId
  name : Name
  params : List Name
  variants : List Variant

def UnionDecl.memberNames (u : UnionDecl) : List Name := u.variants.map (·.name)

/-- The tables of the world that constructor patterns are read through. -/
structure World where
  ctors : Name → Option (UnionDecl × Variant)
  ctorUnion : Name → Option Name
  unionCtors : Name → Option (List Name)
  unionMembersByDef : DefId → Option (List Name)

/-- The prelude's `Maybe` and `Result`. -/
def maybeDecl : UnionDecl :=
  { type_ := 0, name := "Maybe", params := ["a"],
    variants := [⟨1, "Just", [.var "a"]⟩, ⟨2, "Nothing", []⟩] }

def resultDecl : UnionDecl :=
  { type_ := 3, name := "Result", params := ["e", "a"],
    variants := [⟨4, "Ok", [.var "a"]⟩, ⟨5, "Err", [.var "e"]⟩] }

def prelude : List UnionDecl := [maybeDecl, resultDecl]

namespace World

variable (world : World)

def empty : World := ⟨fun _ => none, fun _ => none, fun _ => none, fun _ => none⟩

def insertCtor (u : UnionDecl) (v : Variant) : World :=
  { world with
    ctors := Function.update world.ctors v.name (some (u, v))
    ctorUnion := Function.update world.ctorUnion v.name (some u.name) }

def insertCtors (u : UnionDecl) : List Variant → World → World
  | [], world => world
  | v :: vs, world => insertCtors u vs (world.insertCtor u v)

def insertUnionCtors (name : Name) (members : List Name) : World :=
  { world with unionCtors := Function.update world.unionCtors name (some members) }

/-- The union and its constructors, by their bare names. -/
def insertByName (u : UnionDecl) : World :=
  (insertCtors u u.variants world).insertUnionCtors u.name u.memberNames

def seedBuiltinCtors : World :=
  let world := (empty.insertByName maybeDecl).insertByName resultDecl
  let world := world.insertUnionCtors "Bool" ["True", "False"]
  { world with
    ctorUnion := Function.update (Function.update world.ctorUnion "True" (some "Bool"))
      "False" (some "Bool") }

def recordUnion (u : UnionDecl) : World :=
  let world := world.insertByName u
  { world with
    unionMembersByDef := Function.update world.unionMembersByDef u.type_ (some u.memberNames) }

def build (decls : List UnionDecl) : World := decls.foldl recordUnion seedBuiltinCtors

end World

/-! ## The check of one `case` -/

structure Diagnostic where
  severity : Name := "warning"
  code : String := "E3001"
  message : String
  labels : List (Span × String)
  suggestion : Option String := none
  deriving DecidableEq

/-- What the head of a branch covers. -/
inductive Head where
  | cover
  | ctor (name : Name) (type_ : Option DefId)
  | literal
  | other
  deriving DecidableEq

def classify : Pattern → Head
  | .anything | .var _ => .cover
  | .record _ | .tuple _ | .unit => .cover
  | .aliased inner _ => classify inner
  | .ctor ref name _ => .ctor name (ref.map (·.type_))
  | .bool b => .ctor (if b then "True" else "False") none
  | .int _ | .str _ | .chr _ => .literal
  | .float _ | .list _ | .cons _ _ | .error => .other

structure Coverage where
  covered : List Name := []
  unionDef : Option DefId := none
  hasLiteral : Bool := false
  deriving DecidableEq

/-- Insert into an ordered set of names. -/
def insertName (c : Name) (covered : List Name) : List Name :=
  if c ∈ covered then covered else covered.orderedInsert (· ≤ ·) c

/-- The loop over the branches; `none` when a head covers everything. -/
def scan : List (Pattern × Expr) → Coverage → Option Coverage
  | [], acc => some acc
  | (p, _) :: brs, acc =>
      match classify p with
      | .cover => none
      | .ctor c d =>
          scan brs { acc with covered := insertName c acc.covered, unionDef := acc.unionDef.or d }
      | .literal => scan brs { acc with hasLiteral := true }
      | .other => scan brs acc

def errorDetailsCore : List Name :=
  ["FfiPanic", "TypeMismatch", "HttpStatus", "JsonDecode", "Custom"]

def openUnionHint (all missing : List Name) : Option String :=
  let isErrorDetails := "Domain" ∈ all ∧ ∀ c ∈ errorDetailsCore, c ∈ all
  if ¬isErrorDetails ∨ "Domain" ∉ missing then none
  else some ("`Sky.Core.Error.ErrorDetails` gained `Domain DomainFailure` in v0.28.0: the failures of a " ++
    "stdlib domain (for example Std.Ai) or of your app. Add a `_ ->` branch, or use the " ++
    "generic helpers `Error.domain`, `Error.isRetryable` and `Error.retryAfter` (or a " ++
    "domain's typed view, such as `Std.Ai.Failure.fromError`), so later domains need no " ++
    "change here. See docs/migration/v0.28.md#a-new-errordetails-variant.")

def subjectLabel (span : Option Span) : List (Span × String) :=
  span.toList.map fun s => (s, "this `case` is not exhaustive")

/-- The members of the union that the heads belong to: by its definition, else by name. -/
def Coverage.members (world : World) (acc : Coverage) : Option (List Name) :=
  (acc.unionDef.bind world.unionMembersByDef).or
    ((acc.covered.head?.bind world.ctorUnion).bind world.unionCtors)

def checkCase (world : World) (span : Option Span) (branches : List (Pattern × Expr)) :
    List Diagnostic :=
  match scan branches {} with
  | none => []
  | some acc =>
      if acc.covered = [] then
        if acc.hasLiteral then
          [{ message := "This `case` does not cover all cases — literal patterns need a " ++
              "catch-all `_` arm"
             labels := subjectLabel span }]
        else []
      else
        match acc.members world with
        | none => []
        | some all =>
            let missing := all.filter (· ∉ acc.covered)
            if missing = [] then []
            else
              [{ message := "This `case` does not cover all cases — missing: " ++
                  String.intercalate ", " missing
                 labels := subjectLabel span
                 suggestion := openUnionHint all missing }]

/-! ## The walk over a body -/

mutual

def walk (world : World) : Expr → List Diagnostic
  | .leaf => []
  | .list xs | .tuple xs => walkAll world xs
  | .record fields => walkFields world fields
  | .update base fields => walk world base ++ walkFields world fields
  | .negate x | .access x _ => walk world x
  | .lambda _ body => walk world body
  | .call callee args => walk world callee ++ walkAll world args
  | .binop _ lhs rhs => walk world lhs ++ walk world rhs
  | .ifElse arms els => walkArms world arms ++ walk world els
  | .letIn defs body => walkFields world defs ++ walk world body
  | .caseOf subject span branches =>
      walk world subject ++ checkCase world span branches ++ walkBranches world branches

def walkAll (world : World) : List Expr → List Diagnostic
  | [] => []
  | x :: xs => walk world x ++ walkAll world xs

def walkFields (world : World) : List (Name × Expr) → List Diagnostic
  | [] => []
  | (_, x) :: xs => walk world x ++ walkFields world xs

def walkArms (world : World) : List (Expr × Expr) → List Diagnostic
  | [] => []
  | (c, t) :: arms => walk world c ++ walk world t ++ walkArms world arms

def walkBranches (world : World) : List (Pattern × Expr) → List Diagnostic
  | [] => []
  | (_, body) :: brs => walk world body ++ walkBranches world brs

end

def checkBody (world : World) (root : Option Expr) : List Diagnostic :=
  root.toList.flatMap (walk world)

end Sky.Exhaustive
