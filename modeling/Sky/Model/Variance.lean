import Mathlib
import Sky.Library.Sweep

/-! # Types and the variance of their constructors

What a union's parameters are is found by sweeps over the constructors of all unions. -/

namespace Sky.Types

/-! ## Types -/

/-- A canonical type. A record has its fields and its row variable, if it is extensible. -/
inductive Ty where
  | var (n : String)
  | fn (a b : Ty)
  | app (name : String) (args : List Ty)
  | record (fields : List (String × Ty)) (ext : Option String)
  | tuple (xs : List Ty)
  | unit
  | error

namespace Ty

/-- What holds of a type if it holds of its parts. -/
@[elab_as_elim]
theorem induction {P : Ty → Prop} (var : ∀ n, P (.var n)) (fn : ∀ a b, P a → P b → P (.fn a b))
    (app : ∀ name args, (∀ a ∈ args, P a) → P (.app name args))
    (record : ∀ fields ext, (∀ f ∈ fields, P f.2) → P (.record fields ext))
    (tuple : ∀ xs, (∀ x ∈ xs, P x) → P (.tuple xs)) (unit : P .unit) (error : P .error)
    (t : Ty) : P t := by
  refine Ty.rec (motive_1 := P) (motive_2 := fun l => ∀ a ∈ l, P a)
    (motive_3 := fun l => ∀ f ∈ l, P f.2) (motive_4 := fun f => P f.2) var fn app record tuple unit
    error ?_ ?_ ?_ ?_ ?_ t
  · simp
  · exact fun a l ha hl => List.forall_mem_cons.2 ⟨ha, hl⟩
  · simp
  · exact fun f l hf hl => List.forall_mem_cons.2 ⟨hf, hl⟩
  · exact fun _ _ h => h

/-! ## Substitution -/

/-- The fields of a record that a row variable stands for, which the record does not name itself. -/
def addFields (fields more : List (String × Ty)) : List (String × Ty) :=
  more.foldl (fun fields f => if fields.any fun g => g.1 = f.1 then fields else fields ++ [f]) fields

/-- A record whose row variable `e` is bound. -/
def bindRow (fields : List (String × Ty)) (e : String) : Option Ty → Ty
  | none => .record fields (some e)
  | some (.var v) => .record fields (some v)
  | some (.record more ext) => .record (addFields fields more) ext
  | some _ => .record fields (some e)

mutual

def substVars (sub : String → Option Ty) : Ty → Ty
  | .var n => (sub n).getD (.var n)
  | .fn a b => .fn (substVars sub a) (substVars sub b)
  | .app name args => .app name (substAll sub args)
  | .tuple xs => .tuple (substAll sub xs)
  | .record fields none => .record (substFields sub fields) none
  | .record fields (some e) => bindRow (substFields sub fields) e (sub e)
  | .unit => .unit
  | .error => .error

def substAll (sub : String → Option Ty) : List Ty → List Ty
  | [] => []
  | x :: xs => substVars sub x :: substAll sub xs

def substFields (sub : String → Option Ty) : List (String × Ty) → List (String × Ty)
  | [] => []
  | (n, t) :: fields => (n, substVars sub t) :: substFields sub fields

end

mutual

def renameVars (m : String → Option String) : Ty → Ty
  | .var n => .var ((m n).getD n)
  | .fn a b => .fn (renameVars m a) (renameVars m b)
  | .app name args => .app name (renameAll m args)
  | .record fields ext => .record (renameFields m fields) (ext.map fun e => (m e).getD e)
  | .tuple xs => .tuple (renameAll m xs)
  | .unit => .unit
  | .error => .error

def renameAll (m : String → Option String) : List Ty → List Ty
  | [] => []
  | x :: xs => renameVars m x :: renameAll m xs

def renameFields (m : String → Option String) : List (String × Ty) → List (String × Ty)
  | [] => []
  | (n, t) :: fields => (n, renameVars m t) :: renameFields m fields

end

theorem substAll_eq (sub : String → Option Ty) (xs : List Ty) :
    substAll sub xs = xs.map (substVars sub) := by
  induction xs with
  | nil => rfl
  | cons x xs ih => rw [substAll, ih, List.map_cons]

theorem substFields_eq (sub : String → Option Ty) (fields : List (String × Ty)) :
    substFields sub fields = fields.map fun f => (f.1, substVars sub f.2) := by
  induction fields with
  | nil => rfl
  | cons f fields ih => rw [substFields, ih, List.map_cons]

theorem renameAll_eq (m : String → Option String) (xs : List Ty) :
    renameAll m xs = xs.map (renameVars m) := by
  induction xs with
  | nil => rfl
  | cons x xs ih => rw [renameAll, ih, List.map_cons]

theorem renameFields_eq (m : String → Option String) (fields : List (String × Ty)) :
    renameFields m fields = fields.map fun f => (f.1, renameVars m f.2) := by
  induction fields with
  | nil => rfl
  | cons f fields ih => rw [renameFields, ih, List.map_cons]

end Ty

/-! ## Variances -/

inductive Variance where
  /-- Does not occur. -/
  | bi
  | co
  | contra
  | inv
  deriving DecidableEq

namespace Variance

def join : Variance → Variance → Variance
  | bi, x => x
  | x, bi => x
  | a, b => if a = b then a else inv

def flip : Variance → Variance
  | co => contra
  | contra => co
  | v => v

/-- The polarity of a position inside a position `outer`. -/
def compose (outer : Variance) : Variance → Variance
  | bi => bi
  | inv => inv
  | co => outer
  | contra => outer.flip

def generalisable : Variance → Bool
  | bi | co => true
  | contra | inv => false

end Variance

/-- Constructors that are covariant in every parameter. -/
def covariantStdlib : List String :=
  ["List", "Maybe", "Result", "Dict", "Set", "Sky.Core.Array.Array", "Task", "Cmd", "Sub", "Decoder",
    "Std.Config.Decoder", "Std.Html.Html", "Std.Html.Attributes.Attribute",
    "Std.Html.Attributes.Event", "Std.Ui.Element", "Std.Ui.Attribute", "Std.Ui.Canvas.Shape",
    "Std.Ui.Canvas.Attr", "Std.App.Route", "Route", "Attribute"]

/-- The variances of a constructor's parameters, in order. -/
structure Params where
  list : List Variance := []
  deriving DecidableEq

/-- The variances of each constructor. One that is not known has none. -/
abbrev VarianceTable : Type := String → Params

namespace VarianceTable

variable (table : VarianceTable)

/-- The variance of parameter `i` of a constructor that is applied to `arity` arguments. -/
def param (name : String) (i arity : ℕ) : Variance :=
  if name ∈ covariantStdlib then .co
  else
    let vs := (table name).list
    if vs.length = arity then vs.getD i .inv else .inv

mutual

/-- The variance of all occurrences of the variable `v` in a type at polarity `pol`. -/
def occurrence (v : String) : Ty → Variance → Variance
  | .var n, pol => if n = v then pol else .bi
  | .fn a b, pol => (occurrence v a pol.flip).join (occurrence v b pol)
  | .app name args, pol => occurrenceArgs v name args.length pol args 0 .bi
  | .record fields ext, pol => occurrenceFields v pol fields (if ext = some v then pol else .bi)
  | .tuple xs, pol => occurrenceAll v pol xs .bi
  | .unit, _ => .bi
  | .error, _ => .bi

def occurrenceArgs (v name : String) (arity : ℕ) (pol : Variance) :
    List Ty → ℕ → Variance → Variance
  | [], _, out => out
  | a :: args, i, out =>
      let pos := Variance.compose pol (table.param name i arity)
      let occ := occurrence v a .co
      occurrenceArgs v name arity pol args (i + 1)
        (if pos = .bi ∨ occ = .bi then out else out.join (Variance.compose pos occ))

def occurrenceFields (v : String) (pol : Variance) : List (String × Ty) → Variance → Variance
  | [], out => out
  | (_, t) :: fields, out => occurrenceFields v pol fields (out.join (occurrence v t pol))

def occurrenceAll (v : String) (pol : Variance) : List Ty → Variance → Variance
  | [], out => out
  | x :: xs, out => occurrenceAll v pol xs (out.join (occurrence v x pol))

end

end VarianceTable

/-! ## Unions -/

/-- The scheme of a constructor, `arg₁ -> … -> T p₁ … pₙ`, and whether its module is one of the
standard library. -/
structure Ctor where
  stdlib : Bool
  scheme : Ty

/-- The argument types and the result of a constructor's type. -/
def Ty.spine : Ty → List Ty × Ty
  | .fn a b => (a :: b.spine.1, b.spine.2)
  | t => ([], t)

def Ty.varName : Ty → Option String
  | .var n => some n
  | _ => none

structure Union where
  params : List String
  args : List Ty := []
  stdlib : Bool

/-- What a map that is collected from pairs gives: the last pair counts. -/
def collected {β : Type} (pairs : List (String × β)) (n : String) : Option β :=
  pairs.reverse.lookup n

/-- A constructor joins its union, under the parameter names that the union was first seen with. -/
def addCtor (unions : AList fun _ : String => Union) (c : Ctor) : AList fun _ : String => Union :=
  match c.scheme.spine with
  | (args, .app name targs) =>
      let params := targs.filterMap Ty.varName
      if params.length ≠ targs.length then unions
      else
        let entry := (unions.lookup name).getD { params := params, stdlib := c.stdlib }
        let rename := collected (params.zip entry.params)
        unions.insert name
          { entry with
            stdlib := entry.stdlib || c.stdlib
            args := entry.args ++ args.map (Ty.renameVars rename) }
  | _ => unions

def Union.isUser (name : String) (u : Union) : Bool := name ∉ covariantStdlib && !u.stdlib

/-- The variances that the constructors of a union give its parameters. -/
def Union.next (table : VarianceTable) (u : Union) : Params where
  list := u.params.map fun p => u.args.foldl (fun v a => v.join (table.occurrence p a .co)) .bi

namespace VarianceTable

variable (unions : AList fun _ : String => Union)

def userUnions : List String :=
  (unions.keys.filter fun name => (unions.lookup name).any (Union.isUser name)).mergeSort

/-- The right-hand side for a union. -/
def equation (name : String) (table : VarianceTable) : Params :=
  match unions.lookup name with
  | some u => u.next table
  | none => table name

/-- Where the sweeps start: the user's unions have no occurrences yet. -/
def seeded (fixed : VarianceTable) : VarianceTable := fun name =>
  match unions.lookup name with
  | some u => if u.isUser name then ⟨List.replicate u.params.length .bi⟩ else fixed name
  | none => fixed name

/-- The variances can go up twice for each parameter. -/
def sweeps : ℕ :=
  ((userUnions unions).map fun name =>
    2 * ((unions.lookup name).map fun u => u.params.length).getD 0).sum + 1

/-- The table over fixed variances of the constructors that are not the user's. -/
def buildOver (fixed : VarianceTable) (ctors : List Ctor) : Option VarianceTable :=
  let unions := ctors.foldl addCtor ∅
  Library.Sweep.settle (equation unions) (userUnions unions) (sweeps unions) (seeded unions fixed)

/-- The fixed variances: the listed constructors are covariant, others of the library invariant. -/
def stdlibSeeds (ctors : List Ctor) : VarianceTable := fun name =>
  match (ctors.foldl addCtor ∅).lookup name with
  | some u =>
      ⟨List.replicate u.params.length (if name ∈ covariantStdlib then .co else .inv)⟩
  | none => {}

def build (ctors : List Ctor) : Option VarianceTable := buildOver (stdlibSeeds ctors) ctors

end VarianceTable

end Sky.Types
