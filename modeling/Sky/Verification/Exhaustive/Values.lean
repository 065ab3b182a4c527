import Sky.Model.Exhaustive

/-! # Values, and when a pattern matches one -/

namespace Sky.Exhaustive

inductive Value where
  | int (n : ℤ)
  | float (bits : ℕ)
  | str (s : String)
  | chr (s : String)
  | bool (b : Bool)
  | unit
  | tuple (vs : List Value)
  | list (vs : List Value)
  | record (fields : List (Name × Value))
  | closure (id : ℕ)
  | ctor (type_ : DefId) (name : Name) (args : List Value)
  | foreign (name : Name) (id : ℕ)

/-! ## Types of values and patterns -/

mutual

/-- Substitute the type variables of a declaration. -/
def Ty.subst (env : List (Name × Ty)) : Ty → Ty
  | .var a => (env.lookup a).getD (.var a)
  | .int => .int
  | .float => .float
  | .str => .str
  | .chr => .chr
  | .bool => .bool
  | .unit => .unit
  | .tuple ts => .tuple (Ty.substAll env ts)
  | .list t => .list (t.subst env)
  | .record fields => .record (Ty.substFields env fields)
  | .arrow a b => .arrow (a.subst env) (b.subst env)
  | .union d args => .union d (Ty.substAll env args)
  | .foreign name => .foreign name

def Ty.substAll (env : List (Name × Ty)) : List Ty → List Ty
  | [] => []
  | t :: ts => t.subst env :: Ty.substAll env ts

def Ty.substFields (env : List (Name × Ty)) : List (Name × Ty) → List (Name × Ty)
  | [] => []
  | (n, t) :: fields => (n, t.subst env) :: Ty.substFields env fields

end

/-- The argument types of a constructor at an instance of its union. -/
def UnionDecl.argTys (u : UnionDecl) (v : Variant) (targs : List Ty) : List Ty :=
  Ty.substAll (u.params.zip targs) v.args

/-- The unions a program declares: one definition each, a constructor name once. -/
structure Program where
  decls : List UnionDecl
  distinct : ((prelude ++ decls).map (·.type_)).Nodup
  nonempty : ∀ u ∈ decls, u.variants ≠ []
  variantsDistinct : ∀ u ∈ prelude ++ decls, u.memberNames.Nodup
  keywordFree : ∀ u ∈ decls, "True" ∉ u.memberNames ∧ "False" ∉ u.memberNames

namespace Program

variable (P : Program)

def unions : List UnionDecl := prelude ++ P.decls

def world : World := World.build P.decls

theorem eq_of_type_eq {u u' : UnionDecl} (hu : u ∈ P.unions) (hu' : u' ∈ P.unions)
    (h : u.type_ = u'.type_) : u = u' :=
  List.inj_on_of_nodup_map P.distinct hu hu' h

theorem variant_eq {u : UnionDecl} (hu : u ∈ P.unions) {v v' : Variant} (hv : v ∈ u.variants)
    (hv' : v' ∈ u.variants) (h : v.name = v'.name) : v = v' :=
  List.inj_on_of_nodup_map (P.variantsDistinct u hu) hv hv' h

theorem unions_nonempty {u : UnionDecl} (hu : u ∈ P.unions) : u.variants ≠ [] := by
  rcases List.mem_append.mp hu with hu | hu
  · have hprelude : ∀ u ∈ prelude, u.variants ≠ [] := by simp [prelude, maybeDecl, resultDecl]
    exact hprelude u hu
  · exact P.nonempty u hu

theorem unions_keywordFree {u : UnionDecl} (hu : u ∈ P.unions) :
    "True" ∉ u.memberNames ∧ "False" ∉ u.memberNames := by
  rcases List.mem_append.mp hu with hu | hu
  · have hprelude : ∀ u ∈ prelude, "True" ∉ u.memberNames ∧ "False" ∉ u.memberNames := by
      simp [prelude, maybeDecl, resultDecl, UnionDecl.memberNames]
    exact hprelude u hu
  · exact P.keywordFree u hu

/-- The union and variant a constructor pattern is typed at: the resolved constructor's own,
and for an unresolved name the world's last one of that name. -/
def Resolves (ref : Option CtorRef) (name : Name) (u : UnionDecl) (v : Variant) : Prop :=
  match ref with
  | some cr => u ∈ P.unions ∧ v ∈ u.variants ∧ u.type_ = cr.type_ ∧ v.ctor = cr.ctor ∧ v.name = name
  | none => P.world.ctors name = some (u, v)

/-- A value has a type. -/
inductive HasTy : Value → Ty → Prop where
  | int n : HasTy (.int n) .int
  | float b : HasTy (.float b) .float
  | str s : HasTy (.str s) .str
  | chr s : HasTy (.chr s) .chr
  | bool b : HasTy (.bool b) .bool
  | unit : HasTy .unit .unit
  | tuple {vs ts} : List.Forall₂ HasTy vs ts → HasTy (.tuple vs) (.tuple ts)
  | list {vs t} : (∀ v ∈ vs, HasTy v t) → HasTy (.list vs) (.list t)
  | record {fields ts} : fields.map (·.1) = ts.map (·.1) →
      List.Forall₂ HasTy (fields.map (·.2)) (ts.map (·.2)) → HasTy (.record fields) (.record ts)
  | closure id a b : HasTy (.closure id) (.arrow a b)
  | ctor {u v args targs} : u ∈ P.unions → v ∈ u.variants →
      List.Forall₂ HasTy args (u.argTys v targs) →
        HasTy (.ctor u.type_ v.name args) (.union u.type_ targs)
  | foreign name id : HasTy (.foreign name id) (.foreign name)

/-- A pattern is typed at a subject's type. -/
inductive PatTy : Pattern → Ty → Prop where
  | anything t : PatTy .anything t
  | var l t : PatTy (.var l) t
  | unit : PatTy .unit .unit
  | bool b : PatTy (.bool b) .bool
  | chr s : PatTy (.chr s) .chr
  | str s : PatTy (.str s) .str
  | int n : PatTy (.int n) .int
  | record {fields : List (Name × LocalId)} {ts} :
      (∀ f ∈ fields, ∃ t, (f.1, t) ∈ ts) → PatTy (.record fields) (.record ts)
  | aliased {p t} l : PatTy p t → PatTy (.aliased p l) t
  | tuple {ps ts} : List.Forall₂ PatTy ps ts → PatTy (.tuple ps) (.tuple ts)
  | list {ps t} : (∀ p ∈ ps, PatTy p t) → PatTy (.list ps) (.list t)
  | cons {h tl t} : PatTy h t → PatTy tl (.list t) → PatTy (.cons h tl) (.list t)
  | ctor {ref name args u v targs} : P.Resolves ref name u v →
      List.Forall₂ PatTy args (u.argTys v targs) →
        PatTy (.ctor ref name args) (.union u.type_ targs)

end Program

/-! ## Matching -/

mutual

/-- The test a branch makes on its subject. -/
def Pattern.matchesValue : Pattern → Value → Bool
  | .anything, _ | .var _, _ | .unit, _ | .record _, _ | .float _, _ | .error, _ => true
  | .bool b, v => match v with | .bool b' => b == b' | _ => false
  | .chr s, v => match v with | .chr s' => s == s' | _ => false
  | .str s, v => match v with | .str s' => s == s' | _ => false
  | .int n, v => match v with | .int n' => n == n' | _ => false
  | .aliased p _, v => p.matchesValue v
  | .tuple ps, v => match v with | .tuple vs => Pattern.matchesAll ps vs | _ => false
  | .list ps, v => match v with | .list vs => Pattern.matchesAll ps vs | _ => false
  | .cons h t, v =>
      match v with
      | .list (x :: xs) => h.matchesValue x && t.matchesValue (.list xs)
      | _ => false
  | .ctor _ name args, v =>
      match v with
      | .ctor _ name' vs => name == name' && Pattern.matchesAll args vs
      | _ => false

def Pattern.matchesAll : List Pattern → List Value → Bool
  | [], [] => true
  | p :: ps, v :: vs => p.matchesValue v && Pattern.matchesAll ps vs
  | _, _ => false

end

/-- The head of the pattern takes the value, its arguments not looked at. -/
def Pattern.headTakes : Pattern → Value → Bool
  | .aliased p _, v => p.headTakes v
  | .bool b, v => match v with | .bool b' => b == b' | _ => false
  | .ctor _ name _, v => match v with | .ctor _ name' _ => name == name' | _ => false
  | .anything, _ | .var _, _ | .unit, _ | .record _, _ | .tuple _, _ => true
  | _, _ => false

mutual

/-- The pattern is built from variables, wildcards, units, records, tuples and aliases only. -/
def Pattern.irrefutable : Pattern → Bool
  | .anything | .var _ | .unit | .record _ => true
  | .aliased p _ => p.irrefutable
  | .tuple ps => Pattern.irrefutableAll ps
  | _ => false

def Pattern.irrefutableAll : List Pattern → Bool
  | [] => true
  | p :: ps => p.irrefutable && Pattern.irrefutableAll ps

end

/-- The head's arguments are irrefutable. -/
def Pattern.argsIrrefutable : Pattern → Bool
  | .aliased p _ => p.argsIrrefutable
  | .ctor _ _ args => Pattern.irrefutableAll args
  | .bool _ => true
  | p => p.irrefutable

namespace Program

variable (P : Program)

mutual

theorem matchesValue_of_irrefutable {p : Pattern} {v : Value} {t : Ty} (hp : p.irrefutable)
    (hpt : P.PatTy p t) (hvt : P.HasTy v t) : p.matchesValue v := by
  cases p with
  | anything => rfl
  | var l => rfl
  | unit => rfl
  | record fields => rfl
  | aliased p l =>
      cases hpt with
      | aliased _ hpt =>
          rw [Pattern.matchesValue]
          exact matchesValue_of_irrefutable (by simpa [Pattern.irrefutable] using hp) hpt hvt
  | tuple ps =>
      cases hpt with
      | tuple hps =>
          cases hvt with
          | tuple hvs =>
              rw [Pattern.matchesValue]
              exact matchesAll_of_irrefutable (by simpa [Pattern.irrefutable] using hp) hps hvs
  | _ => simp [Pattern.irrefutable] at hp

theorem matchesAll_of_irrefutable {ps : List Pattern} {vs : List Value} {ts : List Ty}
    (hp : Pattern.irrefutableAll ps) (hps : List.Forall₂ P.PatTy ps ts)
    (hvs : List.Forall₂ P.HasTy vs ts) : Pattern.matchesAll ps vs := by
  cases ps with
  | nil =>
      cases hps
      cases hvs
      rfl
  | cons p ps =>
      cases hps with
      | cons hpt hps =>
          cases hvs with
          | cons hvt hvs =>
              simp only [Pattern.irrefutableAll, Bool.and_eq_true] at hp
              simp only [Pattern.matchesAll, Bool.and_eq_true]
              exact ⟨matchesValue_of_irrefutable hp.1 hpt hvt,
                matchesAll_of_irrefutable hp.2 hps hvs⟩

end

theorem hasTy_union_args {u : UnionDecl} {targs : List Ty} {v : Value} (hu : u ∈ P.unions)
    (h : P.HasTy v (.union u.type_ targs)) :
    ∃ v' ∈ u.variants, ∃ args, v = .ctor u.type_ v'.name args ∧
      List.Forall₂ P.HasTy args (u.argTys v' targs) := by
  generalize ht : Ty.union u.type_ targs = t at h
  cases h with
  | ctor hu' hv' hargs =>
      rw [Ty.union.injEq] at ht
      obtain ⟨htype, rfl⟩ := ht
      obtain rfl := P.eq_of_type_eq hu hu' htype
      exact ⟨_, hv', _, rfl, hargs⟩
  | _ => cases ht

theorem hasTy_union {u : UnionDecl} {targs : List Ty} {v : Value} (hu : u ∈ P.unions)
    (h : P.HasTy v (.union u.type_ targs)) :
    ∃ v' ∈ u.variants, ∃ args, v = .ctor u.type_ v'.name args := by
  obtain ⟨v', hv', args, heq, _⟩ := P.hasTy_union_args hu h
  exact ⟨v', hv', args, heq⟩

end Program

end Sky.Exhaustive
