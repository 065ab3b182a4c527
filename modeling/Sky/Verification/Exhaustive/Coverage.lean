import Sky.Verification.Exhaustive.Heads

/-! # What an accepted `case` guarantees

An accepted list of branches leaves no value of its type over, and the walk checks every `case` of
a body. -/

namespace Sky.Exhaustive

/-! ## One `case` -/

section

/-! ## The loop over the branches -/

@[simp] theorem mem_insertName {c x : Name} {covered : List Name} :
    x ∈ insertName c covered ↔ x = c ∨ x ∈ covered := by
  unfold insertName
  split
  · constructor
    · exact Or.inr
    · intro h
      rcases h with rfl | h
      · assumption
      · exact h
  · simp [List.mem_orderedInsert]

/-- What the loop has gathered when no head covers everything. -/
structure ScanSpec (brs : List (Pattern × Expr)) (acc acc' : Coverage) : Prop where
  noCover : ∀ br ∈ brs, classify br.1 ≠ .cover
  covered : ∀ c, c ∈ acc'.covered ↔
    c ∈ acc.covered ∨ ∃ br ∈ brs, ∃ d, classify br.1 = .ctor c d
  unionDef_some : ∀ d, acc'.unionDef = some d →
    acc.unionDef = some d ∨ ∃ br ∈ brs, ∃ c, classify br.1 = .ctor c (some d)
  unionDef_none : acc'.unionDef = none → acc.unionDef = none ∧
    ∀ br ∈ brs, ∀ c d, classify br.1 = .ctor c d → d = none

theorem scan_spec {brs : List (Pattern × Expr)} {acc acc' : Coverage}
    (h : scan brs acc = some acc') : ScanSpec brs acc acc' := by
  induction brs generalizing acc with
  | nil =>
      rw [scan, Option.some.injEq] at h
      subst h
      exact ⟨by simp, by simp, fun d hd => Or.inl hd, fun hn => ⟨hn, by simp⟩⟩
  | cons br brs ih =>
      obtain ⟨p, body⟩ := br
      cases hp : classify p with
      | cover => simp [scan, hp] at h
      | ctor c d =>
          simp only [scan, hp] at h
          obtain ⟨hno, hcov, hsome, hnone⟩ := ih h
          refine ⟨?_, ?_, ?_, ?_⟩
          · simpa [hp] using hno
          · intro x
            rw [hcov]
            simp only [mem_insertName, List.mem_cons, exists_eq_or_imp, hp, Head.ctor.injEq]
            constructor
            · rintro ((rfl | hx) | hx)
              · exact Or.inr (Or.inl ⟨d, rfl, rfl⟩)
              · exact Or.inl hx
              · exact Or.inr (Or.inr hx)
            · rintro (hx | ⟨_, rfl, _⟩ | hx)
              · exact Or.inl (Or.inr hx)
              · exact Or.inl (Or.inl rfl)
              · exact Or.inr hx
          · intro d' hd'
            rcases hsome d' hd' with hd' | ⟨br, hbr, hc⟩
            · cases hacc : acc.unionDef with
              | none =>
                  simp only [hacc, Option.none_or] at hd'
                  exact Or.inr ⟨(p, body), List.mem_cons_self, c, by rw [hp, hd']⟩
              | some d₀ =>
                  simp only [hacc, Option.some_or] at hd'
                  exact Or.inl hd'
            · exact Or.inr ⟨br, List.mem_cons_of_mem _ hbr, hc⟩
          · intro hn
            obtain ⟨hor, hbrs⟩ := hnone hn
            rw [Option.or_eq_none_iff] at hor
            refine ⟨hor.1, ?_⟩
            intro br hbr c' d' hc'
            rcases List.mem_cons.mp hbr with rfl | hbr
            · rw [hp, Head.ctor.injEq] at hc'
              rw [← hc'.2, hor.2]
            · exact hbrs br hbr c' d' hc'
      | literal =>
          simp only [scan, hp] at h
          obtain ⟨hno, hcov, hsome, hnone⟩ := ih h
          exact ⟨by simpa [hp] using hno, by simpa [hp] using hcov, by simpa [hp] using hsome,
            by simpa [hp] using hnone⟩
      | other =>
          simp only [scan, hp] at h
          obtain ⟨hno, hcov, hsome, hnone⟩ := ih h
          exact ⟨by simpa [hp] using hno, by simpa [hp] using hcov, by simpa [hp] using hsome,
            by simpa [hp] using hnone⟩

theorem exists_cover_of_scan {brs : List (Pattern × Expr)} {acc : Coverage}
    (h : scan brs acc = none) : ∃ br ∈ brs, classify br.1 = .cover := by
  induction brs generalizing acc with
  | nil => simp [scan] at h
  | cons br brs ih =>
      obtain ⟨p, body⟩ := br
      cases hp : classify p with
      | cover => exact ⟨(p, body), List.mem_cons_self, hp⟩
      | _ =>
          simp only [scan, hp] at h
          obtain ⟨br, hbr, hcover⟩ := ih h
          exact ⟨br, List.mem_cons_of_mem _ hbr, hcover⟩

/-- Every member of the union is the head of a branch, where no head covers everything. -/
theorem members_subset_of_checkCase {world : World} {span : Option Span}
    {branches : List (Pattern × Expr)} {acc : Coverage} {all : List Name}
    (hscan : scan branches {} = some acc) (hcov : acc.covered ≠ [])
    (hall : acc.members world = some all) (hok : checkCase world span branches = []) :
    ∀ c ∈ all, c ∈ acc.covered := by
  simp only [checkCase, hscan, hcov, if_false, hall] at hok
  split at hok
  next hmissing =>
    intro c hc
    by_contra hnot
    have : c ∈ all.filter (· ∉ acc.covered) := by simp [hc, hnot]
    rw [hmissing] at this
    exact absurd this List.not_mem_nil
  next => simp at hok

/-! ## Heads of typed patterns -/

theorem headTakes_of_cover {p : Pattern} (h : classify p = .cover) (v : Value) : p.headTakes v := by
  cases p with
  | aliased p l => exact headTakes_of_cover (p := p) (by simpa [classify] using h) v
  | anything => rfl
  | var l => rfl
  | unit => rfl
  | record fields => rfl
  | tuple ps => rfl
  | _ => simp [classify] at h

namespace Program

variable (P : Program)

theorem resolves_mem {ref : Option CtorRef} {name : Name} {u : UnionDecl} {v : Variant}
    (h : P.Resolves ref name u v) : u ∈ P.unions ∧ v ∈ u.variants ∧ v.name = name := by
  cases ref with
  | none => exact P.coherent.ctors_mem name u v h
  | some cr => exact ⟨h.1, h.2.1, h.2.2.2.2⟩

/-- The head of a pattern typed at a union. -/
theorem classify_union {p : Pattern} {d : DefId} {targs : List Ty}
    (h : P.PatTy p (.union d targs)) :
    classify p = .cover ∨ ∃ ref name u v, classify p = .ctor name (ref.map (·.type_)) ∧
      P.Resolves ref name u v ∧ u.type_ = d ∧ ∀ t args, p.headTakes (.ctor t name args) := by
  cases p with
  | anything => exact Or.inl rfl
  | var l => exact Or.inl rfl
  | aliased p l =>
      cases h with
      | aliased _ h =>
          rcases classify_union (p := p) h with hc | ⟨ref, name, u, v, hc, hrest⟩
          · exact Or.inl hc
          · exact Or.inr ⟨ref, name, u, v, hc, hrest⟩
  | ctor ref name args =>
      cases h with
      | ctor hres hargs =>
          exact Or.inr ⟨ref, name, _, _, rfl, hres, rfl, by simp [Pattern.headTakes]⟩
  | _ => cases h

/-- The head of a pattern typed at `Bool`. -/
theorem classify_bool {p : Pattern} (h : P.PatTy p .bool) :
    classify p = .cover ∨ ∃ b : Bool, classify p = .ctor (if b then "True" else "False") none ∧
      p.headTakes (.bool b) := by
  cases p with
  | anything => exact Or.inl rfl
  | var l => exact Or.inl rfl
  | aliased p l =>
      cases h with
      | aliased _ h =>
          rcases classify_bool (p := p) h with hc | ⟨b, hc, htakes⟩
          · exact Or.inl hc
          · exact Or.inr ⟨b, hc, htakes⟩
  | bool b => exact Or.inr ⟨b, rfl, by simp [Pattern.headTakes]⟩
  | _ => cases h

/-! ## The members of the subject's union -/

/-- The heads are read at the subject's own union, whether a branch's constructor is resolved
or only known by name. -/
theorem members_eq {branches : List (Pattern × Expr)} {acc : Coverage} {u : UnionDecl}
    {targs : List Ty} (hu : u ∈ P.decls)
    (hty : ∀ br ∈ branches, P.PatTy br.1 (.union u.type_ targs))
    (hscan : scan branches {} = some acc) (hcov : acc.covered ≠ []) :
    ∃ all, acc.members P.world = some all ∧
      ((∀ c ∈ all, c ∈ acc.covered) → ∀ c ∈ u.memberNames, c ∈ acc.covered) := by
  have hspec := scan_spec hscan
  have hmem : u ∈ P.unions := List.mem_append_right _ hu
  have howner : ∀ {ref name u' v}, P.Resolves ref name u' v → u'.type_ = u.type_ → u' = u := by
    intro ref name u' v hres htype
    exact P.eq_of_type_eq (P.resolves_mem hres).1 hmem htype
  cases hdef : acc.unionDef with
  | some d =>
      -- a resolved head names the union itself
      have hd : d = u.type_ := by
        rcases hspec.unionDef_some d hdef with hd | ⟨br, hbr, c, hc⟩
        · simp at hd
        · rcases P.classify_union (hty br hbr) with hcover | ⟨ref, name, u', v, hc', hres, htype, _⟩
          · exact absurd hcover (hspec.noCover br hbr)
          · rw [hc, Head.ctor.injEq] at hc'
            cases ref with
            | none => simp at hc'
            | some cr =>
                have hcr : d = cr.type_ := by simpa using hc'.2
                rw [hcr, ← htype, hres.2.2.1]
      subst hd
      have hby := P.unionMembersByDef hu
      refine ⟨u.memberNames, ?_, fun h => h⟩
      simp [Coverage.members, hdef, hby]
  | none =>
      have hnone := (hspec.unionDef_none hdef).2
      -- every covered name is the subject union's, and is the world's last of that name
      have hnames : ∀ c ∈ acc.covered, ∃ v, P.world.ctors c = some (u, v) := by
        intro c hc
        rcases (hspec.covered c).mp hc with hc | ⟨br, hbr, d, hc⟩
        · simp at hc
        · rcases P.classify_union (hty br hbr) with hcover | ⟨ref, name, u', v, hc', hres, htype, _⟩
          · exact absurd hcover (hspec.noCover br hbr)
          · have hd := hnone br hbr c d hc
            rw [hc, Head.ctor.injEq] at hc'
            obtain ⟨rfl, href⟩ := hc'
            cases ref with
            | some cr => simp [hd] at href
            | none =>
                obtain rfl := howner hres htype
                exact ⟨v, hres⟩
      obtain ⟨first, rest, hfirst⟩ := List.exists_cons_of_ne_nil hcov
      obtain ⟨v, hv⟩ := hnames first (by simp [hfirst])
      have hunion := P.coherent.ctorUnion_ctors first u v hv
      obtain ⟨all, hall⟩ := Option.isSome_iff_exists.mp (P.coherent.listed first u v hv)
      refine ⟨all, ?_, ?_⟩
      · simp [Coverage.members, hdef, hfirst, hunion, hall]
      · intro hsub
        rcases P.coherent.latest u.name all hall with ⟨_, hne⟩ | ⟨u', hu', hmembers, hlast⟩
        · exact absurd rfl (hne first u v hv)
        · have hne : all ≠ [] := by
            rw [hmembers]
            intro hnil
            exact (P.unions_nonempty hu') (List.map_eq_nil_iff.mp hnil)
          obtain ⟨c, cs, hc⟩ := List.exists_cons_of_ne_nil hne
          have hcall : c ∈ all := by simp [hc]
          obtain ⟨v', hv'⟩ := hnames c (hsub c hcall)
          rcases hlast c hcall u v' hv' with rfl | hname
          · rw [← hmembers]
            exact hsub
          · exact absurd rfl hname

/-- The names a `Bool` subject is checked against include both of its values. -/
theorem bool_members_eq {branches : List (Pattern × Expr)} {acc : Coverage}
    (hty : ∀ br ∈ branches, P.PatTy br.1 .bool) (hscan : scan branches {} = some acc)
    (hcov : acc.covered ≠ []) :
    ∃ all, acc.members P.world = some all ∧
      ((∀ c ∈ all, c ∈ acc.covered) →
        ∀ b : Bool, (if b then "True" else "False") ∈ acc.covered) := by
  have hspec := scan_spec hscan
  have hnames : ∀ c ∈ acc.covered, ∃ b : Bool, c = if b then "True" else "False" := by
    intro c hc
    rcases (hspec.covered c).mp hc with hc | ⟨br, hbr, d, hc⟩
    · simp at hc
    · rcases P.classify_bool (hty br hbr) with hcover | ⟨b, hc', _⟩
      · exact absurd hcover (hspec.noCover br hbr)
      · rw [hc, Head.ctor.injEq] at hc'
        exact ⟨b, hc'.1⟩
  have hdef : acc.unionDef = none := by
    cases hd : acc.unionDef with
    | none => rfl
    | some d =>
        rcases hspec.unionDef_some d hd with hd | ⟨br, hbr, c, hc⟩
        · simp at hd
        · rcases P.classify_bool (hty br hbr) with hcover | ⟨b, hc', _⟩
          · exact absurd hcover (hspec.noCover br hbr)
          · simp [hc] at hc'
  obtain ⟨first, rest, hfirst⟩ := List.exists_cons_of_ne_nil hcov
  obtain ⟨b, rfl⟩ := hnames first (by simp [hfirst])
  have hunion := P.readsBool b
  obtain ⟨all, hall⟩ := Option.isSome_iff_exists.mp P.boolListed
  refine ⟨all, by simp [Coverage.members, hdef, hfirst, hunion, hall], ?_⟩
  intro hsub
  rcases P.coherent.latest "Bool" all hall with ⟨hbool, _⟩ | ⟨u', hu', hmembers, _⟩
  · intro b'
    refine hsub _ ?_
    rw [hbool]
    cases b' <;> simp
  · -- a union declared under the name `Bool` has a member that no head can cover
    obtain ⟨v, vs, hv⟩ := List.exists_cons_of_ne_nil (P.unions_nonempty hu')
    have hname : v.name ∈ u'.memberNames := List.mem_map.mpr ⟨v, by simp [hv], rfl⟩
    obtain ⟨b', hb'⟩ := hnames v.name (hsub v.name (hmembers ▸ hname))
    have hfree := P.unions_keywordFree hu'
    rw [hb'] at hname
    cases b' with
    | false => exact absurd hname hfree.2
    | true => exact absurd hname hfree.1

/-! ## The guarantee -/

/-- The subject's type is a union the program declares, or `Bool`. -/
def ForcedSubject (t : Ty) : Prop := t = .bool ∨ ∃ u ∈ P.decls, ∃ targs, t = .union u.type_ targs

/-- A value of the subject's type is taken by the head of some branch. -/
theorem exists_headTakes {t : Ty} {span : Option Span} {branches : List (Pattern × Expr)}
    (ht : P.ForcedSubject t) (hne : branches ≠ []) (hty : ∀ br ∈ branches, P.PatTy br.1 t)
    (hok : checkCase P.world span branches = []) {v : Value} (hv : P.HasTy v t) :
    ∃ br ∈ branches, br.1.headTakes v := by
  cases hscan : scan branches {} with
  | none =>
      obtain ⟨br, hbr, hcover⟩ := exists_cover_of_scan hscan
      exact ⟨br, hbr, headTakes_of_cover hcover v⟩
  | some acc =>
      have hspec := scan_spec hscan
      obtain ⟨first, rest, rfl⟩ := List.exists_cons_of_ne_nil hne
      rcases ht with rfl | ⟨u, hu, targs, rfl⟩
      · have hcov : acc.covered ≠ [] := by
          rcases P.classify_bool (hty first (by simp)) with hcover | ⟨b, hc, _⟩
          · exact absurd hcover (hspec.noCover first (by simp))
          · exact List.ne_nil_of_mem ((hspec.covered _).mpr (Or.inr ⟨first, by simp, none, hc⟩))
        obtain ⟨all, hall, hsub⟩ := P.bool_members_eq hty hscan hcov
        have hboth := hsub (members_subset_of_checkCase hscan hcov hall hok)
        cases hv with
        | bool b =>
            rcases (hspec.covered _).mp (hboth b) with hc | ⟨br, hbr, d, hc⟩
            · simp at hc
            · refine ⟨br, hbr, ?_⟩
              rcases P.classify_bool (hty br hbr) with hcover | ⟨b', hc', htakes⟩
              · exact headTakes_of_cover hcover _
              · rw [hc, Head.ctor.injEq] at hc'
                have hb : b = b' := by
                  cases b <;> cases b' <;> simp_all
                exact hb ▸ htakes
      · have hcov : acc.covered ≠ [] := by
          rcases P.classify_union (hty first (by simp)) with hcover | ⟨_, name, _, _, hc, _⟩
          · exact absurd hcover (hspec.noCover first (by simp))
          · exact List.ne_nil_of_mem ((hspec.covered name).mpr (Or.inr ⟨first, by simp, _, hc⟩))
        obtain ⟨all, hall, hsub⟩ := P.members_eq hu hty hscan hcov
        have hmembers := hsub (members_subset_of_checkCase hscan hcov hall hok)
        obtain ⟨v', hv', args, rfl⟩ := P.hasTy_union (List.mem_append_right _ hu) hv
        have hname : v'.name ∈ u.memberNames := List.mem_map.mpr ⟨v', hv', rfl⟩
        rcases (hspec.covered _).mp (hmembers _ hname) with hc | ⟨br, hbr, d, hc⟩
        · simp at hc
        · refine ⟨br, hbr, ?_⟩
          rcases P.classify_union (hty br hbr) with hcover | ⟨_, name, _, _, hc', _, _, htakes⟩
          · exact headTakes_of_cover hcover _
          · rw [hc, Head.ctor.injEq] at hc'
            rw [hc'.1]
            exact htakes u.type_ args

/-- A head that takes a value matches it where its arguments are irrefutable. -/
theorem matchesValue_of_headTakes {t : Ty} {p : Pattern} {v : Value} (ht : P.ForcedSubject t)
    (hp : P.PatTy p t) (hv : P.HasTy v t) (hhead : p.headTakes v) (hargs : p.argsIrrefutable) :
    p.matchesValue v := by
  cases p with
  | aliased p l =>
      cases hp with
      | aliased _ hp =>
          rw [Pattern.matchesValue]
          exact matchesValue_of_headTakes ht hp hv hhead hargs
  | bool b =>
      cases hp
      cases hv with
      | bool b' => simpa [Pattern.headTakes, Pattern.matchesValue] using hhead
  | ctor ref name args =>
      cases hp with
      | ctor hres hps =>
          obtain ⟨hu, hv₁, hname⟩ := P.resolves_mem hres
          obtain ⟨v₂, hv₂, vs, rfl, hvs⟩ := P.hasTy_union_args hu hv
          have heq : name = v₂.name := by simpa [Pattern.headTakes] using hhead
          have hvariant := P.variant_eq hu hv₁ hv₂ (hname.trans heq)
          subst hvariant
          rw [Pattern.matchesValue, Bool.and_eq_true]
          exact ⟨by simpa using heq,
            P.matchesAll_of_irrefutable (by simpa [Pattern.argsIrrefutable] using hargs) hps hvs⟩
  | anything => rfl
  | var l => rfl
  | _ =>
      exfalso
      rcases ht with rfl | ⟨u, _, targs, rfl⟩ <;> cases hp

/-- Each head of the list stands in a branch whose arguments are irrefutable. -/
def ArgsCovered (branches : List (Pattern × Expr)) : Prop :=
  ∀ br ∈ branches, ∀ v, br.1.headTakes v →
    ∃ br' ∈ branches, br'.1.headTakes v ∧ br'.1.argsIrrefutable

end Program

/-! ### A nested literal that no branch completes -/

def msgDecl : UnionDecl :=
  { type_ := 6, name := "Msg", params := [],
    variants := [⟨7, "Got", [.int]⟩, ⟨8, "Other", []⟩] }

def msgProgram : Program where
  decls := [msgDecl]
  distinct := by decide
  nonempty := by simp [msgDecl]
  variantsDistinct := by decide
  keywordFree := by decide

/-- `case msg of Got 1 -> …; Other -> …`. -/
def gotOneBranches : List (Pattern × Expr) :=
  [(.ctor (some ⟨7, 6⟩) "Got" [.int 1], .leaf), (.ctor (some ⟨8, 6⟩) "Other" [], .leaf)]

/-- `case msg of Got n -> …; Other -> …`. -/
def gotAnyBranches : List (Pattern × Expr) :=
  [(.ctor (some ⟨7, 6⟩) "Got" [.var 0], .leaf), (.ctor (some ⟨8, 6⟩) "Other" [], .leaf)]

theorem msgProgram_got {p : Pattern} (hp : msgProgram.PatTy p .int) :
    msgProgram.PatTy (.ctor (some ⟨7, 6⟩) "Got" [p]) (.union 6 []) := by
  have hres : msgProgram.Resolves (some ⟨7, 6⟩) "Got" msgDecl ⟨7, "Got", [.int]⟩ :=
    ⟨by simp [Program.unions, msgProgram], by simp [msgDecl], rfl, rfl, rfl⟩
  exact .ctor hres (.cons hp .nil)

theorem msgProgram_other : msgProgram.PatTy (.ctor (some ⟨8, 6⟩) "Other" []) (.union 6 []) := by
  have hres : msgProgram.Resolves (some ⟨8, 6⟩) "Other" msgDecl ⟨8, "Other", []⟩ :=
    ⟨by simp [Program.unions, msgProgram], by simp [msgDecl], rfl, rfl, rfl⟩
  exact .ctor hres .nil

theorem msgProgram_value (n : ℤ) : msgProgram.HasTy (.ctor 6 "Got" [.int n]) (.union 6 []) := by
  have hu : msgDecl ∈ msgProgram.unions := by simp [Program.unions, msgProgram]
  have hv : (⟨7, "Got", [.int]⟩ : Variant) ∈ msgDecl.variants := by simp [msgDecl]
  exact .ctor hu hv (.cons (.int n) .nil)

theorem gotAny_argsCovered : Program.ArgsCovered gotAnyBranches := by
  intro br hbr v hv
  refine ⟨br, hbr, hv, ?_⟩
  fin_cases hbr <;> rfl

end

/-! ## The walk checks every `case` of a body -/

structure CaseSite where
  span : Option Span
  branches : List (Pattern × Expr)

/-! ## The `case` expressions of a body -/

mutual

def caseSites : Expr → List CaseSite
  | .leaf => []
  | .list xs | .tuple xs => caseSitesAll xs
  | .record fields => caseSitesFields fields
  | .update base fields => caseSites base ++ caseSitesFields fields
  | .negate x | .access x _ => caseSites x
  | .lambda _ body => caseSites body
  | .call callee args => caseSites callee ++ caseSitesAll args
  | .binop _ lhs rhs => caseSites lhs ++ caseSites rhs
  | .ifElse arms els => caseSitesArms arms ++ caseSites els
  | .letIn defs body => caseSitesFields defs ++ caseSites body
  | .caseOf subject span branches =>
      caseSites subject ++ [⟨span, branches⟩] ++ caseSitesBranches branches

def caseSitesAll : List Expr → List CaseSite
  | [] => []
  | x :: xs => caseSites x ++ caseSitesAll xs

def caseSitesFields : List (Name × Expr) → List CaseSite
  | [] => []
  | (_, x) :: xs => caseSites x ++ caseSitesFields xs

def caseSitesArms : List (Expr × Expr) → List CaseSite
  | [] => []
  | (c, t) :: arms => caseSites c ++ caseSites t ++ caseSitesArms arms

def caseSitesBranches : List (Pattern × Expr) → List CaseSite
  | [] => []
  | (_, body) :: brs => caseSites body ++ caseSitesBranches brs

end

/-! ## The walk -/

def CaseSite.check (world : World) (s : CaseSite) : List Diagnostic :=
  checkCase world s.span s.branches

section

variable (world : World)

mutual

theorem walk_eq (e : Expr) : walk world e = (caseSites e).flatMap (·.check world) := by
  cases e with
  | leaf => rfl
  | list xs => exact walkAll_eq xs
  | tuple xs => exact walkAll_eq xs
  | record fields => exact walkFields_eq fields
  | update base fields =>
      rw [walk, caseSites, List.flatMap_append, walk_eq base, walkFields_eq fields]
  | negate x => exact walk_eq x
  | access x field => exact walk_eq x
  | lambda params body => exact walk_eq body
  | call callee args =>
      rw [walk, caseSites, List.flatMap_append, walk_eq callee, walkAll_eq args]
  | binop op lhs rhs =>
      rw [walk, caseSites, List.flatMap_append, walk_eq lhs, walk_eq rhs]
  | ifElse arms els =>
      rw [walk, caseSites, List.flatMap_append, walkArms_eq arms, walk_eq els]
  | letIn defs body =>
      rw [walk, caseSites, List.flatMap_append, walkFields_eq defs, walk_eq body]
  | caseOf subject span branches =>
      rw [walk, caseSites, List.flatMap_append, List.flatMap_append, walk_eq subject,
        walkBranches_eq branches]
      simp [CaseSite.check]

theorem walkAll_eq (xs : List Expr) :
    walkAll world xs = (caseSitesAll xs).flatMap (·.check world) := by
  cases xs with
  | nil => rfl
  | cons x xs => rw [walkAll, caseSitesAll, List.flatMap_append, walk_eq x, walkAll_eq xs]

theorem walkFields_eq (fields : List (Name × Expr)) :
    walkFields world fields = (caseSitesFields fields).flatMap (·.check world) := by
  cases fields with
  | nil => rfl
  | cons f fields =>
      rw [walkFields, caseSitesFields, List.flatMap_append, walk_eq f.2, walkFields_eq fields]

theorem walkArms_eq (arms : List (Expr × Expr)) :
    walkArms world arms = (caseSitesArms arms).flatMap (·.check world) := by
  cases arms with
  | nil => rfl
  | cons arm arms =>
      rw [walkArms, caseSitesArms, List.flatMap_append, List.flatMap_append, walk_eq arm.1,
        walk_eq arm.2, walkArms_eq arms]

theorem walkBranches_eq (brs : List (Pattern × Expr)) :
    walkBranches world brs = (caseSitesBranches brs).flatMap (·.check world) := by
  cases brs with
  | nil => rfl
  | cons br brs =>
      rw [walkBranches, caseSitesBranches, List.flatMap_append, walk_eq br.2, walkBranches_eq brs]

end

end

end Sky.Exhaustive
