import Sky.Verification.Partition.Taint

/-! # The arms of `update` that the split leaves on the client -/

namespace Sky.Partition

open Relation

/-! ## Chains that start in an arm -/

/-- The `case` under the `let`s of a body, with the bodies of those `let`s. -/
inductive Body.TopCase (body : Body) : ExprId → List ExprId → List CaseBranch → Prop
  | caseOf {e subject arms} (h : body.expr e = .caseOf subject arms) : TopCase body e [] arms
  | letIn {e defs b lets arms} (h : body.expr e = .letIn defs b) (rest : TopCase body b lets arms) :
      TopCase body e (defs.map (·.body) ++ lets) arms

/-- The pattern can match a message built with the constructor of that name. -/
inductive Body.CanMatch (body : Body) (name : Name) : PatId → Prop
  | anything {p} (h : body.pattern p = .anything) : CanMatch body name p
  | var {p l} (h : body.pattern p = .var l) : CanMatch body name p
  | alias {p q l} (h : body.pattern p = .alias q l) (inner : CanMatch body name q) :
      CanMatch body name p
  | ctor {p args} (h : body.pattern p = .ctor name args) : CanMatch body name p

/-- A resolved program with an `update` that the checked modules reach and that branches on
its message. -/
structure Program where
  db : SkyDb
  checkIds : List ModuleId
  clientCrypto : Bool
  update : DefId
  body : Body
  root : ExprId
  lets : List ExprId
  arms : List CaseBranch
  resolved : db.bodyOf update = some body
  rooted : body.root = some root
  top : body.TopCase root lets arms
  reached : ∃ d ∈ seeds db checkIds, ReflTransGen db.RefersTo d update

namespace Program

variable (p : Program)

/-- The verdicts that the analysis gives the arms. -/
def verdicts : List BranchVerdict :=
  classifyUpdateBody p.db (buildGraph p.db p.checkIds p.clientCrypto) p.update p.body

/-- The arm is marked as a client arm. -/
def ClientArm (i : ℕ) : Prop := ∃ v, p.verdicts[i]? = some v ∧ v.server = false

/-- The constructor of a composed call `update (C ...) model`. -/
def composed (e : ExprId) : Option Name :=
  match p.body.expr e with
  | .call callee (msg :: _) =>
      if p.body.expr callee = .var (.ofDef p.update) then literalCtorName p.body p.db msg else none
  | _ => none

/-- What an arm's expression leads to: a composed call leads to its arguments. -/
def parts (e : ExprId) : List ExprId :=
  if (p.composed e).isSome then (p.body.expr e).children.tail else (p.body.expr e).children

/-- The expression stands in the arm. -/
def InArm (i : ℕ) (e : ExprId) : Prop :=
  ∃ arm, p.arms[i]? = some arm ∧ ReflTransGen (fun a b => b ∈ p.parts a) arm.body e

/-- The expression stands in the arm or in a `let` above the `case`. -/
def InScope (i : ℕ) (e : ExprId) : Prop :=
  p.InArm i e ∨ i < p.arms.length ∧ ∃ x ∈ p.lets, p.body.Occurs x e

def Composes (i : ℕ) (name : Name) : Prop := ∃ e, p.InArm i e ∧ p.composed e = some name

/-- The arm's pattern can match a message built with the constructor. -/
def Matches (name : Name) (j : ℕ) : Prop :=
  ∃ arm, p.arms[j]? = some arm ∧ p.body.CanMatch name arm.pat

/-- The first arm with the constructor at its head. -/
def firstArm (name : Name) : Option ℕ :=
  p.arms.findIdx? fun arm => armCtorKey p.body arm.pat = some name

inductive Node where
  | arm (i : ℕ)
  | definition (d : DefId)

/-- A reference, with the arms that a composed constructor leads to left open. -/
inductive Step (leads : Name → ℕ → Prop) : Node → Node → Prop
  | refers {i e d} (out : ¬p.db.InSpa p.update) (mem : p.InScope i e)
      (res : (p.body.expr e).res = some (.ofDef d)) : Step leads (.arm i) (.definition d)
  | composes {i name j} (out : ¬p.db.InSpa p.update) (mem : p.Composes i name)
      (lead : leads name j) : Step leads (.arm i) (.arm j)
  | definition {d d'} (refers : p.db.RefersTo d d') :
      Step leads (.definition d) (.definition d')

/-- The node itself has a server effect or cannot be resolved. -/
def Hits : Node → Prop
  | .arm i => ¬p.db.InSpa p.update ∧
      ∃ e, p.InScope i e ∧ ServerEffect p.clientCrypto p.body (p.body.expr e)
  | .definition d => Tainted p.db p.clientCrypto d

/-- A chain of references from the arm, through every arm that can match a composed message,
reaches a server effect. -/
def ReachesServer (i : ℕ) : Prop :=
  ∃ n, ReflTransGen (p.Step p.Matches) (.arm i) n ∧ p.Hits n

/-- The arm uses `update` other than by composing, or composes a constructor that heads no
arm. -/
def Opaque (i : ℕ) : Prop :=
  (∃ e, p.InArm i e ∧ p.body.expr e = .var (.ofDef p.update)) ∨
    ∃ name, p.Composes i name ∧ p.firstArm name = none

/-- A chain that goes from a composed constructor to its first arm only reaches a server
effect or an arm whose use of `update` is not resolved. -/
def ReachesByFirst (i : ℕ) : Prop :=
  ∃ n, ReflTransGen (p.Step fun name j => p.firstArm name = some j) (.arm i) n ∧
    (p.Hits n ∨ ∃ k, n = .arm k ∧ p.Opaque k)

/-- An arm that composes a constructor, with another arm than the first of that head that can
match it and reaches the server, reaches it by first arms too. -/
def FirstArmsSuffice : Prop :=
  ∀ i name j, p.Composes i name → p.Matches name j → p.firstArm name ≠ some j →
    p.ReachesServer j → p.ReachesByFirst i

/-! ## The case at the top -/

theorem top_spec {body : Body} (clientCrypto : Bool) {fuel e : ℕ} {lets : List ExprId}
    {arms : List CaseBranch} (h : body.TopCase e lets arms) (he : e < fuel) (shared : Refs) :
    ∃ e' subject shared', findTopCaseBelow body { clientCrypto := clientCrypto } fuel e shared =
        (some e', shared') ∧ body.expr e' = .caseOf subject arms ∧
      ∀ fact, shared'.Has fact ↔ shared.Has fact ∨ ∃ x ∈ lets, ∃ y, body.Occurs x y ∧
        CollectCtx.Emits { clientCrypto := clientCrypto } body (body.expr y) fact := by
  induction h generalizing fuel shared with
  | @caseOf e subject arms hcase =>
      obtain ⟨fuel, rfl⟩ := Nat.exists_eq_add_of_lt he
      refine ⟨e, subject, shared, ?_, hcase, by simp⟩
      rw [findTopCaseBelow, hcase]
  | @letIn e defs b lets arms hlet rest ih =>
      obtain ⟨k, rfl⟩ := Nat.exists_eq_add_of_lt he
      have hb : b < e + k := by
        refine (body.lt_of_mem_children ?_).trans_le (Nat.le_add_right e k)
        rw [hlet]
        exact List.mem_append_right _ (List.mem_singleton.mpr rfl)
      have hdef : ∀ fact, ∀ d ∈ defs, ∀ acc : Refs,
          (collectExpr.collectLocaldef (fun x acc =>
            collect body x acc { clientCrypto := clientCrypto }) d acc).Has fact ↔
          acc.Has fact ∨ ∃ y, body.Occurs d.body y ∧
            CollectCtx.Emits { clientCrypto := clientCrypto } body (body.expr y) fact := by
        intro fact d _ acc
        rw [collectExpr.collectLocaldef, has_collect rfl, walks_plain]
        split
        · rw [has_inlineForce]
        · rfl
      obtain ⟨e', subject, shared', hfound, hcase, hhas⟩ := ih hb
        (defs.foldl (fun shared d => collectExpr.collectLocaldef (fun x acc =>
          collect body x acc { clientCrypto := clientCrypto }) d shared) shared)
      refine ⟨e', subject, shared', ?_, hcase, fun fact => ?_⟩
      · rw [findTopCaseBelow, hlet]
        exact hfound
      · rw [hhas, has_foldl (hdef fact), or_assoc]
        refine or_congr_right ?_
        simp only [List.mem_append, List.mem_map, or_and_right, exists_or,
          exists_exists_and_eq_and]

/-- The references shared by the arms are those of the `let`s above the `case`. -/
theorem updateCase_spec : ∃ shared, updateCase p.body p.clientCrypto = some (p.arms, shared) ∧
    ∀ fact, shared.Has fact ↔ ∃ x ∈ p.lets, ∃ y, p.body.Occurs x y ∧
      CollectCtx.Emits { clientCrypto := p.clientCrypto } p.body (p.body.expr y) fact := by
  obtain ⟨e', subject, shared, hfound, hcase, hhas⟩ :=
    top_spec p.clientCrypto p.top (Nat.lt_succ_self p.root) {}
  refine ⟨shared, ?_, fun fact => ?_⟩
  · rw [updateCase, p.rooted, Option.bind_some, findTopCase, hfound]
    simp only [Option.bind_some, hcase]
  · rw [hhas fact, or_iff_right (not_has_empty fact)]

/-! ## What is recorded of an arm -/

/-- The context an arm is walked under. -/
def ctx : CollectCtx :=
  { db := some p.db, updateDef := some p.update, clientCrypto := p.clientCrypto }

theorem composed_eq_some {e : ExprId} {name : Name} : p.composed e = some name ↔
    ∃ args, p.ctx.updateCall p.body (p.body.expr e) = some (p.db, args) ∧
      args.head?.bind (literalCtorName p.body p.db) = some name := by
  unfold composed CollectCtx.updateCall ctx
  cases p.body.expr e with
  | call callee args =>
      cases args with
      | nil =>
          simp only [reduceCtorEq, false_iff, not_exists, not_and]
          intro args hargs
          split at hargs
          · cases hargs
            simp
          · cases hargs
      | cons msg args => by_cases h : p.body.expr callee = .var (.ofDef p.update) <;> simp [h]
  | _ => simp

theorem updateCall_eq_some {x : Expr} {db : SkyDb} {args : List ExprId}
    (h : p.ctx.updateCall p.body x = some (db, args)) :
    db = p.db ∧ ∃ callee, x = .call callee args ∧
      p.body.expr callee = .var (.ofDef p.update) := by
  cases x with
  | call callee args' =>
      obtain ⟨rfl, d, hupdate, hdb, hcallee⟩ := updateCall_call h
      cases hupdate
      cases hdb
      exact ⟨rfl, callee, rfl, hcallee⟩
  | _ => cases h

/-- A walked expression is one the arm leads to. -/
theorem mem_parts_of_walked {a b : ExprId} (h : b ∈ p.ctx.walked p.body (p.body.expr a)) :
    b ∈ p.parts a := by
  unfold CollectCtx.walked at h
  unfold parts
  cases hcall : p.ctx.updateCall p.body (p.body.expr a) with
  | none =>
      rw [hcall] at h
      have hnone : p.composed a = none := by
        rw [Option.eq_none_iff_forall_not_mem]
        intro name hname
        obtain ⟨args, hsome, -⟩ := p.composed_eq_some.mp hname
        rw [hcall] at hsome
        cases hsome
      rw [hnone]
      exact h
  | some q =>
      obtain ⟨db, args⟩ := q
      rw [hcall] at h
      obtain ⟨-, callee, hx, -⟩ := p.updateCall_eq_some hcall
      rw [hx]
      split
      · exact h
      · exact List.mem_cons_of_mem callee h

/-- An expression the arm leads to is walked, unless it is `update` used as a value. -/
theorem walked_of_mem_parts {a b : ExprId} (h : b ∈ p.parts a) :
    b ∈ p.ctx.walked p.body (p.body.expr a) ∨
      p.ctx.Emits p.body (p.body.expr a) .generic ∧ p.body.expr b = .var (.ofDef p.update) := by
  unfold parts at h
  unfold CollectCtx.walked
  cases hcall : p.ctx.updateCall p.body (p.body.expr a) with
  | none =>
      left
      split at h
      · exact List.mem_of_mem_tail h
      · exact h
  | some q =>
      obtain ⟨db, args⟩ := q
      obtain ⟨rfl, callee, hx, hcallee⟩ := p.updateCall_eq_some hcall
      rw [hx] at h
      cases hname : p.composed a with
      | some name =>
          rw [hname] at h
          exact .inl h
      | none =>
          rw [hname] at h
          rcases List.mem_cons.mp h with rfl | h
          · refine .inr ⟨.inr ⟨p.db, args, hcall, ?_⟩, hcallee⟩
            rw [Option.eq_none_iff_forall_not_mem]
            intro name hsome
            have hcomposed := p.composed_eq_some.mpr ⟨args, hcall, hsome⟩
            rw [hname] at hcomposed
            cases hcomposed
          · exact .inl h

/-- The references collected for an arm. -/
def armRefs (shared : Refs) (arm : CaseBranch) : Refs := collect p.body arm.body shared p.ctx

section Collected

variable {shared : Refs} {i : ℕ} {arm : CaseBranch} (harm : p.arms[i]? = some arm)
  (hshared : ∀ fact, shared.Has fact ↔ ∃ x ∈ p.lets, ∃ y, p.body.Occurs x y ∧
    CollectCtx.Emits { clientCrypto := p.clientCrypto } p.body (p.body.expr y) fact)

theorem has_armRefs (fact : Fact) : (p.armRefs shared arm).Has fact ↔ shared.Has fact ∨
    ∃ e, p.ctx.Walks p.body arm.body e ∧ p.ctx.Emits p.body (p.body.expr e) fact :=
  has_collect rfl arm.body shared

include harm

theorem inArm_of_walks {e : ExprId} (h : p.ctx.Walks p.body arm.body e) : p.InArm i e :=
  ⟨arm, harm, ReflTransGen.mono (fun _ _ => p.mem_parts_of_walked) _ _ h⟩

theorem walks_of_inArm (shared : Refs) {e : ExprId} (h : p.InArm i e) :
    p.ctx.Walks p.body arm.body e ∨ (p.armRefs shared arm).Has .generic := by
  obtain ⟨arm', harm', hpath⟩ := h
  rw [harm] at harm'
  cases harm'
  induction hpath with
  | refl => exact .inl .refl
  | tail _ hstep ih =>
      rcases ih with hwalk | hgeneric
      · rcases p.walked_of_mem_parts hstep with hnext | ⟨hemit, -⟩
        · exact .inl (hwalk.tail hnext)
        · exact .inr ((p.has_armRefs _).mpr (.inr ⟨_, hwalk, hemit⟩))
      · exact .inr hgeneric

theorem has_composed (shared : Refs) {name : Name} (h : p.Composes i name) :
    (p.armRefs shared arm).Has (.composed name) ∨ (p.armRefs shared arm).Has .generic := by
  obtain ⟨e, hmem, hname⟩ := h
  obtain ⟨args, hcall, hhead⟩ := p.composed_eq_some.mp hname
  rcases p.walks_of_inArm harm shared hmem with hwalk | hgeneric
  · exact .inl ((p.has_armRefs _).mpr (.inr ⟨e, hwalk, p.db, args, hcall, hhead⟩))
  · exact .inr hgeneric

theorem has_generic {e : ExprId} (h : p.InArm i e)
    (hvar : p.body.expr e = .var (.ofDef p.update)) : (p.armRefs shared arm).Has .generic := by
  rcases p.walks_of_inArm harm shared h with hwalk | hgeneric
  · exact (p.has_armRefs _).mpr (.inr ⟨e, hwalk, .inl ⟨p.update, rfl, hvar⟩⟩)
  · exact hgeneric

include hshared

theorem inScope_of_shared {fact : Fact} (h : shared.Has fact) :
    ∃ e, p.InScope i e ∧
      CollectCtx.Emits { clientCrypto := p.clientCrypto } p.body (p.body.expr e) fact := by
  obtain ⟨x, hx, y, hocc, hemit⟩ := (hshared fact).mp h
  have hi : i < p.arms.length := (List.getElem?_eq_some_iff.mp harm).1
  exact ⟨y, .inr ⟨hi, x, hx, hocc⟩, hemit⟩

theorem callee_inScope {d : DefId} (h : (p.armRefs shared arm).Has (.callee d)) :
    ∃ e, p.InScope i e ∧ (p.body.expr e).res = some (.ofDef d) := by
  rcases (p.has_armRefs _).mp h with h | ⟨e, hwalk, hemit⟩
  · obtain ⟨e, hmem, hemit⟩ := p.inScope_of_shared harm hshared h
    exact ⟨e, hmem, hemit.1⟩
  · exact ⟨e, .inl (p.inArm_of_walks harm hwalk), hemit.1⟩

theorem effect_inScope
    (h : (p.armRefs shared arm).Has .server ∨ (p.armRefs shared arm).Has .foreign) :
    ∃ e, p.InScope i e ∧ ServerEffect p.clientCrypto p.body (p.body.expr e) := by
  rcases h with h | h <;> rcases (p.has_armRefs _).mp h with h | ⟨e, hwalk, hemit⟩
  · obtain ⟨e, hmem, hemit⟩ := p.inScope_of_shared harm hshared h
    exact ⟨e, hmem, .inl hemit⟩
  · exact ⟨e, .inl (p.inArm_of_walks harm hwalk), .inl hemit⟩
  · obtain ⟨e, hmem, hemit⟩ := p.inScope_of_shared harm hshared h
    exact ⟨e, hmem, .inr hemit⟩
  · exact ⟨e, .inl (p.inArm_of_walks harm hwalk), .inr hemit⟩

theorem composes_of_has {name : Name} (h : (p.armRefs shared arm).Has (.composed name)) :
    p.Composes i name := by
  rcases (p.has_armRefs _).mp h with h | ⟨e, hwalk, db, args, hcall, hname⟩
  · obtain ⟨e, -, db, args, hcall, -⟩ := p.inScope_of_shared harm hshared h
    cases hx : p.body.expr e <;> simp [CollectCtx.updateCall, hx] at hcall
  · obtain ⟨rfl, -⟩ := p.updateCall_eq_some hcall
    exact ⟨e, p.inArm_of_walks harm hwalk, p.composed_eq_some.mpr ⟨args, hcall, hname⟩⟩

theorem opaque_of_generic (h : (p.armRefs shared arm).Has .generic) : p.Opaque i := by
  rcases (p.has_armRefs _).mp h with h | ⟨e, hwalk, ⟨d, hd, hvar⟩ | ⟨db, args, hcall, hnone⟩⟩
  · obtain ⟨e, -, ⟨d, hd, -⟩ | ⟨db, args, hcall, -⟩⟩ := p.inScope_of_shared harm hshared h
    · cases hd
    · cases hx : p.body.expr e <;> simp [CollectCtx.updateCall, hx] at hcall
  · cases hd
    exact .inl ⟨e, p.inArm_of_walks harm hwalk, hvar⟩
  · obtain ⟨rfl, callee, hx, hcallee⟩ := p.updateCall_eq_some hcall
    obtain ⟨arm', harm', hpath⟩ := p.inArm_of_walks harm hwalk
    refine .inl ⟨callee, ⟨arm', harm', hpath.tail ?_⟩, hcallee⟩
    have hnot : p.composed e = none := by
      rw [Option.eq_none_iff_forall_not_mem]
      intro name hname
      obtain ⟨args', hcall', hsome⟩ := p.composed_eq_some.mp hname
      rw [hcall] at hcall'
      cases hcall'
      rw [hnone] at hsome
      cases hsome
    unfold parts
    rw [hnot, hx]
    exact List.mem_cons_self

theorem has_of_inScope {e : ExprId} (h : p.InScope i e) (fact : Fact)
    (hlet : CollectCtx.Emits { clientCrypto := p.clientCrypto } p.body (p.body.expr e) fact)
    (harm' : p.ctx.Emits p.body (p.body.expr e) fact ∨
      p.ctx.Emits p.body (p.body.expr e) .generic) :
    (p.armRefs shared arm).Has fact ∨ (p.armRefs shared arm).Has .generic := by
  rcases h with h | ⟨-, x, hx, hocc⟩
  · rcases p.walks_of_inArm harm shared h with hwalk | hgeneric
    · rcases harm' with hemit | hemit
      · exact .inl ((p.has_armRefs _).mpr (.inr ⟨e, hwalk, hemit⟩))
      · exact .inr ((p.has_armRefs _).mpr (.inr ⟨e, hwalk, hemit⟩))
    · exact .inr hgeneric
  · exact .inl ((p.has_armRefs _).mpr (.inl ((hshared fact).mpr ⟨x, hx, e, hocc, hlet⟩)))

theorem has_effect {e : ExprId} (h : p.InScope i e)
    (heffect : ServerEffect p.clientCrypto p.body (p.body.expr e)) :
    (p.armRefs shared arm).Has .server ∨ (p.armRefs shared arm).Has .foreign ∨
      (p.armRefs shared arm).Has .generic := by
  rcases heffect with heffect | heffect
  · rcases p.has_of_inScope harm hshared h .server heffect (.inl heffect) with h | h
    · exact .inl h
    · exact .inr (.inr h)
  · exact .inr (p.has_of_inScope harm hshared h .foreign heffect (.inl heffect))

theorem has_callee {e : ExprId} {d : DefId} (h : p.InScope i e)
    (hres : (p.body.expr e).res = some (.ofDef d)) :
    (p.armRefs shared arm).Has (.callee d) ∨ (p.armRefs shared arm).Has .generic := by
  refine p.has_of_inScope harm hshared h (.callee d) ⟨hres, by simp⟩ ?_
  by_cases hupdate : p.ctx.updateDef = some d ∧ p.body.expr e = .var (.ofDef d)
  · exact .inr (.inl ⟨d, hupdate⟩)
  · exact .inl ⟨hres, hupdate⟩

end Collected

/-! ## The marked arms -/

def graph : Graph := buildGraph p.db p.checkIds p.clientCrypto

theorem topCase_occurs {body : Body} {e : ExprId} {lets : List ExprId} {arms : List CaseBranch}
    (h : body.TopCase e lets arms) :
    (∀ x ∈ lets, body.Occurs e x) ∧ ∀ arm ∈ arms, body.Occurs e arm.body := by
  induction h with
  | caseOf hcase =>
      refine ⟨by simp, fun arm harm => .single ?_⟩
      rw [hcase]
      exact List.mem_cons_of_mem _ (List.mem_map_of_mem harm)
  | letIn hlet rest ih =>
      obtain ⟨hlets, harms⟩ := ih
      have hb : ∀ {x}, body.Occurs _ x → body.Occurs _ x := fun h => by
        refine .head ?_ h
        rw [hlet]
        exact List.mem_append_right _ (List.mem_singleton.mpr rfl)
      refine ⟨fun x hx => ?_, fun arm harm => hb (harms arm harm)⟩
      rcases List.mem_append.mp hx with hx | hx
      · refine .single ?_
        rw [hlet]
        exact List.mem_append_left _ hx
      · exact hb (hlets x hx)

/-- What stands in the scope of an arm stands in `update`'s body. -/
theorem contains_of_inScope (out : ¬p.db.InSpa p.update) {i : ℕ} {e : ExprId}
    (h : p.InScope i e) : p.db.Contains p.update p.body e := by
  obtain ⟨hlets, harms⟩ := topCase_occurs p.top
  refine ⟨out, p.resolved, p.root, p.rooted, ?_⟩
  rcases h with ⟨arm, harm, hpath⟩ | ⟨-, x, hx, hocc⟩
  · refine (harms arm (List.mem_of_getElem? harm)).trans (ReflTransGen.mono ?_ _ _ hpath)
    intro a b hb
    unfold parts at hb
    split at hb
    · exact List.mem_of_mem_tail hb
    · exact hb
  · exact (hlets x hx).trans hocc

theorem update_mem_graphDefs : p.update ∈ graphDefs p.db p.checkIds p.clientCrypto := by
  obtain ⟨d, hd, hpath⟩ := p.reached
  exact mem_graphDefs_of_path p.db p.checkIds p.clientCrypto
    ((graphDefs_spec p.db p.checkIds p.clientCrypto).1 d hd) hpath

/-- A definition that an arm refers to is marked where a chain from it is tainted. -/
theorem mem_server_of_inScope (out : ¬p.db.InSpa p.update) {i : ℕ} {e : ExprId} {d : DefId}
    (h : p.InScope i e) (hres : (p.body.expr e).res = some (.ofDef d)) :
    d ∈ p.graph.server ↔
      ∃ s, Tainted p.db p.clientCrypto s ∧ ReflTransGen p.db.RefersTo d s := by
  refine mem_server_iff p.db p.checkIds p.clientCrypto ?_
  exact (graphDefs_spec p.db p.checkIds p.clientCrypto).2 p.update p.update_mem_graphDefs d
    ⟨p.body, e, p.contains_of_inScope out h, hres⟩

theorem step_of_refersTo {leads : Name → ℕ → Prop} {d s : DefId}
    (h : ReflTransGen p.db.RefersTo d s) :
    ReflTransGen (p.Step leads) (.definition d) (.definition s) :=
  h.lift Node.definition fun _ _ => .definition

theorem armDirectReason_isSome (acc : Refs) (graph : Graph) :
    (armDirectReason acc graph).isSome ↔ (acc.Has .server ∨ acc.Has .foreign) ∨
      (∃ c ∈ acc.callees, c ∈ graph.server) ∨ acc.Has .generic := by
  rw [← directServerReason_isSome]
  unfold armDirectReason
  cases hdirect : acc.directServerReason with
  | some reason => simp
  | none =>
      simp only [Option.isSome_none, Bool.false_eq_true, false_or]
      cases hmin : (acc.callees.filter (· ∈ graph.server)).min? with
      | some c =>
          have hc := List.min?_mem hmin
          rw [List.mem_filter] at hc
          simp only [Option.isSome_some, true_iff]
          exact .inl ⟨c, hc.1, of_decide_eq_true hc.2⟩
      | none =>
          rw [List.min?_eq_none_iff, List.filter_eq_nil_iff] at hmin
          have hno : ¬∃ c ∈ acc.callees, c ∈ graph.server := by
            rintro ⟨c, hc, hserver⟩
            exact hmin c hc (decide_eq_true hserver)
          rw [or_iff_right hno]
          cases hgeneric : acc.genericUpdate <;> simp [Refs.Has, hgeneric]

section Marked

variable {shared : Refs}
  (hshared : ∀ fact, shared.Has fact ↔ ∃ x ∈ p.lets, ∃ y, p.body.Occurs x y ∧
    CollectCtx.Emits { clientCrypto := p.clientCrypto } p.body (p.body.expr y) fact)

def facts (shared : Refs) : List ArmFacts := armFacts p.body p.arms shared p.ctx

theorem getElem?_facts (i : ℕ) : (p.facts shared)[i]? =
    p.arms[i]?.map fun arm => ⟨armCtorKey p.body arm.pat, p.armRefs shared arm⟩ := by
  rw [facts, armFacts, List.getElem?_map]
  rfl

theorem length_facts : (p.facts shared).length = p.arms.length := List.length_map _

theorem byName_facts (name : Name) : byName (p.facts shared) name = p.firstArm name := by
  rw [byName, facts, armFacts, List.findIdx?_map]
  rfl

theorem forcedArm_iff {marked : List ℕ} {i : ℕ} {arm : CaseBranch} (harm : p.arms[i]? = some arm) :
    forcedArm (p.facts shared) marked i ↔
      ∃ name, (p.armRefs shared arm).Has (.composed name) ∧
        ∀ j, p.firstArm name = some j → j ∈ marked := by
  unfold forcedArm
  rw [getElem?_facts, harm]
  simp only [Option.map_some, Option.any_some, List.any_eq_true, byName_facts]
  refine exists_congr fun name => and_congr_right fun _ => ?_
  cases p.firstArm name <;> simp

/-- The arm has a reason of its own to be on the server. -/
def Direct (shared : Refs) (i : ℕ) : Prop :=
  ((p.facts shared)[i]?.bind fun f => armDirectReason f.refs p.graph).isSome

/-- The analysis sees the node: a marked arm, a definition from which a chain is tainted. -/
def Seen (shared : Refs) : Node → Prop
  | .arm k => k < p.arms.length → k ∈ serverArms (p.facts shared) p.graph
  | .definition d => ∃ s, Tainted p.db p.clientCrypto s ∧ ReflTransGen p.db.RefersTo d s

theorem mem_serverArms_of_direct {k : ℕ} (hk : k < p.arms.length) (h : p.Direct shared k) :
    k ∈ serverArms (p.facts shared) p.graph := by
  refine (Saturation.suffix_saturate _).subset (List.mem_filter.mpr ⟨?_, h⟩)
  rw [length_facts]
  exact List.mem_range.mpr hk

theorem mem_serverArms_of_forced {k : ℕ} (hk : k < p.arms.length)
    (h : forcedArm (p.facts shared) (serverArms (p.facts shared) p.graph) k) :
    k ∈ serverArms (p.facts shared) p.graph := by
  refine Saturation.saturate_closed ?_ k ?_ h
  · exact Saturation.card_unmarked_le.trans (List.length_range).le
  · rw [length_facts]
    exact List.mem_range.mpr hk

theorem direct_iff {k : ℕ} {arm : CaseBranch} (harm : p.arms[k]? = some arm) :
    p.Direct shared k ↔
      ((p.armRefs shared arm).Has .server ∨ (p.armRefs shared arm).Has .foreign) ∨
      (∃ c ∈ (p.armRefs shared arm).callees, c ∈ p.graph.server) ∨
      (p.armRefs shared arm).Has .generic := by
  unfold Direct
  rw [getElem?_facts, harm, Option.map_some, Option.bind_some, armDirectReason_isSome]

include hshared

theorem reaches_of_direct (out : ¬p.db.InSpa p.update) {i : ℕ} (h : p.Direct shared i) :
    p.ReachesByFirst i := by
  cases harm : p.arms[i]? with
  | none =>
      unfold Direct at h
      rw [getElem?_facts, harm] at h
      cases h
  | some arm =>
      rcases (p.direct_iff harm).mp h with heffect | ⟨c, hc, hserver⟩ | hgeneric
      · exact ⟨.arm i, .refl, .inl ⟨out, p.effect_inScope harm hshared heffect⟩⟩
      · obtain ⟨e, hmem, hres⟩ := p.callee_inScope harm hshared hc
        obtain ⟨s, htaint, hpath⟩ := (p.mem_server_of_inScope out hmem hres).mp hserver
        exact ⟨.definition s, .head (.refers out hmem hres) (p.step_of_refersTo hpath),
          .inl htaint⟩
      · exact ⟨.arm i, .refl, .inr ⟨i, rfl, p.opaque_of_generic harm hshared hgeneric⟩⟩

/-- A node that hits the server, or an arm with an unresolved use of `update`, is seen. -/
theorem seen_of_target {n : Node} (h : p.Hits n ∨ ∃ k, n = .arm k ∧ p.Opaque k) :
    p.Seen shared n := by
  cases n with
  | definition d =>
      rcases h with h | ⟨k, hk, -⟩
      · exact ⟨d, h, .refl⟩
      · cases hk
  | arm k =>
      intro hk
      have harm := List.getElem?_eq_getElem hk
      have hgeneric : (p.armRefs shared p.arms[k]).Has .generic →
          k ∈ serverArms (p.facts shared) p.graph := fun h =>
        p.mem_serverArms_of_direct hk ((p.direct_iff harm).mpr (.inr (.inr h)))
      rcases h with ⟨-, e, hmem, heffect⟩ | ⟨k', hk', ⟨e, hmem, hvar⟩ | ⟨name, hname, hfirst⟩⟩
      · rcases p.has_effect harm hshared hmem heffect with h | h | h
        · exact p.mem_serverArms_of_direct hk ((p.direct_iff harm).mpr (.inl (.inl h)))
        · exact p.mem_serverArms_of_direct hk ((p.direct_iff harm).mpr (.inl (.inr h)))
        · exact hgeneric h
      · cases hk'
        exact hgeneric (p.has_generic harm hmem hvar)
      · cases hk'
        rcases p.has_composed harm shared hname with h | h
        · refine p.mem_serverArms_of_forced hk ((p.forcedArm_iff harm).mpr ⟨name, h, ?_⟩)
          intro j hj
          rw [hfirst] at hj
          cases hj
        · exact hgeneric h

/-- A node with a step to a seen one is seen. -/
theorem seen_of_step {n m : Node} (h : p.Step (fun name j => p.firstArm name = some j) n m)
    (hm : p.Seen shared m) : p.Seen shared n := by
  cases h with
  | definition hrefers =>
      obtain ⟨s, htaint, hpath⟩ := hm
      exact ⟨s, htaint, .head hrefers hpath⟩
  | @refers k e d out hmem hres =>
      intro hk
      have harm := List.getElem?_eq_getElem hk
      refine p.mem_serverArms_of_direct hk ((p.direct_iff harm).mpr (.inr ?_))
      rcases p.has_callee harm hshared hmem hres with h | h
      · exact .inl ⟨d, h, (p.mem_server_of_inScope out hmem hres).mpr hm⟩
      · exact .inr h
  | @composes k name j out hname hfirst =>
      intro hk
      have harm := List.getElem?_eq_getElem hk
      have hj : j < p.arms.length := by
        obtain ⟨hj, -⟩ := List.findIdx?_eq_some_iff_getElem.mp hfirst
        exact hj
      rcases p.has_composed harm shared hname with h | h
      · refine p.mem_serverArms_of_forced hk ((p.forcedArm_iff harm).mpr ⟨name, h, ?_⟩)
        intro j' hj'
        rw [hfirst] at hj'
        cases hj'
        exact hm hj
      · exact p.mem_serverArms_of_direct hk ((p.direct_iff harm).mpr (.inr (.inr h)))

/-- The marked arms are those from which a chain through first arms reaches the server. -/
theorem mem_serverArms_iff (out : ¬p.db.InSpa p.update) {i : ℕ} (hi : i < p.arms.length) :
    i ∈ serverArms (p.facts shared) p.graph ↔ p.ReachesByFirst i := by
  constructor
  · refine Saturation.saturate_induction (P := fun k => p.ReachesByFirst k) _ ?_ ?_ i
    · intro marked k hmarked hk h
      rw [List.mem_range, length_facts] at hk
      have harm := List.getElem?_eq_getElem hk
      obtain ⟨name, hhas, hlead⟩ := (p.forcedArm_iff harm).mp h
      have hcomposes := p.composes_of_has harm hshared hhas
      cases hfirst : p.firstArm name with
      | none => exact ⟨.arm k, .refl, .inr ⟨k, rfl, .inr ⟨name, hcomposes, hfirst⟩⟩⟩
      | some j =>
          obtain ⟨n, hpath, hn⟩ := hmarked j (hlead j hfirst)
          exact ⟨n, .head (.composes out hcomposes hfirst) hpath, hn⟩
    · intro k hk
      exact p.reaches_of_direct hshared out (List.mem_filter.mp hk).2
  · rintro ⟨n, hpath, hn⟩
    have hseen : ∀ {m}, ReflTransGen (p.Step fun name j => p.firstArm name = some j) m n →
        p.Seen shared m := by
      intro m hm
      induction hm using ReflTransGen.head_induction_on with
      | refl => exact p.seen_of_target hshared hn
      | head hstep _ ih => exact p.seen_of_step hshared hstep ih
    exact hseen hpath hi

end Marked

/-! ## The client arms -/

theorem verdicts_eq {shared : Refs}
    (hcase : updateCase p.body p.clientCrypto = some (p.arms, shared)) :
    p.verdicts = classifyCaseArms p.graph p.body p.arms shared p.ctx := by
  have hcrypto : (buildGraph p.db p.checkIds p.clientCrypto).clientCrypto = p.clientCrypto := rfl
  rw [verdicts, classifyUpdateBody, hcrypto, hcase]
  rfl

theorem server_verdict {shared : Refs} (i : ℕ) :
    (classifyCaseArms p.graph p.body p.arms shared p.ctx)[i]?.map (·.server) =
      p.arms[i]?.map fun _ => decide (i ∈ serverArms (p.facts shared) p.graph) := by
  change ((p.facts shared).zipIdx.map _)[i]?.map _ = _
  rw [List.getElem?_map, List.getElem?_zipIdx, getElem?_facts]
  cases harm : p.arms[i]? with
  | none => rfl
  | some arm =>
      have hi : i < p.arms.length := (List.getElem?_eq_some_iff.mp harm).1
      have hdirect : p.Direct shared i → i ∈ serverArms (p.facts shared) p.graph :=
        p.mem_serverArms_of_direct hi
      simp only [Option.map_some, Option.some.injEq, Nat.zero_add]
      unfold Direct facts at hdirect
      unfold facts
      split
      · next reason hreason =>
          rw [hreason] at hdirect
          exact (decide_eq_true (hdirect rfl)).symm
      · split
        · next hmem => exact (decide_eq_true hmem).symm
        · next hmem => exact (decide_eq_false hmem).symm

theorem clientArm_iff (out : ¬p.db.InSpa p.update) {i : ℕ} :
    p.ClientArm i ↔ i < p.arms.length ∧ ¬p.ReachesByFirst i := by
  obtain ⟨shared, hcase, hshared⟩ := p.updateCase_spec
  have hserver : p.ClientArm i ↔ p.verdicts[i]?.map (·.server) = some false := by
    simp [ClientArm]
  rw [hserver, p.verdicts_eq hcase, server_verdict]
  cases harm : p.arms[i]? with
  | none =>
      have hi : ¬i < p.arms.length := Nat.not_lt.mpr (List.getElem?_eq_none_iff.mp harm)
      simp [hi]
  | some arm =>
      have hi : i < p.arms.length := (List.getElem?_eq_some_iff.mp harm).1
      simp [hi, p.mem_serverArms_iff hshared out hi]

/-- No chain of references from a client arm reaches the server. -/
def ClientArmsSafe : Prop := ∀ i, p.ClientArm i → ¬p.ReachesServer i

theorem out_of_reaches {i : ℕ} (h : p.ReachesServer i) : ¬p.db.InSpa p.update := by
  obtain ⟨n, hpath, hn⟩ := h
  rcases hpath.cases_head with rfl | ⟨m, hstep, -⟩
  · exact hn.1
  · cases hstep with
    | refers out => exact out
    | composes out => exact out

/-- A chain to the server goes through first arms only, or leaves them at an arm from which
first arms do not show it. -/
theorem reaches_cases (hfirst : p.FirstArmsSuffice) {n m : Node}
    (hpath : ReflTransGen (p.Step p.Matches) n m) (hm : p.Hits m) :
    ∃ k, ReflTransGen (p.Step fun name j => p.firstArm name = some j) n k ∧
      (p.Hits k ∨ ∃ i, k = .arm i ∧ p.Opaque i) := by
  induction hpath using ReflTransGen.head_induction_on with
  | refl => exact ⟨m, .refl, .inl hm⟩
  | head hstep hrest ih =>
      obtain ⟨k, hk, htarget⟩ := ih
      cases hstep with
      | definition hrefers => exact ⟨k, .head (.definition hrefers) hk, htarget⟩
      | refers out hmem hres => exact ⟨k, .head (.refers out hmem hres) hk, htarget⟩
      | @composes i name j out hname hmatch =>
          by_cases hj : p.firstArm name = some j
          · exact ⟨k, .head (.composes out hname hj) hk, htarget⟩
          · exact hfirst i name j hname hmatch hj ⟨m, hrest, hm⟩

/-- The client arms reach no server effect exactly where, whenever another arm than the first
of its head can take a composed message to the server, the first arms show it too. -/
theorem clientArmsSafe_iff : p.ClientArmsSafe ↔ p.FirstArmsSuffice := by
  constructor
  · intro hsafe i name j hname hmatch hne hreach
    by_contra hnot
    have out := p.out_of_reaches hreach
    have hi : i < p.arms.length := by
      obtain ⟨e, ⟨arm, harm, -⟩, -⟩ := hname
      exact (List.getElem?_eq_some_iff.mp harm).1
    obtain ⟨n, hpath, hn⟩ := hreach
    exact hsafe i ((p.clientArm_iff out).mpr ⟨hi, hnot⟩)
      ⟨n, .head (.composes out hname hmatch) hpath, hn⟩
  · rintro hfirst i hclient ⟨n, hpath, hn⟩
    have out := p.out_of_reaches ⟨n, hpath, hn⟩
    exact ((p.clientArm_iff out).mp hclient).2 (p.reaches_cases hfirst hpath hn)

end Program

/-- `update` of a program whose message `Got` has an arm for each result:

    update msg model = case msg of
        Compose r -> update (Got r) model
        Got (Ok _) -> ( model, Cmd.none )
        Got (Err _) -> ( model, Db.exec model ) -/
def composeBody : Body where
  exprs := [.var (.ofLocal 0), .var (.ofDef 0), .var (.ctor 2), .var (.ofLocal 2), .call 2 [3],
    .var (.ofLocal 1), .call 1 [4, 5], .var (.kernel "Cmd" "none"), .tuple [5, 7],
    .var (.kernel "Db" "exec"), .call 9 [5], .tuple [5, 10],
    .caseOf 0 [⟨0, 6⟩, ⟨1, 8⟩, ⟨3, 11⟩]]
  pats := [.ctor "Compose" [5], .ctor "Got" [2], .ctor "Ok" [4], .ctor "Got" [6], .anything,
    .var 2, .ctor "Err" [4]]
  root := some 12
  ordered := by decide

def composeProgram : Program where
  db :=
    { modules := [⟨"Main", [(0, composeBody)]⟩]
      defs := [⟨0, "update"⟩, ⟨0, "Compose"⟩, ⟨0, "Got"⟩] }
  checkIds := [0]
  clientCrypto := false
  update := 0
  body := composeBody
  root := 12
  lets := []
  arms := [⟨0, 6⟩, ⟨1, 8⟩, ⟨3, 11⟩]
  resolved := rfl
  rooted := rfl
  top := .caseOf rfl
  reached := ⟨0, by decide, .refl⟩

/-- The composing arm takes the verdict of the first `Got` arm, and the second reaches the
database. -/
theorem composeProgram_leaks : composeProgram.ClientArm 0 ∧ composeProgram.ReachesServer 0 := by
  have out : ¬composeProgram.db.InSpa composeProgram.update := by
    rintro ⟨loc, hloc, hspa⟩
    cases hloc
    exact absurd hspa (by decide)
  have hcompose : composeProgram.Composes 0 "Got" := ⟨6, ⟨⟨0, 6⟩, rfl, .refl⟩, rfl⟩
  have hmatch : composeProgram.Matches "Got" 2 := ⟨⟨3, 11⟩, rfl, .ctor rfl⟩
  refine ⟨⟨_, rfl, rfl⟩, .arm 2, .single (.composes out hcompose hmatch), out, 9, .inl ?_, ?_⟩
  · refine ⟨⟨3, 11⟩, rfl, .tail (.single (b := 10) ?_) ?_⟩ <;> decide
  · exact .inl (.inl ⟨"Db", "exec", rfl, by decide⟩)

end Sky.Partition
