import Sky.Model.Partition.Analysis

/-! # What the walk of an expression records -/

namespace Sky.Partition

open Relation

/-- What the split asks of the references of a subtree. -/
inductive Fact where
  | server
  | foreign
  | callee (d : DefId)
  | composed (name : Name)
  | generic

/-- The references hold a fact. -/
def Refs.Has (acc : Refs) : Fact → Prop
  | .server => acc.serverKernels ≠ []
  | .foreign => acc.foreign = true
  | .callee d => d ∈ acc.callees
  | .composed name => name ∈ acc.scopedUpdates
  | .generic => acc.genericUpdate = true

/-- The arguments of a call of `update` that the context composes. -/
def CollectCtx.updateCall (ctx : CollectCtx) (body : Body) : Expr → Option (SkyDb × List ExprId)
  | .call callee args =>
      match ctx.updateDef, ctx.db with
      | some update, some db =>
          if body.expr callee = .var (.ofDef update) then some (db, args) else none
      | _, _ => none
  | _ => none

/-- The expressions the walk enters below an expression. -/
def CollectCtx.walked (ctx : CollectCtx) (body : Body) (x : Expr) : List ExprId :=
  match ctx.updateCall body x with
  | some (_, args) => args
  | none => x.children

/-- The expression is a reference to a kernel, or a call that names a runtime symbol, of the
server. -/
def ServerKernel (clientCrypto : Bool) (body : Body) (x : Expr) : Prop :=
  (∃ module func, x.res = some (.kernel module func) ∧
    classifyKernelIn clientCrypto (lastSegment module) func = .serverOnly) ∨
  ∃ sym, body.symbolLiteral x = some sym ∧
    classifyKernelIn clientCrypto (ffiSymbol sym).1 (ffiSymbol sym).2 = .serverOnly

/-- What an expression records itself. -/
def CollectCtx.Emits (ctx : CollectCtx) (body : Body) (x : Expr) : Fact → Prop
  | .server => ServerKernel ctx.clientCrypto body x
  | .foreign => ∃ package name, x.res = some (.foreign package name)
  | .callee d => x.res = some (.ofDef d) ∧ ¬(ctx.updateDef = some d ∧ x = .var (.ofDef d))
  | .composed name => ∃ db args, ctx.updateCall body x = some (db, args) ∧
      args.head?.bind (literalCtorName body db) = some name
  | .generic => (∃ d, ctx.updateDef = some d ∧ x = .var (.ofDef d)) ∨
      ∃ db args, ctx.updateCall body x = some (db, args) ∧
        args.head?.bind (literalCtorName body db) = none

theorem Body.symbolLiteral_eq_some {body : Body} {x : Expr} {sym : String} :
    body.symbolLiteral x = some sym ↔ ∃ callee first rest module func,
      x = .call callee (first :: rest) ∧ body.expr callee = .var (.kernel module func) ∧
        lastSegment module = "Ffi" ∧ func ∈ ffiPlumbing ∧ body.expr first = .str sym := by
  constructor
  · intro h
    unfold Body.symbolLiteral at h
    split at h
    · next callee first rest =>
        split at h
        · next module func sym' hcallee hfirst =>
            split at h
            · next hffi =>
                cases h
                exact ⟨callee, first, rest, module, func, rfl, hcallee, hffi.1, hffi.2, hfirst⟩
            · cases h
        · cases h
    · cases h
  · rintro ⟨callee, first, rest, module, func, rfl, hcallee, hm, hf, hfirst⟩
    unfold Body.symbolLiteral
    simp only [hcallee, hfirst]
    rw [if_pos ⟨hm, hf⟩]

/-! ## Recording -/

section Records

variable {acc : Refs} {fact : Fact}

theorem has_recordClass (module func : Name) (k : KernelClass) :
    (acc.recordClass module func k).Has fact ↔
      acc.Has fact ∨ k = .serverOnly ∧ fact = .server := by
  cases k <;> cases fact <;> simp [Refs.recordClass, Refs.Has]

theorem has_inlineForce (b : Bool) : ({ acc with inlineForce := b } : Refs).Has fact ↔
    acc.Has fact := by
  cases fact <;> rfl

theorem has_recordFfiSymbol (sym : String) (clientCrypto : Bool) :
    (recordFfiSymbol sym acc clientCrypto).Has fact ↔ acc.Has fact ∨
      classifyKernelIn clientCrypto (ffiSymbol sym).1 (ffiSymbol sym).2 = .serverOnly ∧
        fact = .server := by
  unfold recordFfiSymbol
  rw [has_recordClass]
  split
  · rw [has_inlineForce]
  · rfl

theorem has_recordRes (res : Res) (ctx : CollectCtx) :
    (recordRes res acc ctx).Has fact ↔ acc.Has fact ∨
      match fact with
      | .server => ∃ module func, res = .kernel module func ∧
          classifyKernelIn ctx.clientCrypto (lastSegment module) func = .serverOnly
      | .foreign => ∃ package name, res = .foreign package name
      | .callee d => res = .ofDef d
      | .composed _ | .generic => False := by
  cases res with
  | kernel module func =>
      rw [recordRes, has_recordClass]
      cases fact <;> simp
  | ofDef d =>
      cases fact with
      | callee c => simp [recordRes, Refs.Has, or_comm, eq_comm (a := c)]
      | server | foreign | composed | generic => simp [recordRes, Refs.Has]
  | foreign package name => cases fact <;> simp [recordRes, Refs.Has]
  | ofLocal | ctor | error => cases fact <;> simp [recordRes]

theorem has_recordUpdate (body : Body) (db : SkyDb) (args : List ExprId) :
    (recordUpdate body db args acc).Has fact ↔ acc.Has fact ∨
      match fact with
      | .composed name => args.head?.bind (literalCtorName body db) = some name
      | .generic => args.head?.bind (literalCtorName body db) = none
      | _ => False := by
  unfold recordUpdate
  cases args.head?.bind (literalCtorName body db) with
  | none => cases fact <;> simp [Refs.Has]
  | some head =>
      cases fact with
      | composed name => simp [Refs.Has, eq_comm (a := name)]
      | server | foreign | callee | generic => simp [Refs.Has]

theorem has_recordCallee (body : Body) (ctx : CollectCtx) (callee : ExprId)
    (args : List ExprId) :
    (recordCallee body ctx callee args acc).Has fact ↔ acc.Has fact ∨
      fact = .server ∧ ∃ sym, body.symbolLiteral (.call callee args) = some sym ∧
        classifyKernelIn ctx.clientCrypto (ffiSymbol sym).1 (ffiSymbol sym).2 =
          .serverOnly := by
  unfold recordCallee
  simp only [Body.symbolLiteral_eq_some, Expr.call.injEq]
  split
  · next module func hcallee =>
      set acc' : Refs := if lastSegment module = "Task" ∧ func = "run" then
        { acc with inlineForce := true } else acc with hacc
      have hsame : acc'.Has fact ↔ acc.Has fact := by
        rw [hacc]
        split
        · exact has_inlineForce true
        · rfl
      by_cases hffi : lastSegment module = "Ffi" ∧ func ∈ ffiPlumbing
      · rw [if_pos hffi]
        split
        · next sym hfirst =>
            obtain ⟨first, rest, rfl, hstr⟩ : ∃ first rest, args = first :: rest ∧
                body.expr first = .str sym := by
              cases args with
              | nil => cases hfirst
              | cons first rest => exact ⟨first, rest, rfl, Option.some.inj hfirst⟩
            rw [has_recordFfiSymbol, hsame]
            refine or_congr_right ⟨?_, ?_⟩
            · rintro ⟨hclass, rfl⟩
              exact ⟨rfl, sym, ⟨callee, first, rest, module, func, ⟨rfl, rfl⟩, hcallee, hffi.1,
                hffi.2, hstr⟩, hclass⟩
            · rintro ⟨rfl, sym', ⟨_, _, _, _, _, ⟨rfl, heq⟩, -, -, -, hstr'⟩, hclass⟩
              obtain ⟨rfl, -⟩ := List.cons.inj heq
              rw [hstr] at hstr'
              cases hstr'
              exact ⟨hclass, rfl⟩
        · next hnone =>
            rw [hsame]
            refine ⟨.inl, fun h => h.resolve_right ?_⟩
            rintro ⟨-, sym, ⟨_, _, _, _, _, ⟨rfl, rfl⟩, -, -, -, hstr⟩, -⟩
            exact hnone sym (congrArg some hstr)
      · rw [if_neg hffi, hsame]
        refine ⟨.inl, fun h => h.resolve_right ?_⟩
        rintro ⟨-, sym, ⟨_, _, _, _, _, ⟨rfl, -⟩, hk, hm, hf, -⟩, -⟩
        rw [hcallee] at hk
        cases hk
        exact hffi ⟨hm, hf⟩
  · next hcallee =>
      refine ⟨.inl, fun h => h.resolve_right ?_⟩
      rintro ⟨-, sym, ⟨_, _, _, module, func, ⟨rfl, -⟩, hk, -⟩, -⟩
      exact hcallee module func hk

end Records

/-! ## One level of the walk -/

section Level

variable {body : Body} {ctx : CollectCtx} {go : ExprId → Refs → Refs} {fact : Fact}
  {Q : ExprId → Prop}

theorem has_foldl {β : Type} {step : Refs → β → Refs} {R : β → Prop} {xs : List β}
    (h : ∀ b ∈ xs, ∀ acc, (step acc b).Has fact ↔ acc.Has fact ∨ R b) (acc : Refs) :
    (xs.foldl step acc).Has fact ↔ acc.Has fact ∨ ∃ b ∈ xs, R b := by
  induction xs generalizing acc with
  | nil => simp
  | cons b xs ih =>
      obtain ⟨hb, hxs⟩ := List.forall_mem_cons.mp h
      rw [List.foldl_cons, ih hxs, hb acc, or_assoc, List.exists_mem_cons_iff]

theorem emits_none {x : Expr} (hres : x.res = none) (hcall : ∀ callee args, x ≠ .call callee args) :
    ¬ctx.Emits body x fact := by
  have hsym : body.symbolLiteral x = none := by
    cases x with
    | call callee args => exact absurd rfl (hcall callee args)
    | _ => rfl
  have hupdate : ctx.updateCall body x = none := by
    cases x with
    | call callee args => exact absurd rfl (hcall callee args)
    | _ => rfl
  have hvar : ∀ d, x ≠ .var (.ofDef d) := by
    rintro d rfl
    cases hres
  cases fact <;> simp [CollectCtx.Emits, ServerKernel, hres, hsym, hupdate, hvar]

theorem emits_var (res : Res) : ctx.Emits body (.var res) fact ↔
    match fact with
    | .server => ∃ module func, res = .kernel module func ∧
        classifyKernelIn ctx.clientCrypto (lastSegment module) func = .serverOnly
    | .foreign => ∃ package name, res = .foreign package name
    | .callee d => res = .ofDef d ∧ ctx.updateDef ≠ some d
    | .composed _ => False
    | .generic => ∃ d, ctx.updateDef = some d ∧ res = .ofDef d := by
  cases fact with
  | callee d =>
      simp only [CollectCtx.Emits, Expr.res, Option.some.injEq, Expr.var.injEq]
      refine and_congr_right fun hres => ?_
      simp [hres]
  | server | foreign | composed | generic =>
      simp [CollectCtx.Emits, ServerKernel, Expr.res, Body.symbolLiteral, CollectCtx.updateCall]

theorem emits_binop (op : Name) (res : Res) (lhs rhs : ExprId) :
    ctx.Emits body (.binop op res lhs rhs) fact ↔
    match fact with
    | .server => ∃ module func, res = .kernel module func ∧
        classifyKernelIn ctx.clientCrypto (lastSegment module) func = .serverOnly
    | .foreign => ∃ package name, res = .foreign package name
    | .callee d => res = .ofDef d
    | .composed _ | .generic => False := by
  cases fact <;>
    simp [CollectCtx.Emits, ServerKernel, Expr.res, Body.symbolLiteral, CollectCtx.updateCall]

theorem collectExpr_var_update {d : DefId} (hupdate : ctx.updateDef = some d) (acc : Refs) :
    collectExpr body ctx go (.var (.ofDef d)) acc = { acc with genericUpdate := true } := by
  simp [collectExpr, hupdate]

theorem collectExpr_var {res : Res} (h : ∀ d, ctx.updateDef = some d → res ≠ .ofDef d)
    (acc : Refs) : collectExpr body ctx go (.var res) acc = recordRes res acc ctx := by
  unfold collectExpr
  simp only
  split
  · next update d hupdate =>
      rw [if_neg]
      rintro rfl
      exact h d hupdate rfl
  · rfl

theorem has_collectExpr_var (res : Res) (acc : Refs) :
    (collectExpr body ctx go (.var res) acc).Has fact ↔
      acc.Has fact ∨ ctx.Emits body (.var res) fact := by
  rw [emits_var]
  by_cases h : ∃ d, ctx.updateDef = some d ∧ res = .ofDef d
  · obtain ⟨d, hupdate, rfl⟩ := h
    rw [collectExpr_var_update hupdate]
    cases fact <;> simp +contextual [Refs.Has, hupdate]
  · rw [not_exists] at h
    rw [collectExpr_var fun d hupdate hres => h d ⟨hupdate, hres⟩, has_recordRes]
    cases fact with
    | callee d =>
        exact or_congr_right ⟨fun hres => ⟨hres, fun hupdate => h d ⟨hupdate, hres⟩⟩, And.left⟩
    | generic => exact or_congr_right ⟨False.elim, fun ⟨d, hd⟩ => h d hd⟩
    | server | foreign | composed => exact Iff.rfl

/-- What a call of `update` records of the message it is given. -/
def ComposesFact (ctx : CollectCtx) (body : Body) (x : Expr) : Fact → Prop
  | .composed name => ∃ db args, ctx.updateCall body x = some (db, args) ∧
      args.head?.bind (literalCtorName body db) = some name
  | .generic => ∃ db args, ctx.updateCall body x = some (db, args) ∧
      args.head?.bind (literalCtorName body db) = none
  | _ => False

theorem emits_call {callee : ExprId} {args : List ExprId} :
    ctx.Emits body (.call callee args) fact ↔
      ComposesFact ctx body (.call callee args) fact ∨
      fact = .server ∧ ∃ sym, body.symbolLiteral (.call callee args) = some sym ∧
        classifyKernelIn ctx.clientCrypto (ffiSymbol sym).1 (ffiSymbol sym).2 =
          .serverOnly := by
  cases fact <;> simp [CollectCtx.Emits, ServerKernel, Expr.res, ComposesFact]

theorem not_composesFact {x : Expr} (h : ctx.updateCall body x = none) :
    ¬ComposesFact ctx body x fact := by
  cases fact <;> simp [ComposesFact, h]

theorem composesFact_iff {x : Expr} {db : SkyDb} {args : List ExprId}
    (h : ctx.updateCall body x = some (db, args)) :
    ComposesFact ctx body x fact ↔
      match fact with
      | .composed name => args.head?.bind (literalCtorName body db) = some name
      | .generic => args.head?.bind (literalCtorName body db) = none
      | _ => False := by
  cases fact <;> simp [ComposesFact, h]

theorem updateCall_call {callee : ExprId} {args args' : List ExprId} {db : SkyDb}
    (h : ctx.updateCall body (.call callee args) = some (db, args')) :
    args' = args ∧ ∃ d, ctx.updateDef = some d ∧ ctx.db = some db ∧
      body.expr callee = .var (.ofDef d) := by
  unfold CollectCtx.updateCall at h
  simp only at h
  split at h
  · next update db' hupdate hdb =>
      split at h
      · next hcallee =>
          cases h
          exact ⟨rfl, update, hupdate, hdb, hcallee⟩
      · cases h
  · cases h

theorem collectExpr_call_update {callee : ExprId} {args : List ExprId} {db : SkyDb}
    (h : ctx.updateCall body (.call callee args) = some (db, args)) (acc : Refs) :
    collectExpr body ctx go (.call callee args) acc =
      args.foldl (fun acc a => go a acc) (recordUpdate body db args acc) := by
  obtain ⟨-, d, hupdate, hdb, hcallee⟩ := updateCall_call h
  unfold collectExpr
  simp only [hupdate, hdb, if_pos hcallee]

theorem collectExpr_call {callee : ExprId} {args : List ExprId}
    (h : ctx.updateCall body (.call callee args) = none) (acc : Refs) :
    collectExpr body ctx go (.call callee args) acc =
      args.foldl (fun acc a => go a acc) (go callee (recordCallee body ctx callee args acc)) := by
  unfold CollectCtx.updateCall at h
  unfold collectExpr
  cases hupdate : ctx.updateDef with
  | none => rfl
  | some update =>
      cases hdb : ctx.db with
      | none => rfl
      | some db =>
          simp only [hupdate, hdb] at h ⊢
          split at h
          · cases h
          · next hcallee => rw [if_neg hcallee]

theorem has_collectExpr_call {callee : ExprId} {args : List ExprId}
    (hgo : ∀ c ∈ ctx.walked body (.call callee args), ∀ acc,
      (go c acc).Has fact ↔ acc.Has fact ∨ Q c) (acc : Refs) :
    (collectExpr body ctx go (.call callee args) acc).Has fact ↔
      acc.Has fact ∨ ctx.Emits body (.call callee args) fact ∨
        ∃ c ∈ ctx.walked body (.call callee args), Q c := by
  rw [emits_call]
  unfold CollectCtx.walked at hgo ⊢
  cases hcall : ctx.updateCall body (.call callee args) with
  | none =>
      rw [hcall] at hgo
      obtain ⟨hcallee, hargs⟩ := List.forall_mem_cons.mp hgo
      rw [collectExpr_call hcall, has_foldl hargs, hcallee, has_recordCallee]
      have hno : ¬ComposesFact ctx body (.call callee args) fact := not_composesFact hcall
      simp only [Expr.children, List.exists_mem_cons_iff, hno, false_or, or_assoc]
  | some p =>
      obtain ⟨db, args'⟩ := p
      obtain ⟨rfl, d, -, -, hd⟩ := updateCall_call hcall
      rw [hcall] at hgo
      rw [collectExpr_call_update hcall, has_foldl hgo, has_recordUpdate, composesFact_iff hcall]
      have hsym : body.symbolLiteral (.call callee args') = none := by
        rw [Option.eq_none_iff_forall_not_mem]
        intro sym hsym
        obtain ⟨_, _, _, _, _, hx, hk, -⟩ := Body.symbolLiteral_eq_some.mp hsym
        cases hx
        rw [hd] at hk
        cases hk
      rw [hsym, or_assoc]
      refine or_congr_right (or_congr_left ?_)
      simp

/-- An expression that makes no reference and no call records what the ones below it do. -/
theorem level_of_children {x : Expr} {acc acc' : Refs} (hres : x.res = none)
    (hcall : ∀ callee args, x ≠ .call callee args)
    (h : acc'.Has fact ↔ acc.Has fact ∨ ∃ c ∈ x.children, Q c) :
    acc'.Has fact ↔ acc.Has fact ∨ ctx.Emits body x fact ∨ ∃ c ∈ ctx.walked body x, Q c := by
  have hwalked : ctx.walked body x = x.children := by
    cases x with
    | call callee args => exact absurd rfl (hcall callee args)
    | _ => rfl
  rw [hwalked, h]
  refine or_congr_right ⟨.inr, fun hx => hx.resolve_left (emits_none hres hcall)⟩

/-- One level of the walk records what the expression records and what the walked ones do. -/
theorem has_collectExpr {x : Expr}
    (hgo : ∀ c ∈ ctx.walked body x, ∀ acc, (go c acc).Has fact ↔ acc.Has fact ∨ Q c)
    (acc : Refs) :
    (collectExpr body ctx go x acc).Has fact ↔
      acc.Has fact ∨ ctx.Emits body x fact ∨ ∃ c ∈ ctx.walked body x, Q c := by
  cases x with
  | call callee args => exact has_collectExpr_call hgo acc
  | var res =>
      rw [has_collectExpr_var]
      simp [CollectCtx.walked, CollectCtx.updateCall, Expr.children]
  | int | float | str | chr | bool | unit | accessor | error =>
      refine level_of_children rfl (by simp) ?_
      simp [collectExpr, Expr.children]
  | list xs | tuple xs => exact level_of_children rfl (by simp) (has_foldl hgo acc)
  | record fields =>
      refine level_of_children rfl (by simp) ?_
      have hfields := List.forall_mem_map.mp hgo
      simp only [collectExpr, has_foldl hfields, Expr.children, List.mem_map, exists_exists_and_eq_and]
  | update base fields =>
      refine level_of_children rfl (by simp) ?_
      obtain ⟨hbase, hrest⟩ := List.forall_mem_cons.mp hgo
      have hfields := List.forall_mem_map.mp hrest
      simp only [collectExpr, has_foldl hfields, hbase, Expr.children, List.exists_mem_cons_iff,
        List.mem_map, exists_exists_and_eq_and, or_assoc]
  | negate x | access x _ | lambda _ x =>
      refine level_of_children rfl (by simp) ?_
      have hx := hgo x (List.mem_singleton.mpr rfl)
      simp only [collectExpr, hx, Expr.children, List.mem_singleton, exists_eq_left]
  | binop op res lhs rhs =>
      have hlhs := hgo lhs List.mem_cons_self
      have hrhs := hgo rhs (List.mem_cons_of_mem lhs List.mem_cons_self)
      simp only [collectExpr, hrhs, hlhs, has_recordRes, emits_binop, CollectCtx.walked,
        CollectCtx.updateCall, Expr.children, List.exists_mem_cons_iff, or_assoc]
      simp
  | ifElse arms els =>
      refine level_of_children rfl (by simp) ?_
      obtain ⟨harms, hels⟩ := List.forall_mem_append.mp hgo
      have hels := hels els (List.mem_singleton.mpr rfl)
      have harm : ∀ a ∈ arms, ∀ acc, (go a.2 (go a.1 acc)).Has fact ↔
          acc.Has fact ∨ Q a.1 ∨ Q a.2 := by
        intro a ha acc
        have hmem : ∀ c ∈ [a.1, a.2], c ∈ arms.flatMap fun a => [a.1, a.2] := fun c hc =>
          List.mem_flatMap.mpr ⟨a, ha, hc⟩
        rw [harms a.2 (hmem a.2 (by simp)), harms a.1 (hmem a.1 (by simp)), or_assoc]
      have hbelow : (∃ c ∈ arms.flatMap fun a => [a.1, a.2], Q c) ↔
          ∃ a ∈ arms, Q a.1 ∨ Q a.2 := by
        simp only [List.mem_flatMap, List.mem_cons, List.not_mem_nil, or_false]
        constructor
        · rintro ⟨c, ⟨a, ha, rfl | rfl⟩, hc⟩
          · exact ⟨a, ha, .inl hc⟩
          · exact ⟨a, ha, .inr hc⟩
        · rintro ⟨a, ha, hc | hc⟩
          · exact ⟨a.1, ⟨a, ha, .inl rfl⟩, hc⟩
          · exact ⟨a.2, ⟨a, ha, .inr rfl⟩, hc⟩
      simp only [collectExpr, hels, has_foldl harm, Expr.children, List.mem_append,
        List.mem_singleton, or_and_right, exists_or, exists_eq_left, or_assoc]
      exact or_congr_right (or_congr_left hbelow.symm)
  | letIn defs b =>
      refine level_of_children rfl (by simp) ?_
      obtain ⟨hdefs, hb⟩ := List.forall_mem_append.mp hgo
      have hb := hb b (List.mem_singleton.mpr rfl)
      have hdef : ∀ d ∈ defs, ∀ acc, (collectExpr.collectLocaldef go d acc).Has fact ↔
          acc.Has fact ∨ Q d.body := by
        intro d hd acc
        rw [collectExpr.collectLocaldef, hdefs d.body (List.mem_map_of_mem hd)]
        split
        · rw [has_inlineForce]
        · rfl
      simp only [collectExpr, hb, has_foldl hdef, Expr.children, List.mem_append, List.mem_map,
        List.mem_singleton, or_and_right, exists_or, exists_exists_and_eq_and, exists_eq_left,
        or_assoc]
  | caseOf subject branches =>
      refine level_of_children rfl (by simp) ?_
      obtain ⟨hsubject, hrest⟩ := List.forall_mem_cons.mp hgo
      have hbranches := List.forall_mem_map.mp hrest
      simp only [collectExpr, has_foldl hbranches, hsubject, Expr.children,
        List.exists_mem_cons_iff, List.mem_map, exists_exists_and_eq_and, or_assoc]

end Level

/-! ## The whole walk -/

/-- The walk from an expression enters another. -/
def CollectCtx.Walks (ctx : CollectCtx) (body : Body) : ExprId → ExprId → Prop :=
  ReflTransGen fun a b => b ∈ ctx.walked body (body.expr a)

theorem mem_children_of_walked {ctx : CollectCtx} {body : Body} {x : Expr} {c : ExprId}
    (h : c ∈ ctx.walked body x) : c ∈ x.children := by
  unfold CollectCtx.walked at h
  cases x with
  | call callee args =>
      cases hcall : ctx.updateCall body (.call callee args) with
      | none =>
          rw [hcall] at h
          exact h
      | some p =>
          obtain ⟨rfl, -⟩ := updateCall_call hcall
          rw [hcall] at h
          exact List.mem_cons_of_mem callee h
  | _ => exact h

theorem has_collectBelow {body : Body} {ctx : CollectCtx} {fact : Fact}
    (hskip : ctx.skip = none) {fuel : ℕ} {e : ExprId} (he : e < fuel) (acc : Refs) :
    (collectBelow body ctx fuel e acc).Has fact ↔
      acc.Has fact ∨ ∃ e', ctx.Walks body e e' ∧ ctx.Emits body (body.expr e') fact := by
  induction fuel generalizing e acc with
  | zero => exact absurd he (Nat.not_lt_zero e)
  | succ fuel ih =>
      rw [collectBelow, hskip, Option.any_none, if_neg Bool.false_ne_true]
      have hgo : ∀ c ∈ ctx.walked body (body.expr e), ∀ acc,
          (collectBelow body ctx fuel c acc).Has fact ↔ acc.Has fact ∨
            ∃ e', ctx.Walks body c e' ∧ ctx.Emits body (body.expr e') fact := fun c hc =>
        ih ((body.lt_of_mem_children (mem_children_of_walked hc)).trans_le (Nat.le_of_lt_succ he))
      rw [has_collectExpr hgo]
      refine or_congr_right ⟨?_, ?_⟩
      · rintro (hemit | ⟨c, hc, e', hwalk, hemit⟩)
        · exact ⟨e, .refl, hemit⟩
        · exact ⟨e', .head hc hwalk, hemit⟩
      · rintro ⟨e', hwalk, hemit⟩
        rcases hwalk.cases_head with rfl | ⟨c, hc, hwalk⟩
        · exact .inl hemit
        · exact .inr ⟨c, hc, e', hwalk, hemit⟩

/-- A walk records what the expressions it enters record. -/
theorem has_collect {body : Body} {ctx : CollectCtx} {fact : Fact} (hskip : ctx.skip = none)
    (e : ExprId) (acc : Refs) :
    (collect body e acc ctx).Has fact ↔
      acc.Has fact ∨ ∃ e', ctx.Walks body e e' ∧ ctx.Emits body (body.expr e') fact :=
  has_collectBelow hskip (Nat.lt_succ_self e) acc

theorem not_has_empty (fact : Fact) : ¬({} : Refs).Has fact := by
  cases fact <;> simp [Refs.Has]

/-! ## The conservative walk -/

/-- An expression stands under another in the tree. -/
def Body.Occurs (body : Body) : ExprId → ExprId → Prop :=
  ReflTransGen fun a b => b ∈ (body.expr a).children

theorem walked_plain {clientCrypto : Bool} (body : Body) (x : Expr) :
    CollectCtx.walked { clientCrypto := clientCrypto } body x = x.children := by
  cases x <;> rfl

theorem walks_plain {clientCrypto : Bool} (body : Body) :
    CollectCtx.Walks { clientCrypto := clientCrypto } body = body.Occurs := by
  unfold CollectCtx.Walks Body.Occurs
  simp only [walked_plain]

/-- A walk with no composition records every reference under the expression. -/
theorem has_collect_plain (body : Body) (clientCrypto : Bool) (e : ExprId) (acc : Refs) :
    ((collect body e acc { clientCrypto := clientCrypto }).Has .server ↔ acc.Has .server ∨
      ∃ e', body.Occurs e e' ∧ ServerKernel clientCrypto body (body.expr e')) ∧
    ((collect body e acc { clientCrypto := clientCrypto }).Has .foreign ↔ acc.Has .foreign ∨
      ∃ e' package name, body.Occurs e e' ∧
        (body.expr e').res = some (.foreign package name)) ∧
    ∀ d, (collect body e acc { clientCrypto := clientCrypto }).Has (.callee d) ↔
      acc.Has (.callee d) ∨ ∃ e', body.Occurs e e' ∧ (body.expr e').res = some (.ofDef d) := by
  refine ⟨?_, ?_, fun d => ?_⟩ <;> rw [has_collect rfl, walks_plain]
  · rfl
  · simp only [CollectCtx.Emits, exists_and_left]
  · simp [CollectCtx.Emits]

end Sky.Partition
