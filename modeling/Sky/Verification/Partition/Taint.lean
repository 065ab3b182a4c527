import Sky.Verification.Partition.References

/-! # The taint graph marks the definitions from which a chain reaches the server -/

namespace Sky.Partition

open Relation

/-! ## Chains through definitions -/

namespace SkyDb

variable (db : SkyDb)

/-- The definition belongs to the client framework. -/
def InSpa (d : DefId) : Prop :=
  ∃ loc, db.defLoc d = some loc ∧ db.moduleName loc.module = "Std.Spa"

/-- The body a definition has in its module. -/
def bodyOf (d : DefId) : Option Body :=
  (db.defLoc d).bind fun loc => (db.bodies loc.module).lookup d

/-- An expression stands in the body of a definition outside the client framework. -/
def Contains (d : DefId) (body : Body) (e : ExprId) : Prop :=
  ¬db.InSpa d ∧ db.bodyOf d = some body ∧ ∃ root, body.root = some root ∧ body.Occurs root e

/-- The definition has no location or no body. -/
def Unresolvable (d : DefId) : Prop := ¬db.InSpa d ∧ db.bodyOf d = none

def RefersTo (d d' : DefId) : Prop :=
  ∃ body e, db.Contains d body e ∧ (body.expr e).res = some (.ofDef d')

end SkyDb

/-- The expression is a server kernel or a Go FFI reference. -/
def ServerEffect (clientCrypto : Bool) (body : Body) (x : Expr) : Prop :=
  ServerKernel clientCrypto body x ∨ ∃ package name, x.res = some (.foreign package name)

/-- The definition cannot be resolved or its body has a server effect. -/
def Tainted (db : SkyDb) (clientCrypto : Bool) (d : DefId) : Prop :=
  db.Unresolvable d ∨
    ∃ body e, db.Contains d body e ∧ ServerEffect clientCrypto body (body.expr e)

/-! ## The nodes of the graph -/

theorem directServerReason_isSome {acc : Refs} :
    acc.directServerReason.isSome ↔ acc.Has .server ∨ acc.Has .foreign := by
  obtain ⟨kernels, _, _, foreign, _, _, _⟩ := acc
  cases kernels <;> cases foreign <;> simp [Refs.directServerReason, Refs.Has]

section Nodes

variable (db : SkyDb) (clientCrypto : Bool)

theorem has_bodyRefs (body : Body) :
    ((bodyRefs clientCrypto body).directServerReason.isSome ↔
      ∃ root e, body.root = some root ∧ body.Occurs root e ∧
        ServerEffect clientCrypto body (body.expr e)) ∧
    ∀ d, d ∈ (bodyRefs clientCrypto body).callees ↔
      ∃ root e, body.root = some root ∧ body.Occurs root e ∧
        (body.expr e).res = some (.ofDef d) := by
  unfold bodyRefs
  cases hroot : body.root with
  | none => simp [Refs.directServerReason]
  | some root =>
      obtain ⟨hserver, hforeign, hcallee⟩ := has_collect_plain body clientCrypto root {}
      constructor
      · rw [directServerReason_isSome, hserver, hforeign]
        simp only [not_has_empty, false_or, Option.some.injEq, exists_eq_left', ServerEffect,
          and_or_left, exists_or, exists_and_left]
      · intro d
        refine (hcallee d).trans ?_
        simp only [not_has_empty, false_or, Option.some.injEq, exists_eq_left', exists_and_left]

/-- A node's own reason and its callees, from the program. -/
theorem defNode_spec (d : DefId) :
    ((defNode db clientCrypto d).direct.isSome ↔ Tainted db clientCrypto d) ∧
      ∀ c, c ∈ (defNode db clientCrypto d).callees ↔ db.RefersTo d c := by
  unfold defNode
  cases hloc : db.defLoc d with
  | none =>
      have hout : ¬db.InSpa d := by simp [SkyDb.InSpa, hloc]
      have hbody : db.bodyOf d = none := by simp [SkyDb.bodyOf, hloc]
      simp [Tainted, SkyDb.Unresolvable, SkyDb.RefersTo, SkyDb.Contains, hout, hbody]
  | some loc =>
      by_cases hspa : db.moduleName loc.module = "Std.Spa"
      · have hin : db.InSpa d := ⟨loc, hloc, hspa⟩
        simp [hspa, Tainted, SkyDb.Unresolvable, SkyDb.RefersTo, SkyDb.Contains, hin]
      · have hout : ¬db.InSpa d := by simp [SkyDb.InSpa, hloc, hspa]
        have hbody : db.bodyOf d = (db.bodies loc.module).lookup d := by
          simp [SkyDb.bodyOf, hloc]
        simp only [hspa, if_false]
        cases hlookup : (db.bodies loc.module).lookup d with
        | none =>
            rw [hlookup] at hbody
            simp [Tainted, SkyDb.Unresolvable, SkyDb.RefersTo, SkyDb.Contains, hout, hbody]
        | some body =>
            rw [hlookup] at hbody
            obtain ⟨hdirect, hcallees⟩ := has_bodyRefs clientCrypto body
            have hcontains : ∀ b e, db.Contains d b e ↔
                b = body ∧ ∃ root, b.root = some root ∧ b.Occurs root e := by
              intro b e
              simp [SkyDb.Contains, hout, hbody, eq_comm]
            have hresolved : ¬db.Unresolvable d := by simp [SkyDb.Unresolvable, hbody]
            constructor
            · refine hdirect.trans ⟨?_, ?_⟩
              · rintro ⟨root, e, hroot, hocc, heffect⟩
                exact .inr ⟨body, e, (hcontains body e).mpr ⟨rfl, root, hroot, hocc⟩, heffect⟩
              · rintro (h | ⟨b, e, hmem, heffect⟩)
                · exact absurd h hresolved
                · obtain ⟨rfl, root, hroot, hocc⟩ := (hcontains b e).mp hmem
                  exact ⟨root, e, hroot, hocc, heffect⟩
            · intro c
              refine (hcallees c).trans ⟨?_, ?_⟩
              · rintro ⟨root, e, hroot, hocc, hres⟩
                exact ⟨body, e, (hcontains body e).mpr ⟨rfl, root, hroot, hocc⟩, hres⟩
              · rintro ⟨b, e, hmem, hres⟩
                obtain ⟨rfl, root, hroot, hocc⟩ := (hcontains b e).mp hmem
                exact ⟨root, e, hroot, hocc, hres⟩

end Nodes

/-! ## The graph -/

section Marks

variable (db : SkyDb) (checkIds : List ModuleId) (clientCrypto : Bool)

/-- The definitions that the graph has a node for. -/
def graphDefs : List DefId := (buildGraph db checkIds clientCrypto).nodes.map (·.1)

theorem graphDefs_eq : graphDefs db checkIds clientCrypto =
    Saturation.search (fun d => (defNode db clientCrypto d).callees)
      (mentioned db clientCrypto).length (seeds db checkIds) := by
  unfold graphDefs buildGraph
  simp [Function.comp_def]

theorem mem_mentioned_of_bodies {m : ModuleId} {d : DefId} {body : Body}
    (h : (d, body) ∈ db.bodies m) :
    ∀ c ∈ d :: (bodyRefs clientCrypto body).callees, c ∈ mentioned db clientCrypto := by
  intro c hc
  unfold SkyDb.bodies at h
  cases hm : db.modules[m]? with
  | none => simp [hm] at h
  | some module =>
      simp only [hm, Option.map_some, Option.getD_some] at h
      exact List.mem_flatMap.mpr ⟨module, List.mem_of_getElem? hm,
        List.mem_flatMap.mpr ⟨(d, body), h, hc⟩⟩

theorem callees_mentioned (d : DefId) :
    ∀ c ∈ (defNode db clientCrypto d).callees, c ∈ mentioned db clientCrypto := by
  intro c hc
  unfold defNode at hc
  split at hc
  · cases hc
  · next loc hloc =>
      split at hc
      · cases hc
      · split at hc
        · cases hc
        · next body hlookup =>
            obtain ⟨before, after, heq, -⟩ := List.lookup_eq_some_iff.mp hlookup
            have hmem : (d, body) ∈ db.bodies loc.module := by simp [heq]
            exact mem_mentioned_of_bodies db clientCrypto hmem c
              (List.mem_cons_of_mem d hc)

theorem seeds_mentioned : ∀ d ∈ seeds db checkIds, d ∈ mentioned db clientCrypto := by
  intro d hd
  obtain ⟨m, -, hm⟩ := List.mem_flatMap.mp hd
  obtain ⟨⟨d, body⟩, hbody, rfl⟩ := List.mem_map.mp hm
  exact mem_mentioned_of_bodies db clientCrypto hbody d List.mem_cons_self

/-- The work list reaches every definition that the checked modules reach. -/
theorem graphDefs_spec :
    (∀ d ∈ seeds db checkIds, d ∈ graphDefs db checkIds clientCrypto) ∧
      ∀ d ∈ graphDefs db checkIds clientCrypto, ∀ c, db.RefersTo d c →
        c ∈ graphDefs db checkIds clientCrypto := by
  rw [graphDefs_eq]
  have hworld : ∀ {d}, d ∈ mentioned db clientCrypto → d ∈ (mentioned db clientCrypto).toFinset :=
    List.mem_toFinset.mpr
  obtain ⟨hseeds, hclosed⟩ := Saturation.search_spec
    (fun d c hc => hworld (callees_mentioned db clientCrypto d c hc))
    (fun d hd => hworld (seeds_mentioned db checkIds clientCrypto d hd))
    (List.toFinset_card_le (mentioned db clientCrypto))
  exact ⟨hseeds, fun d hd c hc => hclosed d hd c (((defNode_spec db clientCrypto d).2 c).mpr hc)⟩

theorem mem_graphDefs_of_path {d c : DefId} (hd : d ∈ graphDefs db checkIds clientCrypto)
    (h : ReflTransGen db.RefersTo d c) : c ∈ graphDefs db checkIds clientCrypto := by
  induction h with
  | refl => exact hd
  | tail _ hstep ih => exact (graphDefs_spec db checkIds clientCrypto).2 _ ih _ hstep

/-- A definition of the graph is marked where a chain from it reaches a tainted one. -/
theorem mem_server_iff {d : DefId} (hd : d ∈ graphDefs db checkIds clientCrypto) :
    d ∈ (buildGraph db checkIds clientCrypto).server ↔
      ∃ s, Tainted db clientCrypto s ∧ ReflTransGen db.RefersTo d s := by
  have hrefers : (fun a b => b ∈ (defNode db clientCrypto a).callees) = db.RefersTo := by
    funext a b
    exact propext ((defNode_spec db clientCrypto a).2 b)
  have hclosed : ∀ x ∈ graphDefs db checkIds clientCrypto,
      (defNode db clientCrypto x).callees ⊆ graphDefs db checkIds clientCrypto := fun x hx c hc =>
    (graphDefs_spec db checkIds clientCrypto).2 x hx c (((defNode_spec db clientCrypto x).2 c).mp hc)
  have hmarks := Saturation.mem_saturate_any
    ((graphDefs db checkIds clientCrypto).filter fun d =>
      (defNode db clientCrypto d).direct.isSome) hclosed hd
  rw [hrefers] at hmarks
  have hserver : (buildGraph db checkIds clientCrypto).server =
      Saturation.saturate (fun m x => (defNode db clientCrypto x).callees.any (· ∈ m))
        (graphDefs db checkIds clientCrypto) (graphDefs db checkIds clientCrypto).length
        ((graphDefs db checkIds clientCrypto).filter fun d =>
          (defNode db clientCrypto d).direct.isSome) := by
    rw [graphDefs_eq]
    rfl
  rw [hserver, hmarks]
  constructor
  · rintro ⟨s, hs, hpath⟩
    exact ⟨s, (defNode_spec db clientCrypto s).1.mp (List.mem_filter.mp hs).2, hpath⟩
  · rintro ⟨s, htaint, hpath⟩
    exact ⟨s, List.mem_filter.mpr ⟨mem_graphDefs_of_path db checkIds clientCrypto hd hpath,
      (defNode_spec db clientCrypto s).1.mpr htaint⟩, hpath⟩

end Marks

end Sky.Partition
