import Sky.Verification.Exhaustive.Values

/-! # An accepted `case` has a head for every value of its subject -/

namespace Sky.Exhaustive

/-! ## The union tables -/

namespace World

variable {w : World} {u : UnionDecl}

theorem insertCtors_ctorUnion (vs : List Variant) (c : Name) :
    (insertCtors u vs w).ctorUnion c =
      if c ∈ vs.map (·.name) then some u.name else w.ctorUnion c := by
  induction vs generalizing w with
  | nil => rfl
  | cons v vs ih =>
      rw [insertCtors, ih]
      by_cases hc : c = v.name
      · subst hc
        simp [insertCtor]
      · simp [insertCtor, hc]

theorem insertCtors_ctors_of_notMem {vs : List Variant} {c : Name} (h : c ∉ vs.map (·.name)) :
    (insertCtors u vs w).ctors c = w.ctors c := by
  induction vs generalizing w with
  | nil => rfl
  | cons v vs ih =>
      have hv : c ≠ v.name ∧ c ∉ vs.map (·.name) := by simpa using h
      rw [insertCtors, ih hv.2]
      simp [insertCtor, hv.1]

theorem insertCtors_ctors_of_mem {vs : List Variant} {c : Name} (h : c ∈ vs.map (·.name)) :
    ∃ v ∈ vs, v.name = c ∧ (insertCtors u vs w).ctors c = some (u, v) := by
  induction vs generalizing w with
  | nil => simp at h
  | cons v vs ih =>
      rw [insertCtors]
      by_cases hc : c ∈ vs.map (·.name)
      · obtain ⟨v', hv', hname, hctors⟩ := ih (w := w.insertCtor u v) hc
        exact ⟨v', List.mem_cons_of_mem _ hv', hname, hctors⟩
      · have hname : v.name = c := by
          rcases List.mem_cons.mp h with h | h
          · exact h.symm
          · exact absurd h hc
        refine ⟨v, List.mem_cons_self, hname, ?_⟩
        rw [insertCtors_ctors_of_notMem hc]
        simp [insertCtor, hname]

@[simp] theorem insertCtors_unionCtors (vs : List Variant) :
    (insertCtors u vs w).unionCtors = w.unionCtors := by
  induction vs generalizing w with
  | nil => rfl
  | cons v vs ih =>
      rw [insertCtors, ih]
      rfl

@[simp] theorem insertCtors_unionMembersByDef (vs : List Variant) :
    (insertCtors u vs w).unionMembersByDef = w.unionMembersByDef := by
  induction vs generalizing w with
  | nil => rfl
  | cons v vs ih =>
      rw [insertCtors, ih]
      rfl

/-- What the tables say after the unions of a list were recorded in order. -/
structure Coherent (w : World) (unions : List UnionDecl) : Prop where
  ctors_mem : ∀ c u v, w.ctors c = some (u, v) → u ∈ unions ∧ v ∈ u.variants ∧ v.name = c
  ctorUnion_ctors : ∀ c u v, w.ctors c = some (u, v) → w.ctorUnion c = some u.name
  listed : ∀ c u v, w.ctors c = some (u, v) → (w.unionCtors u.name).isSome
  latest : ∀ t ms, w.unionCtors t = some ms →
    (ms = ["True", "False"] ∧ ∀ c u v, w.ctors c = some (u, v) → u.name ≠ t) ∨
      ∃ u' ∈ unions, ms = u'.memberNames ∧
        ∀ c ∈ ms, ∀ u v, w.ctors c = some (u, v) → u = u' ∨ u.name ≠ t

theorem coherent_empty : Coherent empty [] := by
  refine ⟨?_, ?_, ?_, ?_⟩ <;> intros <;> simp_all [empty]

theorem ctors_insertByName (c : Name) :
    (∃ v ∈ u.variants, v.name = c ∧ (w.insertByName u).ctors c = some (u, v)) ∨
      c ∉ u.memberNames ∧ (w.insertByName u).ctors c = w.ctors c := by
  by_cases hc : c ∈ u.memberNames
  · exact Or.inl (insertCtors_ctors_of_mem hc)
  · exact Or.inr ⟨hc, insertCtors_ctors_of_notMem hc⟩

theorem ctorUnion_insertByName (c : Name) :
    (w.insertByName u).ctorUnion c =
      if c ∈ u.memberNames then some u.name else w.ctorUnion c :=
  insertCtors_ctorUnion u.variants c

theorem unionCtors_insertByName (t : Name) :
    (w.insertByName u).unionCtors t =
      if t = u.name then some u.memberNames else w.unionCtors t := by
  simp [insertByName, insertUnionCtors, Function.update_apply]

theorem Coherent.insertByName {unions : List UnionDecl} (h : Coherent w unions) :
    Coherent (w.insertByName u) (unions ++ [u]) := by
  refine ⟨?_, ?_, ?_, ?_⟩
  · intro c u₁ v₁ hctors
    rcases ctors_insertByName (w := w) (u := u) c with ⟨v, hv, hname, heq⟩ | ⟨_, heq⟩
    · rw [heq, Option.some.injEq, Prod.mk.injEq] at hctors
      obtain ⟨rfl, rfl⟩ := hctors
      exact ⟨by simp, hv, hname⟩
    · rw [heq] at hctors
      obtain ⟨hu, hv⟩ := h.ctors_mem c u₁ v₁ hctors
      exact ⟨List.mem_append_left _ hu, hv⟩
  · intro c u₁ v₁ hctors
    rw [ctorUnion_insertByName]
    rcases ctors_insertByName (w := w) (u := u) c with ⟨v, hv, hname, heq⟩ | ⟨hc, heq⟩
    · rw [heq, Option.some.injEq, Prod.mk.injEq] at hctors
      obtain ⟨rfl, rfl⟩ := hctors
      have hc : c ∈ u.memberNames := List.mem_map.mpr ⟨v, hv, hname⟩
      rw [if_pos hc]
    · rw [heq] at hctors
      rw [if_neg hc]
      exact h.ctorUnion_ctors c u₁ v₁ hctors
  · intro c u₁ v₁ hctors
    rw [unionCtors_insertByName]
    rcases ctors_insertByName (w := w) (u := u) c with ⟨v, hv, hname, heq⟩ | ⟨_, heq⟩
    · rw [heq, Option.some.injEq, Prod.mk.injEq] at hctors
      obtain ⟨rfl, rfl⟩ := hctors
      simp
    · rw [heq] at hctors
      split
      · rfl
      · exact h.listed c u₁ v₁ hctors
  · intro t ms hms
    rw [unionCtors_insertByName] at hms
    by_cases ht : t = u.name
    · -- the table of this name now belongs to the new union, and so do its constructors
      rw [if_pos ht, Option.some.injEq] at hms
      subst hms
      refine Or.inr ⟨u, by simp, rfl, ?_⟩
      intro c hc u₁ v₁ hctors
      rcases ctors_insertByName (w := w) (u := u) c with ⟨v, _, _, heq⟩ | ⟨hc', _⟩
      · rw [heq, Option.some.injEq, Prod.mk.injEq] at hctors
        exact Or.inl hctors.1.symm
      · exact absurd hc hc'
    · rw [if_neg ht] at hms
      have hold : ∀ c u₁ v₁, (w.insertByName u).ctors c = some (u₁, v₁) →
          w.ctors c = some (u₁, v₁) ∨ u₁.name ≠ t := by
        intro c u₁ v₁ hctors
        rcases ctors_insertByName (w := w) (u := u) c with ⟨v, _, _, heq⟩ | ⟨_, heq⟩
        · rw [heq, Option.some.injEq, Prod.mk.injEq] at hctors
          obtain ⟨rfl, rfl⟩ := hctors
          exact Or.inr (Ne.symm ht)
        · rw [heq] at hctors
          exact Or.inl hctors
      rcases h.latest t ms hms with ⟨hbool, hne⟩ | ⟨u', hu', hmem, hlast⟩
      · refine Or.inl ⟨hbool, ?_⟩
        intro c u₁ v₁ hctors
        rcases hold c u₁ v₁ hctors with hctors | hname
        · exact hne c u₁ v₁ hctors
        · exact hname
      · refine Or.inr ⟨u', List.mem_append_left _ hu', hmem, ?_⟩
        intro c hc u₁ v₁ hctors
        rcases hold c u₁ v₁ hctors with hctors | hname
        · exact hlast c hc u₁ v₁ hctors
        · exact Or.inr hname

theorem coherent_seedBuiltinCtors : Coherent seedBuiltinCtors prelude := by
  have h := (coherent_empty.insertByName (u := maybeDecl)).insertByName (u := resultDecl)
  have hnames : ∀ c u v, ((empty.insertByName maybeDecl).insertByName resultDecl).ctors c =
      some (u, v) → (u.name ≠ "Bool" ∧ c ≠ "True" ∧ c ≠ "False") := by
    intro c u v hctors
    obtain ⟨hu, hv, hname⟩ := h.ctors_mem c u v hctors
    have hprelude : ∀ u ∈ prelude, u.name ≠ "Bool" ∧ ∀ v ∈ u.variants, v.name ≠ "True" ∧
        v.name ≠ "False" := by
      simp [prelude, maybeDecl, resultDecl]
    obtain ⟨hbool, hvs⟩ := hprelude u hu
    exact ⟨hbool, hname ▸ hvs v hv⟩
  refine ⟨h.ctors_mem, ?_, ?_, ?_⟩
  · intro c u v hctors
    obtain ⟨_, htrue, hfalse⟩ := hnames c u v hctors
    have := h.ctorUnion_ctors c u v hctors
    simpa [seedBuiltinCtors, insertUnionCtors, htrue, hfalse] using this
  · intro c u v hctors
    have := h.listed c u v hctors
    have hbool := (hnames c u v hctors).1
    simpa [seedBuiltinCtors, insertUnionCtors, hbool] using this
  · intro t ms hms
    by_cases ht : t = "Bool"
    · subst ht
      have : ms = ["True", "False"] := by
        simpa [seedBuiltinCtors, insertUnionCtors] using hms.symm
      exact Or.inl ⟨this, fun c u v hctors => (hnames c u v hctors).1⟩
    · exact h.latest t ms (by simpa [seedBuiltinCtors, insertUnionCtors, ht] using hms)

/-- The name of a `Bool` head is read as the builtin's. -/
def ReadsBool (w : World) : Prop :=
  ∀ b : Bool, w.ctorUnion (if b then "True" else "False") = some "Bool"

theorem readsBool_seedBuiltinCtors : ReadsBool seedBuiltinCtors := by
  intro b
  cases b <;> rfl

theorem readsBool_recordUnion (h : ReadsBool w)
    (hfree : "True" ∉ u.memberNames ∧ "False" ∉ u.memberNames) :
    ReadsBool (w.recordUnion u) := by
  intro b
  have hb : (if b then "True" else "False") ∉ u.memberNames := by
    cases b with
    | false => exact hfree.2
    | true => exact hfree.1
  exact (ctorUnion_insertByName _).trans ((if_neg hb).trans (h b))

theorem coherent_foldl (decls unions : List UnionDecl) (h : Coherent w unions)
    (hbool : ReadsBool w)
    (hfree : ∀ u ∈ decls, "True" ∉ u.memberNames ∧ "False" ∉ u.memberNames) :
    Coherent (decls.foldl recordUnion w) (unions ++ decls) ∧
      ReadsBool (decls.foldl recordUnion w) := by
  induction decls generalizing w unions with
  | nil => simpa using ⟨h, hbool⟩
  | cons u decls ih =>
      have hu := h.insertByName (u := u)
      have := ih (w := w.recordUnion u) (unions ++ [u])
        ⟨hu.ctors_mem, hu.ctorUnion_ctors, hu.listed, hu.latest⟩
        (readsBool_recordUnion hbool (hfree u List.mem_cons_self))
        (fun u' hu' => hfree u' (List.mem_cons_of_mem _ hu'))
      simpa using this

theorem foldl_unionCtors_isSome {t : Name} (decls : List UnionDecl)
    (h : (w.unionCtors t).isSome) : ((decls.foldl recordUnion w).unionCtors t).isSome := by
  induction decls generalizing w with
  | nil => exact h
  | cons u decls ih =>
      refine ih ?_
      refine (congrArg Option.isSome (unionCtors_insertByName (w := w) (u := u) t)).trans ?_
      split
      · rfl
      · exact h

theorem foldl_unionMembersByDef_of_notMem {decls : List UnionDecl} {d : DefId}
    (h : d ∉ decls.map (·.type_)) :
    (decls.foldl recordUnion w).unionMembersByDef d = w.unionMembersByDef d := by
  induction decls generalizing w with
  | nil => rfl
  | cons u decls ih =>
      have hu : d ≠ u.type_ ∧ d ∉ decls.map (·.type_) := by simpa using h
      rw [List.foldl_cons, ih hu.2]
      simp [recordUnion, insertByName, insertUnionCtors, hu.1]

theorem foldl_unionMembersByDef {decls : List UnionDecl} (hd : (decls.map (·.type_)).Nodup)
    (hu : u ∈ decls) :
    (decls.foldl recordUnion w).unionMembersByDef u.type_ = some u.memberNames := by
  induction decls generalizing w with
  | nil => simp at hu
  | cons u' decls ih =>
      simp only [List.map_cons, List.nodup_cons] at hd
      rw [List.foldl_cons]
      rcases List.mem_cons.mp hu with rfl | hu
      · rw [foldl_unionMembersByDef_of_notMem hd.1]
        simp [recordUnion]
      · exact ih hd.2 hu

end World

namespace Program

variable (P : Program)

theorem coherent : P.world.Coherent P.unions :=
  (World.coherent_foldl P.decls prelude World.coherent_seedBuiltinCtors
    World.readsBool_seedBuiltinCtors P.keywordFree).1

theorem readsBool : P.world.ReadsBool :=
  (World.coherent_foldl P.decls prelude World.coherent_seedBuiltinCtors
    World.readsBool_seedBuiltinCtors P.keywordFree).2

theorem boolListed : (P.world.unionCtors "Bool").isSome :=
  World.foldl_unionCtors_isSome P.decls rfl

theorem unionMembersByDef {u : UnionDecl} (hu : u ∈ P.decls) :
    P.world.unionMembersByDef u.type_ = some u.memberNames := by
  have hd := P.distinct
  rw [List.map_append, List.nodup_append] at hd
  exact World.foldl_unionMembersByDef hd.2.1 hu

end Program

end Sky.Exhaustive
