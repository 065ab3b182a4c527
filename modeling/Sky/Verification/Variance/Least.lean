import Sky.Verification.Variance.Table

/-! # The table is the least that unfolding respects -/

namespace Sky.Types

open Variance Library

/-- A union of the user's, as its constructors declare it. -/
structure UserUnion (ctors : List Ctor) (name : String) : Prop where
  listed : name ∉ covariantStdlib
  declared : ∃ c ∈ ctors, ∃ params args, c.Declares name params args
  stdlib : ∀ c ∈ ctors, ∀ params args, c.Declares name params args → c.stdlib = false

/-- The user's unions have distinct parameters, as many in each constructor, and no other variables. -/
structure Scoped (ctors : List Ctor) : Prop where
  nodup : ∀ name, UserUnion ctors name → ∀ c ∈ ctors, ∀ params args,
    c.Declares name params args → params.Nodup
  vars : ∀ name, UserUnion ctors name → ∀ c ∈ ctors, ∀ params args,
    c.Declares name params args → ∀ t ∈ args, ∀ n ∈ t.vars, n ∈ params
  arity : ∀ name, UserUnion ctors name → ∀ c ∈ ctors, ∀ params args, c.Declares name params args →
    ∀ c' ∈ ctors, ∀ params' args', c'.Declares name params' args' → params'.length = params.length

/-- What stands for a row variable of the type is a record or a variable. -/
def RowsBound (t : Ty) (params : List String) (args : List Ty) : Prop :=
  ∀ e ∈ t.rows, ∀ b, Ty.bindings params args e = some b → b.IsRow

namespace VarianceTable

/-- A variance for each parameter of the user's unions, over fixed ones. -/
structure Assigns (ctors : List Ctor) (fixed table : VarianceTable) : Prop where
  fixed : ∀ name, ¬UserUnion ctors name → table name = fixed name
  length : ∀ name, UserUnion ctors name → ∀ c ∈ ctors, ∀ params args,
    c.Declares name params args → (table name).list.length = params.length

/-- Unfolding a union shows no occurrence that the table does not have. -/
def Respects (ctors : List Ctor) (table : VarianceTable) : Prop :=
  ∀ name, UserUnion ctors name → ∀ c ∈ ctors, ∀ params types, c.Declares name params types →
    ∀ t ∈ types, ∀ args : List Ty, args.length = params.length → RowsBound t params args →
      ∀ v, table.occurrence v (t.substVars (Ty.bindings params args)) .co ≤
        table.occurrence v (.app name args) .co

/-- A finite unfolding of a type has the variable at a position of this sign. Unions are unfolded to
the arguments of a constructor, and other constructors have their fixed variances. -/
inductive OccursAt (ctors : List Ctor) (table : VarianceTable) (v : String) : ℤˣ → Ty → Prop where
  | var : OccursAt ctors table v 1 (.var v)
  | argument {s a b} : OccursAt ctors table v s a → OccursAt ctors table v (-s) (.fn a b)
  | result {s a b} : OccursAt ctors table v s b → OccursAt ctors table v s (.fn a b)
  | field {s f fields ext} : f ∈ fields → OccursAt ctors table v s f.2 →
      OccursAt ctors table v s (.record fields ext)
  | row {fields} : OccursAt ctors table v 1 (.record fields (some v))
  | tuple {s x xs} : x ∈ xs → OccursAt ctors table v s x → OccursAt ctors table v s (.tuple xs)
  | fixed {s s₁ name args a} {i : ℕ} : ¬UserUnion ctors name → args[i]? = some a →
      s₁ ∈ table.param name i args.length → OccursAt ctors table v s a →
      OccursAt ctors table v (s₁ * s) (.app name args)
  | unfold {s c name params types t args} : UserUnion ctors name → c ∈ ctors →
      c.Declares name params types → t ∈ types → args.length = params.length →
      RowsBound t params args → OccursAt ctors table v s (t.substVars (Ty.bindings params args)) →
      OccursAt ctors table v s (.app name args)

variable {ctors : List Ctor} {table : VarianceTable} {fixed : VarianceTable}

/-- A table that unfolding respects has every sign that an unfolding shows. -/
theorem OccursAt.mem {v : String} {s : ℤˣ} {t : Ty} (hrespects : Respects ctors table)
    (h : OccursAt ctors table v s t) : s ∈ table.occurrence v t .co := by
  induction h with
  | var => simp
  | @argument s a b _ ih =>
      rw [mem_occurrence_fn]
      refine .inl ((mem_occurrence_pol table (by decide) a).2 ⟨-1, by decide, s, ih, by simp⟩)
  | result _ ih => exact (mem_occurrence_fn table).2 (.inr ih)
  | field hf _ ih => exact (mem_occurrence_record table).2 (.inr ⟨_, hf, ih⟩)
  | row => exact (mem_occurrence_record table).2 (.inl ⟨rfl, by simp⟩)
  | tuple hx _ ih => exact (mem_occurrence_tuple table).2 ⟨_, hx, ih⟩
  | @fixed s s₁ name args a i _ ha h₁ _ ih =>
      exact (mem_occurrence_app table (by decide)).2
        ⟨i, a, ha, 1, by simp, s₁, h₁, s, ih, by rw [one_mul]⟩
  | unfold huser hc hdeclares ht hlength hrows _ ih =>
      exact le_def.1 (hrespects _ huser _ hc _ _ hdeclares _ ht _ hlength hrows _) _ ih

/-! ## The user's unions -/

theorem mem_userUnions_iff {name : String} :
    name ∈ userUnions (ctors.foldl addCtor ∅) ↔ UserUnion ctors name := by
  obtain ⟨hsome, hnone⟩ := grouped ctors name
  rw [mem_userUnions]
  constructor
  · rintro ⟨u, hu, huser⟩
    have hgrouped := hsome u hu
    simp only [Union.isUser, Bool.and_eq_true, decide_eq_true_eq, Bool.not_eq_true'] at huser
    obtain ⟨c, hc, args, hdeclares⟩ := hgrouped.params
    refine ⟨huser.1, ⟨c, hc, u.params, args, hdeclares⟩, ?_⟩
    intro d hd params args hdeclares
    by_contra hstdlib
    have hlib := hgrouped.stdlib.2 ⟨d, hd, by simpa using hstdlib, params, args, hdeclares⟩
    rw [huser.2] at hlib
    cases hlib
  · intro huser
    cases hlookup : (ctors.foldl addCtor ∅).lookup name with
    | none =>
        obtain ⟨c, hc, params, args, hdeclares⟩ := huser.declared
        exact absurd hdeclares (hnone hlookup c hc params args)
    | some u =>
        refine ⟨u, rfl, ?_⟩
        have hlib : u.stdlib = false := by
          by_contra hstdlib
          obtain ⟨d, hd, hlib, params, args, hdeclares⟩ :=
            (hsome u hlookup).stdlib.1 (by simpa using hstdlib)
          rw [huser.stdlib d hd params args hdeclares] at hlib
          cases hlib
        simp [Union.isUser, huser.listed, hlib]

end VarianceTable

/-- The union that the constructors come to. -/
theorem UserUnion.grouped {ctors : List Ctor} {name : String} (h : UserUnion ctors name) :
    ∃ u, (ctors.foldl addCtor ∅).lookup name = some u ∧ Grouped ctors name u := by
  obtain ⟨u, hu, _⟩ := VarianceTable.mem_userUnions.1 (VarianceTable.mem_userUnions_iff.2 h)
  exact ⟨u, hu, (Types.grouped ctors name).1 u hu⟩

/-! ## Parameters and their names in the union -/

theorem lookup_reverse {β : Type} {l : List (String × β)} (h : (l.map Prod.fst).Nodup) (n : String) :
    l.reverse.lookup n = l.lookup n := by
  induction l with
  | nil => rfl
  | cons x l ih =>
      rw [List.map_cons, List.nodup_cons] at h
      rw [List.reverse_cons, List.lookup_append, ih h.2, List.lookup_cons, List.lookup_cons,
        List.lookup_nil]
      by_cases hn : n = x.1
      · have hnone : l.lookup n = none := by
          rw [List.lookup_eq_none_iff]
          intro y hy
          rw [bne_iff_ne]
          rintro rfl
          exact h.1 (List.mem_map.2 ⟨y, hy, hn⟩)
        simp [← hn, hnone]
      · rw [beq_false_of_ne hn]
        cases l.lookup n <;> rfl

theorem lookup_map {β γ : Type} (f : β → γ) (l : List (String × β)) (n : String) :
    (l.map fun x => (x.1, f x.2)).lookup n = (l.lookup n).map f := by
  induction l with
  | nil => rfl
  | cons x l ih =>
      rw [List.map_cons, List.lookup_cons, List.lookup_cons, ih]
      split <;> rfl

section

variable {params names : List String} (hnodup : params.Nodup) (hlength : names.length = params.length)
include hnodup hlength

theorem collected_eq (n : String) : collected (params.zip names) n = (params.zip names).lookup n := by
  apply lookup_reverse
  rwa [List.map_fst_zip hlength.ge]

theorem bindings_var (n : String) :
    Ty.bindings params (names.map Ty.var) n = (collected (params.zip names) n).map Ty.var := by
  rw [collected_eq hnodup hlength, ← lookup_map, Ty.bindings, List.zip_map_right]
  rfl

theorem collected_get {i : ℕ} {n n' : String} (hi : params[i]? = some n) (hi' : names[i]? = some n') :
    collected (params.zip names) n = some n' := by
  obtain ⟨b, hb⟩ : ∃ b, Ty.bindings params (names.map Ty.var) n = some b := bindings_isSome (by rw [List.length_map, hlength])
    (List.mem_of_getElem? hi)
  obtain ⟨j, hj, hb'⟩ := bindings_spec hb
  obtain rfl : i = j := (List.getElem?_inj (List.getElem?_eq_some_iff.1 hi).1 hnodup).1 (hi.trans hj.symm)
  rw [List.getElem?_map, hi', Option.map_some, Option.some.injEq] at hb'
  subst hb'
  rw [bindings_var hnodup hlength, Option.map_eq_some_iff] at hb
  obtain ⟨m, hm, heq⟩ := hb
  rw [hm, Ty.var.inj heq]

end

/-- A renaming is a substitution of variables. -/
theorem Ty.substVars_eq_renameVars {sub : String → Option Ty} {m : String → Option String}
    (h : ∀ n, sub n = (m n).map .var) (t : Ty) : t.substVars sub = t.renameVars m := by
  induction t using Ty.induction with
  | var n => cases hn : m n <;> simp [Ty.substVars, Ty.renameVars, h, hn]
  | fn a b iha ihb => rw [Ty.substVars, Ty.renameVars, iha, ihb]
  | app name args ih =>
      rw [Ty.substVars, Ty.renameVars, Ty.substAll_eq, Ty.renameAll_eq, List.map_congr_left ih]
  | record fields ext ih =>
      have hfields : Ty.substFields sub fields = Ty.renameFields m fields := by
        rw [Ty.substFields_eq, Ty.renameFields_eq]
        exact List.map_congr_left fun f hf => by rw [ih f hf]
      cases ext with
      | none => rw [Ty.substVars, Ty.renameVars, hfields, Option.map_none]
      | some e => cases he : m e <;> simp [Ty.substVars, Ty.renameVars, Ty.bindRow, hfields, h, he]
  | tuple xs ih =>
      rw [Ty.substVars, Ty.renameVars, Ty.substAll_eq, Ty.renameAll_eq, List.map_congr_left ih]
  | unit => rfl
  | error => rfl

namespace VarianceTable

variable {ctors : List Ctor} {table : VarianceTable} {fixed : VarianceTable}

theorem extends_iff (hscoped : Scoped ctors) :
    Extends (ctors.foldl addCtor ∅) fixed table ↔ Assigns ctors fixed table := by
  constructor
  · intro h
    refine ⟨fun name hname => h.fixed name (mt mem_userUnions_iff.1 hname), ?_⟩
    intro name huser c hc params args hdeclares
    obtain ⟨u, hu, hgrouped⟩ := huser.grouped
    obtain ⟨c', hc', args', hdeclares'⟩ := hgrouped.params
    rw [h.length name (mem_userUnions_iff.2 huser) u hu]
    exact hscoped.arity name huser c hc params args hdeclares c' hc' u.params args' hdeclares'
  · intro h
    refine ⟨fun name hname => h.fixed name (mt mem_userUnions_iff.2 hname), ?_⟩
    intro name hname u hu
    obtain ⟨c, hc, args, hdeclares⟩ := ((Types.grouped ctors name).1 u hu).params
    exact h.length name (mem_userUnions_iff.1 hname) c hc u.params args hdeclares

/-! ## Closed tables -/

theorem param_of_user {name : String} (huser : UserUnion ctors name) {arity : ℕ}
    (hlength : (table name).list.length = arity) (i : ℕ) :
    table.param name i arity = (table name).list.getD i .inv := by
  rw [param, if_neg huser.listed, if_pos hlength]

/-- A table that unfolding respects is closed under the equations. -/
theorem Respects.closed (hscoped : Scoped ctors) (hassigns : Assigns ctors fixed table)
    (hrespects : Respects ctors table) :
    Sweep.Closed (equation (ctors.foldl addCtor ∅)) (userUnions (ctors.foldl addCtor ∅)) table := by
  intro name hname
  have huser := mem_userUnions_iff.1 hname
  obtain ⟨u, hu, hgrouped⟩ := huser.grouped
  obtain ⟨c₀, hc₀, args₀, hdeclares₀⟩ := hgrouped.params
  have hnodup := hscoped.nodup name huser c₀ hc₀ _ _ hdeclares₀
  have hlength := hassigns.length name huser c₀ hc₀ _ _ hdeclares₀
  simp only [equation, hu]
  rw [next_eq, Params.le_def, List.forall₂_iff_get]
  refine ⟨by rw [List.length_map, hlength], ?_⟩
  intro i hi hi'
  rw [List.length_map] at hi
  rw [List.get_eq_getElem, List.get_eq_getElem, List.getElem_map, le_def]
  intro s hs
  obtain ⟨a, ha, hs⟩ := mem_demanded.1 hs
  obtain ⟨c, hc, params, types, hdeclares, t, ht, rfl⟩ := (hgrouped.args a).1 ha
  have hparams := hscoped.arity name huser c hc _ _ hdeclares c₀ hc₀ _ _ hdeclares₀
  have hvar := bindings_var (hscoped.nodup name huser c hc _ _ hdeclares) hparams
  rw [← Ty.substVars_eq_renameVars hvar] at hs
  have hrows : RowsBound t params (u.params.map Ty.var) := by
    intro e _ b hb
    rw [hvar, Option.map_eq_some_iff] at hb
    obtain ⟨n, _, rfl⟩ := hb
    trivial
  have happ := le_def.1 (hrespects name huser c hc params types hdeclares t ht (u.params.map Ty.var)
    (by rw [List.length_map, hparams]) hrows u.params[i]) s hs
  obtain ⟨j, b, hj, s₀, h₀, s₁, h₁, s₂, h₂, rfl⟩ := (mem_occurrence_app table (by decide)).1 happ
  rw [List.getElem?_map, Option.map_eq_some_iff] at hj
  obtain ⟨n, hn, rfl⟩ := hj
  rw [mem_occurrence_var, mem_co] at h₂
  obtain ⟨rfl, rfl⟩ := h₂
  obtain rfl : i = j := (List.getElem?_inj hi hnodup).1 ((List.getElem?_eq_getElem hi).trans hn.symm)
  rw [mem_co] at h₀
  rw [List.length_map, param_of_user huser hlength, List.getD_eq_getElem _ _ hi'] at h₁
  rwa [h₀, one_mul, mul_one]

/-- Unfolding respects a table that the equations leave as it is. -/
theorem respects_of_fixed (hscoped : Scoped ctors)
    (hfixed : ∀ name ∈ userUnions (ctors.foldl addCtor ∅),
      equation (ctors.foldl addCtor ∅) name table = table name) : Respects ctors table := by
  intro name huser c hc params types hdeclares t ht args hlength hrows v
  rw [le_def]
  intro s hs
  obtain ⟨u, hu, hgrouped⟩ := huser.grouped
  obtain ⟨c₀, hc₀, args₀, hdeclares₀⟩ := hgrouped.params
  have hnodup := hscoped.nodup name huser c hc _ _ hdeclares
  have hparams := hscoped.arity name huser c hc _ _ hdeclares c₀ hc₀ _ _ hdeclares₀
  obtain ⟨i, n, b, hn, hb, s₁, h₁, s₂, h₂, rfl⟩ := mem_occurrence_subst table hlength (by decide) t
    (hscoped.vars name huser c hc _ _ hdeclares t ht) hrows hs
  have hlist : (table name).list = u.params.map (table.demanded u) := by
    rw [← hfixed name (mem_userUnions_iff.2 huser)]
    simp only [equation, hu, next_eq]
  have hi : i < u.params.length := by
    rw [hparams]
    exact (List.getElem?_eq_some_iff.1 hn).1
  have hname : ∀ w ∈ t.vars,
      (collected (params.zip u.params) w).getD w = u.params[i] ↔ w = n := by
    intro w hw
    obtain ⟨j, hj⟩ := List.mem_iff_getElem?.1 (hscoped.vars name huser c hc _ _ hdeclares t ht w hw)
    have hj' : j < u.params.length := by
      rw [hparams]
      exact (List.getElem?_eq_some_iff.1 hj).1
    rw [collected_get hnodup hparams hj (List.getElem?_eq_getElem hj'), Option.getD_some,
      (hscoped.nodup name huser c₀ hc₀ _ _ hdeclares₀).getElem_inj_iff]
    constructor
    · rintro rfl
      exact Option.some.inj (hj.symm.trans hn)
    · rintro rfl
      exact (List.getElem?_inj (List.getElem?_eq_some_iff.1 hj).1 hnodup).1 (hj.trans hn.symm)
  have hdemanded : s₁ ∈ table.demanded u u.params[i] :=
    mem_demanded.2 ⟨_, (hgrouped.args _).2 ⟨c, hc, params, types, hdeclares, t, ht, rfl⟩,
      (mem_occurrence_rename table (by decide) _ t hname).2 h₁⟩
  refine (mem_occurrence_app table (by decide)).2 ⟨i, b, hb, 1, by simp, s₁, ?_, s₂, h₂, by rw [one_mul]⟩
  rw [param_of_user huser (by rw [hlist, List.length_map, hparams, hlength]), hlist,
    List.getD_eq_getElem _ _ (by rwa [List.length_map]), List.getElem_map]
  exact hdemanded

/-- The sweeps give the least table that unfolding respects. -/
theorem buildOver_least (hscoped : Scoped ctors) (fixed : VarianceTable) :
    ∃ table, buildOver fixed ctors = some table ∧ Assigns ctors fixed table ∧
      Respects ctors table ∧
      (∀ other, Assigns ctors fixed other → Respects ctors other → table ≤ other) ∧
      ∀ v t, (table.occurrence v t .co).generalisable = true →
        ∀ s, OccursAt ctors table v s t → s = 1 := by
  obtain ⟨table, hbuild, hextends, hfixed, hleast⟩ := settle_spec (ctors.foldl addCtor ∅) fixed
  have hassigns := (extends_iff hscoped).1 hextends
  have hrespects := respects_of_fixed hscoped hfixed
  refine ⟨table, hbuild, hassigns, hrespects, ?_, ?_⟩
  · intro other hother hrespects
    exact hleast other ((extends_iff hscoped).2 hother) (hrespects.closed hscoped hother)
  · intro v t hgeneralisable s hoccurs
    rcases Int.units_eq_one_or s with rfl | rfl
    · rfl
    · exact absurd (hoccurs.mem hrespects) (generalisable_iff.1 hgeneralisable)

/-- `type Tree a = Node a (Forest (List a))` and `type Forest b = Grow (Tree b -> ())`. -/
def forest : List Ctor :=
  [⟨false, .fn (.var "a") (.fn (.app "Forest" [.app "List" [.var "a"]]) (.app "Tree" [.var "a"]))⟩,
    ⟨false, .fn (.fn (.app "Tree" [.var "b"]) .unit) (.app "Forest" [.var "b"])⟩]

theorem forest_declares {c : Ctor} (hc : c ∈ forest) {name : String} {params : List String}
    {args : List Ty} (h : c.Declares name params args) :
    ∃ p : String, params = [p] ∧ ∀ t ∈ args, ∀ n ∈ t.vars, n = p := by
  rcases List.mem_cons.1 hc with rfl | hc
  · have htree : (⟨false, .fn (.var "a") (.fn (.app "Forest" [.app "List" [.var "a"]])
        (.app "Tree" [.var "a"]))⟩ : Ctor).Declares "Tree" ["a"]
        [.var "a", .app "Forest" [.app "List" [.var "a"]]] := rfl
    obtain ⟨-, rfl, rfl⟩ := htree.unique h
    exact ⟨"a", rfl, by simp [Ty.vars, Ty.varsAll]⟩
  · obtain rfl := List.mem_singleton.1 hc
    have hforest : (⟨false, .fn (.fn (.app "Tree" [.var "b"]) .unit) (.app "Forest" [.var "b"])⟩ :
        Ctor).Declares "Forest" ["b"] [.fn (.app "Tree" [.var "b"]) .unit] := rfl
    obtain ⟨-, rfl, rfl⟩ := hforest.unique h
    exact ⟨"b", rfl, by simp [Ty.vars, Ty.varsAll]⟩

theorem forest_least : ∃ table, build forest = some table ∧
    Assigns forest (stdlibSeeds forest) table ∧ Respects forest table ∧
    (∀ other, Assigns forest (stdlibSeeds forest) other → Respects forest other → table ≤ other) ∧
    ∀ v t, (table.occurrence v t .co).generalisable = true → ∀ s, OccursAt forest table v s t → s = 1 := by
  refine buildOver_least ⟨?_, ?_, ?_⟩ (stdlibSeeds forest)
  · intro name _ c hc params args hdeclares
    obtain ⟨p, rfl, _⟩ := forest_declares hc hdeclares
    exact List.nodup_singleton p
  · intro name _ c hc params args hdeclares t ht n hn
    obtain ⟨p, rfl, hvars⟩ := forest_declares hc hdeclares
    exact List.mem_singleton.2 (hvars t ht n hn)
  · intro name _ c hc params args hdeclares c' hc' params' args' hdeclares'
    obtain ⟨p, rfl, _⟩ := forest_declares hc hdeclares
    obtain ⟨p', rfl, _⟩ := forest_declares hc' hdeclares'
    rfl

/-- `type T = C a` shows an occurrence of `a` that no table has, and a row variable that stands for
`()` stays where it is. -/
theorem foreign_variables :
    (∀ table : VarianceTable, ¬Respects [⟨false, .fn (.var "a") (.app "T" [])⟩] table) ∧
      ∀ table : VarianceTable,
        ¬table.occurrence "r" ((Ty.record [] (some "r")).substVars (Ty.bindings ["r"] [.unit])) .co ≤
          table.occurrence "r" (.app "U" [.unit]) .co := by
  constructor
  · intro table hrespects
    have hdeclares : (⟨false, .fn (.var "a") (.app "T" [])⟩ : Ctor).Declares "T" [] [.var "a"] := rfl
    have huser : UserUnion [⟨false, .fn (.var "a") (.app "T" [])⟩] "T" := by
      refine ⟨by decide, ⟨_, .head _, [], _, hdeclares⟩, ?_⟩
      intro c hc _ _ _
      rw [List.mem_singleton.1 hc]
    have hle := hrespects "T" huser _ (.head _) _ _ hdeclares (.var "a") (.head _) [] rfl
      (by simp [RowsBound, Ty.rows]) "a"
    exact absurd (le_def.1 hle 1 (by simp [Ty.substVars, Ty.bindings]))
      (by simp [occurrence, occurrenceArgs])
  · intro table hle
    have hmem : (1 : ℤˣ) ∈ table.occurrence "r"
        ((Ty.record [] (some "r")).substVars (Ty.bindings ["r"] [.unit])) .co := by
      simp [Ty.substVars, Ty.substFields, Ty.bindings, Ty.bindRow]
    obtain ⟨i, a, ha, _, _, _, _, s₂, h₂, _⟩ :=
      (mem_occurrence_app table (by decide)).1 (le_def.1 hle 1 hmem)
    obtain rfl := List.mem_singleton.1 (List.mem_of_getElem? ha)
    exact not_mem_occurrence_unit table h₂

end VarianceTable

end Sky.Types
