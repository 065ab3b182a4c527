import Sky.Verification.Variance.Substitution

/-! # The sweeps over the unions -/

namespace Sky.Types

open Variance Library

/-! ## The order of parameter lists -/

namespace Params

theorem forall₂_trans {a b c : List Variance} (hab : List.Forall₂ (· ≤ ·) a b)
    (hbc : List.Forall₂ (· ≤ ·) b c) : List.Forall₂ (· ≤ ·) a c := by
  induction hab generalizing c with
  | nil => exact hbc
  | cons hxy _ ih =>
      cases hbc with
      | cons hyz hrest => exact .cons (hxy.trans hyz) (ih hrest)

theorem forall₂_antisymm {a b : List Variance} (hab : List.Forall₂ (· ≤ ·) a b)
    (hba : List.Forall₂ (· ≤ ·) b a) : a = b := by
  induction hab with
  | nil => rfl
  | cons hxy _ ih =>
      cases hba with
      | cons hyx hrest => rw [le_antisymm hxy hyx, ih hrest]

instance : PartialOrder Params where
  le a b := List.Forall₂ (· ≤ ·) a.list b.list
  le_refl _ := List.forall₂_same.2 fun _ _ => le_rfl
  le_trans _ _ _ := forall₂_trans
  le_antisymm a b hab hba := by
    cases a
    cases b
    exact congrArg Params.mk (forall₂_antisymm hab hba)

variable {a b : Params}

theorem le_def : a ≤ b ↔ List.Forall₂ (· ≤ ·) a.list b.list := Iff.rfl

theorem length_eq (h : a ≤ b) : a.list.length = b.list.length := (le_def.1 h).length_eq

theorem getD_le (h : a ≤ b) (i : ℕ) (d : Variance) : a.list.getD i d ≤ b.list.getD i d := by
  have hall := le_def.1 h
  generalize a.list = l at hall
  generalize b.list = l' at hall
  induction hall generalizing i with
  | nil => exact le_rfl
  | cons hxy _ ih =>
      cases i with
      | zero => exact hxy
      | succ i => exact ih i

/-- How often the variances have gone up. -/
def height (a : Params) : ℕ := (a.list.map fun x => x.signs.card).sum

theorem height_le (a : Params) : a.height ≤ 2 * a.list.length := by
  unfold height
  induction a.list with
  | nil => exact le_rfl
  | cons x l ih =>
      have hx : x.signs.card ≤ 2 := by cases x <;> decide
      rw [List.map_cons, List.sum_cons, List.length_cons]
      omega

theorem height_lt (h : a < b) : a.height < b.height := by
  have hcases : ∀ l l' : List Variance, List.Forall₂ (· ≤ ·) l l' →
      l = l' ∨ (l.map fun x => x.signs.card).sum < (l'.map fun x => x.signs.card).sum := by
    intro l l' hall
    induction hall with
    | nil => exact .inl rfl
    | @cons x y l l' hxy _ ih =>
        rw [List.map_cons, List.sum_cons, List.map_cons, List.sum_cons]
        rcases hxy.eq_or_lt with rfl | hlt
        · rcases ih with rfl | ih
          · exact .inl rfl
          · exact .inr (by omega)
        · have hcard : x.signs.card < y.signs.card := Finset.card_lt_card
            (Finset.ssubset_iff_subset_ne.2 ⟨hxy, fun heq => hlt.ne (signs_injective heq)⟩)
          refine .inr ?_
          rcases ih with rfl | ih <;> omega
  refine (hcases a.list b.list (le_def.1 h.le)).resolve_left fun heq => h.ne ?_
  cases a
  exact congrArg Params.mk heq

end Params

namespace VarianceTable

variable {table table' : VarianceTable} {unions : AList fun _ : String => Union}

theorem param_mono (hle : table ≤ table') (name : String) (i arity : ℕ) :
    table.param name i arity ≤ table'.param name i arity := by
  unfold param
  split
  · exact le_rfl
  · simp only [Params.length_eq (hle name)]
    split
    · exact Params.getD_le (hle name) i .inv
    · exact le_rfl

/-! ## The right-hand sides -/

theorem mem_foldl_join {α : Type*} {s : ℤˣ} {f : α → Variance} {l : List α} {out : Variance} :
    s ∈ l.foldl (fun v a => v.join (f a)) out ↔ s ∈ out ∨ ∃ a ∈ l, s ∈ f a := by
  induction l generalizing out with
  | nil => simp
  | cons a l ih =>
      rw [List.foldl_cons, ih, mem_join, or_assoc]
      simp

/-- The variance that the constructors of a union give a parameter. -/
def demanded (table : VarianceTable) (u : Union) (p : String) : Variance :=
  u.args.foldl (fun v a => v.join (table.occurrence p a .co)) .bi

theorem mem_demanded {s : ℤˣ} {u : Union} {p : String} :
    s ∈ table.demanded u p ↔ ∃ a ∈ u.args, s ∈ table.occurrence p a .co := by
  unfold demanded
  rw [mem_foldl_join]
  simp

theorem next_eq (u : Union) : u.next table = ⟨u.params.map (table.demanded u)⟩ := rfl

theorem equation_mono (name : String) : Monotone (equation unions name) := by
  intro x y hle
  unfold equation
  split
  · rw [next_eq, next_eq, Params.le_def, List.forall₂_map_left_iff, List.forall₂_map_right_iff,
      List.forall₂_same]
    intro p _ s hs
    obtain ⟨a, ha, hs⟩ := mem_demanded.1 hs
    exact mem_demanded.2 ⟨a, ha, occurrence_mono (by decide) a
      (fun name i arity _ => param_mono hle name i arity) hs⟩
  · exact hle name

theorem mem_userUnions {name : String} :
    name ∈ userUnions unions ↔ ∃ u, unions.lookup name = some u ∧ u.isUser name = true := by
  unfold userUnions
  rw [List.mem_mergeSort, List.mem_filter, Option.any_eq_true]
  constructor
  · exact fun h => h.2
  · rintro ⟨u, hu, huser⟩
    refine ⟨?_, u, hu, huser⟩
    rw [← AList.mem_keys, ← AList.lookup_isSome, hu]
    rfl

theorem replicate_bi_le (l : List String) (f : String → Variance) :
    List.Forall₂ (· ≤ ·) (List.replicate l.length bi) (l.map f) := by
  induction l with
  | nil => exact .nil
  | cons p l ih => exact .cons (fun s hs => absurd hs not_mem_bi) ih

/-- The unions' own entries start without occurrences. -/
theorem seeded_rising (fixed : VarianceTable) :
    Sweep.Rising (equation unions) (userUnions unions) (seeded unions fixed) := by
  intro name hname
  obtain ⟨u, hu, huser⟩ := mem_userUnions.1 hname
  have hseed : seeded unions fixed name = ⟨List.replicate u.params.length bi⟩ := by
    simp [seeded, hu, huser]
  rw [hseed]
  simp only [equation, hu]
  rw [next_eq, Params.le_def]
  exact replicate_bi_le u.params _

theorem seeded_of_not_mem (fixed : VarianceTable) {name : String} (h : name ∉ userUnions unions) :
    seeded unions fixed name = fixed name := by
  unfold seeded
  split
  next u hu => exact if_neg fun huser => h (mem_userUnions.2 ⟨u, hu, huser⟩)
  · rfl

/-- A table with the fixed variances that has every union's parameters. -/
structure Extends (unions : AList fun _ : String => Union) (fixed table : VarianceTable) : Prop where
  fixed : ∀ name ∉ userUnions unions, table name = fixed name
  length : ∀ name ∈ userUnions unions, ∀ u, unions.lookup name = some u →
    (table name).list.length = u.params.length

theorem Extends.seeded_le {fixed : VarianceTable} (h : Extends unions fixed table) :
    seeded unions fixed ≤ table := by
  intro name
  by_cases hname : name ∈ userUnions unions
  · obtain ⟨u, hu, huser⟩ := mem_userUnions.1 hname
    have hseed : seeded unions fixed name = ⟨List.replicate u.params.length bi⟩ := by
      simp [seeded, hu, huser]
    rw [hseed, Params.le_def, ← h.length name hname u hu]
    generalize (table name).list = l
    induction l with
    | nil => exact .nil
    | cons x l ih => exact .cons (fun s hs => absurd hs not_mem_bi) ih
  · rw [seeded_of_not_mem fixed hname, h.fixed name hname]

theorem length_of_seeded_le {fixed : VarianceTable} (hle : seeded unions fixed ≤ table) {name : String}
    (hname : name ∈ userUnions unions) {u : Union} (hu : unions.lookup name = some u) :
    (table name).list.length = u.params.length := by
  obtain ⟨u', hu', huser⟩ := mem_userUnions.1 hname
  obtain rfl := Option.some.inj (hu.symm.trans hu')
  have hlength := Params.length_eq (hle name)
  simpa [seeded, hu, huser] using hlength.symm

theorem extends_of_le {fixed : VarianceTable} (hle : seeded unions fixed ≤ table)
    (hframe : ∀ name ∉ userUnions unions, table name = seeded unions fixed name) :
    Extends unions fixed table where
  fixed := by
    intro name hname
    rw [hframe name hname, seeded_of_not_mem fixed hname]
  length _ hname _ hu := length_of_seeded_le hle hname hu

/-! ## The sweeps end -/

def height (names : List String) (table : VarianceTable) : ℕ :=
  (names.map fun name => (table name).height).sum

theorem height_lt {names : List String} (hlt : table < table')
    (hframe : ∀ name ∉ names, table' name = table name) : height names table < height names table' := by
  obtain ⟨name, hname⟩ : ∃ name, table name ≠ table' name := by
    by_contra hsame
    simp only [not_exists, not_not] at hsame
    exact hlt.ne (funext hsame)
  have hmem : name ∈ names := by
    by_contra hnot
    exact hname (hframe name hnot).symm
  refine List.sum_lt_sum _ _ ?_ ⟨name, hmem, Params.height_lt (lt_of_le_of_ne (hlt.le name) hname)⟩
  intro other _
  rcases (hlt.le other).eq_or_lt with heq | hlt
  · rw [heq]
  · exact (Params.height_lt hlt).le

theorem height_le {fixed : VarianceTable} (hle : seeded unions fixed ≤ table) :
    height (userUnions unions) table < sweeps unions := by
  unfold height sweeps
  rw [Nat.lt_succ_iff]
  apply List.sum_le_sum
  intro name hname
  obtain ⟨u, hu, _⟩ := mem_userUnions.1 hname
  have hheight := Params.height_le (table name)
  rw [length_of_seeded_le hle hname hu] at hheight
  simpa [hu] using hheight

variable (unions) in
/-- The sweeps end, with the least table that the equations close. -/
theorem settle_spec (fixed : VarianceTable) : ∃ table,
    Sweep.settle (equation unions) (userUnions unions) (sweeps unions) (seeded unions fixed) =
      some table ∧
    Extends unions fixed table ∧
    (∀ name ∈ userUnions unions, equation unions name table = table name) ∧
    ∀ other, Extends unions fixed other →
      Sweep.Closed (equation unions) (userUnions unions) other → table ≤ other := by
  have hmono : ∀ name, Monotone (equation unions name) := fun name => equation_mono name
  have hsome : (Sweep.settle (equation unions) (userUnions unions) (sweeps unions)
      (seeded unions fixed)).isSome :=
    Sweep.settle_isSome hmono (height (userUnions unions)) (fun _ _ => height_lt)
      (fun _ hle => Nat.le_of_lt_succ (height_le hle)) (seeded_rising fixed) (by unfold sweeps; omega)
  obtain ⟨table, htable⟩ := Option.isSome_iff_exists.1 hsome
  obtain ⟨hfixed, hle, hframe, hleast⟩ := Sweep.settle_least hmono (seeded_rising fixed) htable
  exact ⟨table, htable, extends_of_le hle hframe, hfixed,
    fun other hother hclosed => hleast other hclosed hother.seeded_le⟩

end VarianceTable

/-! ## Constructors and their unions -/

/-- The scheme is that of a constructor of the union with these parameters and arguments. -/
def Ctor.Declares (c : Ctor) (name : String) (params : List String) (args : List Ty) : Prop :=
  c.scheme.spine = (args, .app name (params.map .var))

/-- What the constructors of a union come to. -/
structure Grouped (ctors : List Ctor) (name : String) (u : Union) : Prop where
  params : ∃ c ∈ ctors, ∃ args, c.Declares name u.params args
  args : ∀ a, a ∈ u.args ↔ ∃ c ∈ ctors, ∃ params args, c.Declares name params args ∧
    ∃ t ∈ args, a = t.renameVars (collected (params.zip u.params))
  stdlib : u.stdlib = true ↔ ∃ c ∈ ctors, c.stdlib = true ∧ ∃ params args, c.Declares name params args

theorem filterMap_varName (params : List String) :
    (params.map Ty.var).filterMap Ty.varName = params := by
  rw [List.filterMap_map]
  exact List.filterMap_some

theorem map_var_of_length {l : List Ty} (h : (l.filterMap Ty.varName).length = l.length) :
    (l.filterMap Ty.varName).map Ty.var = l := by
  induction l with
  | nil => rfl
  | cons t l ih =>
      have hle := List.length_filterMap_le Ty.varName l
      cases t with
      | var n => simp_all [Ty.varName]
      | _ =>
          simp only [List.filterMap_cons, Ty.varName, List.length_cons] at h
          omega

/-- The union after one more constructor. -/
def Union.joined (entry : Union) (params : List String) (args : List Ty) (stdlib : Bool) : Union :=
  { entry with
    stdlib := entry.stdlib || stdlib
    args := entry.args ++ args.map (Ty.renameVars (collected (params.zip entry.params))) }

theorem addCtor_cases (unions : AList fun _ : String => Union) (c : Ctor) :
    (∃ name params args, c.Declares name params args ∧
      addCtor unions c = unions.insert name
        (((unions.lookup name).getD { params := params, stdlib := c.stdlib }).joined params args
          c.stdlib)) ∨
      (∀ name params args, ¬c.Declares name params args) ∧ addCtor unions c = unions := by
  unfold addCtor
  split
  next args name targs hspine =>
      by_cases hlength : (targs.filterMap Ty.varName).length = targs.length
      · refine .inl ⟨name, targs.filterMap Ty.varName, args, ?_, ?_⟩
        · rw [Ctor.Declares, map_var_of_length hlength]
          exact hspine
        · exact if_neg (not_not.2 hlength)
      · refine .inr ⟨?_, if_pos hlength⟩
        intro name' params args' hdeclares
        rw [Ctor.Declares, hspine] at hdeclares
        obtain ⟨-, -, rfl⟩ := by simpa using hdeclares
        rw [filterMap_varName, List.length_map] at hlength
        exact hlength rfl
  next hspine =>
      refine .inr ⟨?_, rfl⟩
      intro name params args hdeclares
      exact hspine _ _ _ hdeclares

theorem Ctor.Declares.unique {c : Ctor} {name name' : String} {params params' : List String}
    {args args' : List Ty} (h : c.Declares name params args) (h' : c.Declares name' params' args') :
    name' = name ∧ params' = params ∧ args' = args := by
  have heq := h'.symm.trans h
  have hinj : Function.Injective (List.map Ty.var) :=
    List.map_injective_iff.2 fun a b hab => Ty.var.inj hab
  simp only [Prod.mk.injEq, Ty.app.injEq] at heq
  exact ⟨heq.2.1, hinj heq.2.2, heq.1⟩

theorem Grouped.skip {ctors : List Ctor} {name : String} {u : Union} {c : Ctor}
    (h : Grouped ctors name u) (hc : ∀ params args, ¬c.Declares name params args) :
    Grouped (ctors ++ [c]) name u where
  params := by
    obtain ⟨d, hd, hdeclares⟩ := h.params
    exact ⟨d, List.mem_append_left _ hd, hdeclares⟩
  args a := by
    simp only [h.args a, List.mem_append, List.mem_singleton, or_and_right, exists_or,
      exists_eq_left, hc, false_and, exists_false, or_false]
  stdlib := by
    simp only [h.stdlib, List.mem_append, List.mem_singleton, or_and_right, exists_or,
      exists_eq_left, hc, exists_false, and_false, or_false]

/-- The first constructor of a union. -/
theorem grouped_first {ctors : List Ctor} {name : String} {c : Ctor} {params : List String}
    {args : List Ty} (hc : c.Declares name params args)
    (hnone : ∀ c ∈ ctors, ∀ params args, ¬c.Declares name params args) :
    Grouped (ctors ++ [c]) name
      (({ params := params, stdlib := c.stdlib } : Union).joined params args c.stdlib) where
  params := ⟨c, by simp, args, hc⟩
  args a := by
    constructor
    · intro ha
      obtain ⟨t, ht, rfl⟩ : ∃ t ∈ args, t.renameVars (collected (params.zip params)) = a := by
        simpa [Union.joined] using ha
      exact ⟨c, by simp, params, args, hc, t, ht, rfl⟩
    · rintro ⟨d, hd, params', args', hdeclares, t, ht, rfl⟩
      rcases List.mem_append.1 hd with hold | hnew
      · exact absurd hdeclares (hnone d hold params' args')
      · obtain rfl := List.mem_singleton.1 hnew
        obtain ⟨-, rfl, rfl⟩ := hc.unique hdeclares
        exact List.mem_append_right _ (List.mem_map_of_mem ht)
  stdlib := by
    constructor
    · intro hstdlib
      exact ⟨c, by simp, by simpa [Union.joined] using hstdlib, params, args, hc⟩
    · rintro ⟨d, hd, hstdlib, params', args', hdeclares⟩
      rcases List.mem_append.1 hd with hold | hnew
      · exact absurd hdeclares (hnone d hold params' args')
      · obtain rfl := List.mem_singleton.1 hnew
        simp [Union.joined, hstdlib]

/-- One more constructor of a union. -/
theorem Grouped.join {ctors : List Ctor} {name : String} {u : Union} {c : Ctor}
    {params : List String} {args : List Ty} (h : Grouped ctors name u)
    (hc : c.Declares name params args) :
    Grouped (ctors ++ [c]) name (u.joined params args c.stdlib) where
  params := by
    obtain ⟨d, hd, hdeclares⟩ := h.params
    exact ⟨d, List.mem_append_left _ hd, hdeclares⟩
  args a := by
    constructor
    · intro ha
      rcases List.mem_append.1 ha with hold | hnew
      · obtain ⟨d, hd, hdeclares⟩ := (h.args a).1 hold
        exact ⟨d, List.mem_append_left _ hd, hdeclares⟩
      · obtain ⟨t, ht, rfl⟩ := List.mem_map.1 hnew
        exact ⟨c, by simp, params, args, hc, t, ht, rfl⟩
    · rintro ⟨d, hd, params', args', hdeclares, t, ht, rfl⟩
      rcases List.mem_append.1 hd with hold | hnew
      · exact List.mem_append_left _ ((h.args _).2 ⟨d, hold, params', args', hdeclares, t, ht, rfl⟩)
      · obtain rfl := List.mem_singleton.1 hnew
        obtain ⟨-, rfl, rfl⟩ := hc.unique hdeclares
        exact List.mem_append_right _ (List.mem_map_of_mem ht)
  stdlib := by
    constructor
    · intro hstdlib
      rcases Bool.or_eq_true_iff.1 hstdlib with hold | hnew
      · obtain ⟨d, hd, hdeclares⟩ := h.stdlib.1 hold
        exact ⟨d, List.mem_append_left _ hd, hdeclares⟩
      · exact ⟨c, by simp, hnew, params, args, hc⟩
    · rintro ⟨d, hd, hstdlib, params', args', hdeclares⟩
      rcases List.mem_append.1 hd with hold | hnew
      · exact Bool.or_eq_true_iff.2 (.inl (h.stdlib.2 ⟨d, hold, hstdlib, params', args', hdeclares⟩))
      · obtain rfl := List.mem_singleton.1 hnew
        exact Bool.or_eq_true_iff.2 (.inr hstdlib)

theorem grouped (ctors : List Ctor) (name : String) :
    (∀ u, (ctors.foldl addCtor ∅).lookup name = some u → Grouped ctors name u) ∧
      ((ctors.foldl addCtor ∅).lookup name = none →
        ∀ c ∈ ctors, ∀ params args, ¬c.Declares name params args) := by
  induction ctors using List.reverseRecOn with
  | nil => simp
  | append_singleton ctors c ih =>
      -- A constructor of another union changes nothing here.
      have hskip : (∀ params args, ¬c.Declares name params args) →
          (addCtor (ctors.foldl addCtor ∅) c).lookup name = (ctors.foldl addCtor ∅).lookup name →
          (∀ u, (addCtor (ctors.foldl addCtor ∅) c).lookup name = some u →
            Grouped (ctors ++ [c]) name u) ∧
          ((addCtor (ctors.foldl addCtor ∅) c).lookup name = none →
            ∀ d ∈ ctors ++ [c], ∀ params args, ¬d.Declares name params args) := by
        intro hc hlookup
        rw [hlookup]
        refine ⟨fun u hu => (ih.1 u hu).skip hc, fun hnone d hd => ?_⟩
        rcases List.mem_append.1 hd with hold | hnew
        · exact ih.2 hnone d hold
        · obtain rfl := List.mem_singleton.1 hnew
          exact hc
      rw [List.foldl_append, List.foldl_cons, List.foldl_nil]
      rcases addCtor_cases (ctors.foldl addCtor ∅) c with ⟨name', params, args, hdeclares, heq⟩ |
        ⟨hnone, heq⟩
      · by_cases hname : name = name'
        · subst hname
          rw [heq, AList.lookup_insert]
          refine ⟨fun u hu => ?_, fun hnone => by cases hnone⟩
          obtain rfl := Option.some.inj hu
          cases hold : (ctors.foldl addCtor ∅).lookup name with
          | none => exact grouped_first hdeclares (ih.2 hold)
          | some entry => exact (ih.1 entry hold).join hdeclares
        · apply hskip
          · exact fun params' args' h => hname (hdeclares.unique h).1
          · rw [heq, AList.lookup_insert_ne hname]
      · exact hskip (fun params args => hnone name params args) (by rw [heq])

end Sky.Types
