import Sky.Model.Variance

/-! # Variances as sets of signs, and occurrences under substitution

A variance is the set of the signs of its occurrences. -/

namespace Sky.Types

open Variance

/-! ## Variances as sets of signs -/

section

namespace Variance

/-! ## Signs -/

def signs : Variance → Finset ℤˣ
  | bi => ∅
  | co => {1}
  | contra => {-1}
  | inv => {1, -1}

instance : Membership ℤˣ Variance := ⟨fun x s => s ∈ x.signs⟩

instance (s : ℤˣ) (x : Variance) : Decidable (s ∈ x) := inferInstanceAs (Decidable (s ∈ x.signs))

variable {x y z : Variance} {s : ℤˣ}

theorem signs_injective : Function.Injective signs := by
  intro x y h
  revert h
  cases x <;> cases y <;> decide

instance : PartialOrder Variance := PartialOrder.lift signs signs_injective

theorem le_def : x ≤ y ↔ ∀ s : ℤˣ, s ∈ x → s ∈ y := Iff.rfl

instance (x y : Variance) : Decidable (x ≤ y) := inferInstanceAs (Decidable (x.signs ⊆ y.signs))

@[simp] theorem not_mem_bi : ¬s ∈ bi := by
  revert s
  decide

@[simp] theorem mem_co : s ∈ co ↔ s = 1 := by
  revert s
  decide

@[simp] theorem mem_join : s ∈ x.join y ↔ s ∈ x ∨ s ∈ y := by
  revert s
  cases x <;> cases y <;> decide

@[simp] theorem mem_flip : s ∈ x.flip ↔ -s ∈ x := by
  revert s
  cases x <;> decide

/-- Where no occurrence is skipped, signs multiply. -/
theorem mem_compose (hx : x ≠ bi) (hy : y ≠ bi) :
    s ∈ compose x y ↔ ∃ s₁ ∈ x, ∃ s₂ ∈ y, s = s₁ * s₂ := by
  revert s
  cases x <;> cases y <;> first | exact absurd rfl hx | exact absurd rfl hy | decide

theorem eq_bi_iff : x = bi ↔ ∀ s : ℤˣ, ¬s ∈ x := by
  cases x <;> decide

theorem compose_eq_bi (hx : x ≠ bi) : compose x y = bi ↔ y = bi := by
  cases x <;> cases y <;> first | exact absurd rfl hx | decide

/-- The variances that may be generalised have no negative occurrence. -/
theorem generalisable_iff : x.generalisable = true ↔ ¬(-1 : ℤˣ) ∈ x := by
  cases x <;> decide

end Variance

open Variance

namespace VarianceTable

variable (table : VarianceTable) {v : String} {s : ℤˣ} {pol : Variance}

/-! ## The occurrences in a type -/

@[simp] theorem mem_occurrence_var {n : String} :
    s ∈ table.occurrence v (.var n) pol ↔ n = v ∧ s ∈ pol := by
  unfold occurrence
  split
  · simp_all
  · simp_all

@[simp] theorem mem_occurrence_fn {a b : Ty} :
    s ∈ table.occurrence v (.fn a b) pol ↔
      s ∈ table.occurrence v a pol.flip ∨ s ∈ table.occurrence v b pol := by
  rw [occurrence, mem_join]

theorem mem_occurrenceAll {xs : List Ty} {out : Variance} :
    s ∈ table.occurrenceAll v pol xs out ↔ s ∈ out ∨ ∃ x ∈ xs, s ∈ table.occurrence v x pol := by
  induction xs generalizing out with
  | nil => simp [occurrenceAll]
  | cons x xs ih =>
      rw [occurrenceAll, ih, mem_join, or_assoc]
      simp

theorem mem_occurrenceFields {fields : List (String × Ty)} {out : Variance} :
    s ∈ table.occurrenceFields v pol fields out ↔
      s ∈ out ∨ ∃ f ∈ fields, s ∈ table.occurrence v f.2 pol := by
  induction fields generalizing out with
  | nil => simp [occurrenceFields]
  | cons f fields ih =>
      rw [occurrenceFields, ih, mem_join, or_assoc]
      simp

@[simp] theorem mem_occurrence_tuple {xs : List Ty} :
    s ∈ table.occurrence v (.tuple xs) pol ↔ ∃ x ∈ xs, s ∈ table.occurrence v x pol := by
  rw [occurrence, mem_occurrenceAll]
  simp

@[simp] theorem mem_occurrence_record {fields : List (String × Ty)} {ext : Option String} :
    s ∈ table.occurrence v (.record fields ext) pol ↔
      ext = some v ∧ s ∈ pol ∨ ∃ f ∈ fields, s ∈ table.occurrence v f.2 pol := by
  rw [occurrence, mem_occurrenceFields]
  split <;> simp_all

@[simp] theorem not_mem_occurrence_unit : ¬s ∈ table.occurrence v .unit pol := by simp [occurrence]

@[simp] theorem not_mem_occurrence_error : ¬s ∈ table.occurrence v .error pol := by simp [occurrence]

/-- The signs of an argument are those of its parameter times those inside it. -/
theorem mem_argument (hpol : pol ≠ bi) {p occ out : Variance} :
    s ∈ (if compose pol p = bi ∨ occ = bi then out else out.join (compose (compose pol p) occ)) ↔
      s ∈ out ∨ ∃ s₀ ∈ pol, ∃ s₁ ∈ p, ∃ s₂ ∈ occ, s = s₀ * s₁ * s₂ := by
  by_cases hskip : compose pol p = bi ∨ occ = bi
  · rw [if_pos hskip]
    refine ⟨.inl, ?_⟩
    rintro (hout | ⟨s₀, h₀, s₁, h₁, s₂, h₂, rfl⟩)
    · exact hout
    · rcases hskip with hp | hocc
      · rw [compose_eq_bi hpol] at hp
        exact absurd h₁ (eq_bi_iff.1 hp s₁)
      · exact absurd h₂ (eq_bi_iff.1 hocc s₂)
  · rw [not_or] at hskip
    have hp : p ≠ bi := fun hp => hskip.1 ((compose_eq_bi hpol).2 hp)
    rw [if_neg (by simpa using hskip), mem_join, mem_compose hskip.1 hskip.2]
    simp only [mem_compose hpol hp]
    constructor
    · rintro (hout | ⟨_, ⟨s₀, h₀, s₁, h₁, rfl⟩, s₂, h₂, rfl⟩)
      · exact .inl hout
      · exact .inr ⟨s₀, h₀, s₁, h₁, s₂, h₂, rfl⟩
    · rintro (hout | ⟨s₀, h₀, s₁, h₁, s₂, h₂, rfl⟩)
      · exact .inl hout
      · exact .inr ⟨_, ⟨s₀, h₀, s₁, h₁, rfl⟩, s₂, h₂, rfl⟩

theorem mem_occurrenceArgs (hpol : pol ≠ bi) {name : String} {arity : ℕ} {args : List Ty} {k : ℕ}
    {out : Variance} :
    s ∈ table.occurrenceArgs v name arity pol args k out ↔
      s ∈ out ∨ ∃ i a, args[i]? = some a ∧ ∃ s₀ ∈ pol, ∃ s₁ ∈ table.param name (k + i) arity,
        ∃ s₂ ∈ table.occurrence v a .co, s = s₀ * s₁ * s₂ := by
  induction args generalizing k out with
  | nil => simp [occurrenceArgs]
  | cons a args ih =>
      rw [occurrenceArgs, ih, mem_argument hpol, or_assoc]
      refine or_congr_right ?_
      constructor
      · rintro (hfirst | ⟨i, x, hx, hrest⟩)
        · exact ⟨0, a, rfl, hfirst⟩
        · refine ⟨i + 1, x, hx, ?_⟩
          rwa [← add_assoc, add_right_comm]
      · rintro ⟨i, x, hx, hrest⟩
        cases i with
        | zero =>
            obtain rfl := Option.some.inj hx
            exact .inl hrest
        | succ i =>
            refine .inr ⟨i, x, hx, ?_⟩
            rwa [add_right_comm, add_assoc]

theorem mem_occurrence_app (hpol : pol ≠ bi) {name : String} {args : List Ty} :
    s ∈ table.occurrence v (.app name args) pol ↔
      ∃ i a, args[i]? = some a ∧ ∃ s₀ ∈ pol, ∃ s₁ ∈ table.param name i args.length,
        ∃ s₂ ∈ table.occurrence v a .co, s = s₀ * s₁ * s₂ := by
  rw [occurrence, mem_occurrenceArgs table hpol]
  simp

end VarianceTable

end

/-! ## Substitution -/

namespace Ty

/-! ## The variables of a type -/

mutual

/-- The variables of a type, row variables included. -/
def vars : Ty → List String
  | .var n => [n]
  | .fn a b => vars a ++ vars b
  | .app _ args => varsAll args
  | .record fields ext => varsFields fields ++ ext.toList
  | .tuple xs => varsAll xs
  | .unit => []
  | .error => []

def varsAll : List Ty → List String
  | [] => []
  | x :: xs => vars x ++ varsAll xs

def varsFields : List (String × Ty) → List String
  | [] => []
  | (_, t) :: fields => vars t ++ varsFields fields

end

mutual

/-- The row variables of a type's records. -/
def rows : Ty → List String
  | .var _ => []
  | .fn a b => rows a ++ rows b
  | .app _ args => rowsAll args
  | .record fields ext => rowsFields fields ++ ext.toList
  | .tuple xs => rowsAll xs
  | .unit => []
  | .error => []

def rowsAll : List Ty → List String
  | [] => []
  | x :: xs => rows x ++ rowsAll xs

def rowsFields : List (String × Ty) → List String
  | [] => []
  | (_, t) :: fields => rows t ++ rowsFields fields

end

theorem mem_varsAll {n : String} {xs : List Ty} : n ∈ varsAll xs ↔ ∃ x ∈ xs, n ∈ x.vars := by
  induction xs with
  | nil => simp [varsAll]
  | cons x xs ih => simp [varsAll, ih]

theorem mem_varsFields {n : String} {fields : List (String × Ty)} :
    n ∈ varsFields fields ↔ ∃ f ∈ fields, n ∈ f.2.vars := by
  induction fields with
  | nil => simp [varsFields]
  | cons f fields ih => simp [varsFields, ih]

theorem mem_rowsAll {n : String} {xs : List Ty} : n ∈ rowsAll xs ↔ ∃ x ∈ xs, n ∈ x.rows := by
  induction xs with
  | nil => simp [rowsAll]
  | cons x xs ih => simp [rowsAll, ih]

theorem mem_rowsFields {n : String} {fields : List (String × Ty)} :
    n ∈ rowsFields fields ↔ ∃ f ∈ fields, n ∈ f.2.rows := by
  induction fields with
  | nil => simp [rowsFields]
  | cons f fields ih => simp [rowsFields, ih]

/-- What can stand for a row variable. -/
def IsRow : Ty → Prop
  | .var _ | .record _ _ => True
  | _ => False

instance : DecidablePred IsRow := fun t => by cases t <;> unfold IsRow <;> infer_instance

/-- Parameters and their arguments. -/
def bindings (params : List String) (args : List Ty) (n : String) : Option Ty :=
  (params.zip args).lookup n

end Ty

variable {params : List String} {args : List Ty} {n v : String} {t b : Ty}

theorem bindings_spec (h : Ty.bindings params args n = some b) :
    ∃ i : ℕ, params[i]? = some n ∧ args[i]? = some b := by
  have hmem : (n, b) ∈ params.zip args := by
    unfold Ty.bindings at h
    rw [List.lookup_eq_some_iff] at h
    obtain ⟨l₁, l₂, heq, _⟩ := h
    simp [heq]
  obtain ⟨i, hi⟩ := List.mem_iff_getElem?.1 hmem
  rw [List.getElem?_zip_eq_some] at hi
  exact ⟨i, hi⟩

theorem bindings_isSome (hlength : args.length = params.length) (hn : n ∈ params) :
    ∃ b, Ty.bindings params args n = some b := by
  cases h : Ty.bindings params args n with
  | some b => exact ⟨b, rfl⟩
  | none =>
      obtain ⟨i, hi⟩ := List.mem_iff_getElem?.1 hn
      have hlt : i < args.length := by
        rw [hlength]
        exact (List.getElem?_eq_some_iff.1 hi).1
      have hmem : (n, args[i]) ∈ params.zip args :=
        List.mem_iff_getElem?.2 ⟨i, by simp [List.getElem?_zip_eq_some, hi, hlt]⟩
      unfold Ty.bindings at h
      rw [List.lookup_eq_none_iff] at h
      simpa using h _ hmem

namespace VarianceTable

variable (table : VarianceTable) {s : ℤˣ} {pol : Variance}

/-! ## Polarity -/

theorem flip_ne_bi (hpol : pol ≠ bi) : pol.flip ≠ bi := by
  revert hpol
  cases pol <;> decide

/-- The polarity of a type multiplies the signs in it. -/
theorem mem_occurrence_pol (hpol : pol ≠ bi) (t : Ty) :
    s ∈ table.occurrence v t pol ↔ ∃ s₀ ∈ pol, ∃ s₁ ∈ table.occurrence v t .co, s = s₀ * s₁ := by
  induction t using Ty.induction generalizing pol s with
  | var n => simp [and_comm]
  | fn a b iha ihb =>
      have hcontra : ∀ s₁ : ℤˣ, s₁ ∈ table.occurrence v a .contra ↔
          -s₁ ∈ table.occurrence v a .co := by
        intro s₁
        rw [iha (by decide)]
        constructor
        · rintro ⟨s₀, h₀, s₂, h₂, rfl⟩
          have hneg : s₀ = -1 := by simpa [neg_eq_iff_eq_neg] using (mem_flip (x := .co)).1 h₀
          simpa [hneg] using h₂
        · intro h
          exact ⟨-1, by decide, -s₁, h, by simp⟩
      rw [mem_occurrence_fn, iha (flip_ne_bi hpol), ihb hpol]
      constructor
      · rintro (⟨s₀, h₀, s₁, h₁, rfl⟩ | ⟨s₀, h₀, s₁, h₁, rfl⟩)
        · refine ⟨-s₀, by simpa using h₀, -s₁, ?_, by simp⟩
          rw [mem_occurrence_fn]
          exact .inl ((hcontra _).2 (by simpa using h₁))
        · exact ⟨s₀, h₀, s₁, by simp [h₁], rfl⟩
      · rintro ⟨s₀, h₀, s₁, h₁, rfl⟩
        rw [mem_occurrence_fn] at h₁
        rcases h₁ with h₁ | h₁
        · exact .inl ⟨-s₀, by simpa using h₀, -s₁, (hcontra _).1 h₁, by simp⟩
        · exact .inr ⟨s₀, h₀, s₁, h₁, rfl⟩
  | app name args _ =>
      rw [mem_occurrence_app table hpol]
      simp only [mem_occurrence_app table (by decide : co ≠ bi), mem_co, exists_eq_left, one_mul]
      constructor
      · rintro ⟨i, a, ha, s₀, h₀, s₁, h₁, s₂, h₂, rfl⟩
        exact ⟨s₀, h₀, _, ⟨i, a, ha, s₁, h₁, s₂, h₂, rfl⟩, mul_assoc ..⟩
      · rintro ⟨s₀, h₀, _, ⟨i, a, ha, s₁, h₁, s₂, h₂, rfl⟩, rfl⟩
        exact ⟨i, a, ha, s₀, h₀, s₁, h₁, s₂, h₂, (mul_assoc ..).symm⟩
  | record fields ext ih =>
      rw [mem_occurrence_record]
      constructor
      · rintro (⟨hext, hs⟩ | ⟨f, hf, hs⟩)
        · exact ⟨s, hs, 1, by simp [hext], by simp⟩
        · obtain ⟨s₀, h₀, s₁, h₁, rfl⟩ := (ih f hf hpol).1 hs
          exact ⟨s₀, h₀, s₁, (mem_occurrence_record table).2 (.inr ⟨f, hf, h₁⟩), rfl⟩
      · rintro ⟨s₀, h₀, s₁, h₁, rfl⟩
        rcases (mem_occurrence_record table).1 h₁ with ⟨hext, hs⟩ | ⟨f, hf, hs⟩
        · rw [mem_co] at hs
          exact .inl ⟨hext, by simpa [hs] using h₀⟩
        · exact .inr ⟨f, hf, (ih f hf hpol).2 ⟨s₀, h₀, s₁, hs, rfl⟩⟩
  | tuple xs ih =>
      rw [mem_occurrence_tuple]
      constructor
      · rintro ⟨x, hx, hs⟩
        obtain ⟨s₀, h₀, s₁, h₁, rfl⟩ := (ih x hx hpol).1 hs
        exact ⟨s₀, h₀, s₁, (mem_occurrence_tuple table).2 ⟨x, hx, h₁⟩, rfl⟩
      · rintro ⟨s₀, h₀, s₁, h₁, rfl⟩
        obtain ⟨x, hx, hs⟩ := (mem_occurrence_tuple table).1 h₁
        exact ⟨x, hx, (ih x hx hpol).2 ⟨s₀, h₀, s₁, hs, rfl⟩⟩
  | unit => simp
  | error => simp

/-! ## Substitution -/

theorem mem_addFields {fields more : List (String × Ty)} {f : String × Ty}
    (h : f ∈ Ty.addFields fields more) : f ∈ fields ∨ f ∈ more := by
  induction more generalizing fields with
  | nil => exact .inl h
  | cons g more ih =>
      rw [Ty.addFields, List.foldl_cons] at h
      rcases ih h with hfields | hmore
      · split at hfields
        · exact .inl hfields
        · rcases List.mem_append.1 hfields with hold | hnew
          · exact .inl hold
          · exact .inr (List.mem_singleton.1 hnew ▸ .head _)
      · exact .inr (.tail _ hmore)

variable (hlength : args.length = params.length)
include hlength

/-- A sign in a type whose parameters are replaced is one of a parameter times one in what replaces
it. -/
theorem mem_occurrence_subst (hpol : pol ≠ bi) (t : Ty) (hvars : ∀ n ∈ t.vars, n ∈ params)
    (hrows : ∀ e ∈ t.rows, ∀ b, Ty.bindings params args e = some b → b.IsRow)
    (hs : s ∈ table.occurrence v (t.substVars (Ty.bindings params args)) pol) :
    ∃ (i : ℕ) (n : String) (b : Ty), params[i]? = some n ∧ args[i]? = some b ∧
      ∃ s₁ ∈ table.occurrence n t pol, ∃ s₂ ∈ table.occurrence v b .co, s = s₁ * s₂ := by
  induction t using Ty.induction generalizing pol s with
  | var n =>
      obtain ⟨b, hb⟩ := bindings_isSome hlength (hvars n (by simp [Ty.vars]))
      obtain ⟨i, hn, hi⟩ := bindings_spec hb
      simp only [Ty.substVars, hb, Option.getD_some] at hs
      obtain ⟨s₀, h₀, s₁, h₁, rfl⟩ := (mem_occurrence_pol table hpol b).1 hs
      exact ⟨i, n, b, hn, hi, s₀, by simp [h₀], s₁, h₁, rfl⟩
  | fn a b iha ihb =>
      simp only [Ty.vars, Ty.rows, List.mem_append] at hvars hrows
      rw [Ty.substVars, mem_occurrence_fn] at hs
      rcases hs with hs | hs
      · obtain ⟨i, n, x, hn, hx, s₁, h₁, s₂, h₂, rfl⟩ := iha (flip_ne_bi hpol)
          (fun n hn => hvars n (.inl hn)) (fun e he => hrows e (.inl he)) hs
        exact ⟨i, n, x, hn, hx, s₁, by simp [h₁], s₂, h₂, rfl⟩
      · obtain ⟨i, n, x, hn, hx, s₁, h₁, s₂, h₂, rfl⟩ := ihb hpol
          (fun n hn => hvars n (.inr hn)) (fun e he => hrows e (.inr he)) hs
        exact ⟨i, n, x, hn, hx, s₁, by simp [h₁], s₂, h₂, rfl⟩
  | app name xs ih =>
      simp only [Ty.vars, Ty.rows, Ty.mem_varsAll, Ty.mem_rowsAll] at hvars hrows
      rw [Ty.substVars, Ty.substAll_eq, mem_occurrence_app table hpol] at hs
      obtain ⟨j, x', hx', s₀, h₀, s₁, h₁, s₂, h₂, rfl⟩ := hs
      rw [List.getElem?_map, Option.map_eq_some_iff] at hx'
      obtain ⟨x, hx, rfl⟩ := hx'
      have hmem : x ∈ xs := List.mem_of_getElem? hx
      obtain ⟨i, n, b, hn, hb, s₃, h₃, s₄, h₄, rfl⟩ := ih x hmem (by decide)
        (fun n hn => hvars n ⟨x, hmem, hn⟩) (fun e he => hrows e ⟨x, hmem, he⟩) h₂
      refine ⟨i, n, b, hn, hb, s₀ * s₁ * s₃, ?_, s₄, h₄, (mul_assoc ..).symm⟩
      rw [List.length_map] at h₁
      exact (mem_occurrence_app table hpol).2 ⟨j, x, hx, s₀, h₀, s₁, h₁, s₃, h₃, rfl⟩
  | record fields ext ih =>
      simp only [Ty.vars, Ty.rows, List.mem_append, Ty.mem_varsFields, Ty.mem_rowsFields,
        Option.mem_toList] at hvars hrows
      have hfield : ∀ f' ∈ Ty.substFields (Ty.bindings params args) fields,
          s ∈ table.occurrence v f'.2 pol →
          ∃ (i : ℕ) (n : String) (b : Ty), params[i]? = some n ∧ args[i]? = some b ∧
            ∃ s₁ ∈ table.occurrence n (.record fields ext) pol, ∃ s₂ ∈ table.occurrence v b .co,
              s = s₁ * s₂ := by
        intro f' hf' hs
        rw [Ty.substFields_eq] at hf'
        obtain ⟨f, hmem, rfl⟩ := List.mem_map.1 hf'
        obtain ⟨i, n, b, hn, hb, s₁, h₁, s₂, h₂, rfl⟩ := ih f hmem hpol
          (fun n hn => hvars n (.inl ⟨f, hmem, hn⟩)) (fun e he => hrows e (.inl ⟨f, hmem, he⟩)) hs
        exact ⟨i, n, b, hn, hb, s₁, (mem_occurrence_record table).2 (.inr ⟨f, hmem, h₁⟩), s₂, h₂, rfl⟩
      cases ext with
      | none =>
          rw [Ty.substVars] at hs
          rcases (mem_occurrence_record table).1 hs with ⟨hext, _⟩ | ⟨f', hf', hs⟩
          · cases hext
          · exact hfield f' hf' hs
      | some e =>
          obtain ⟨b, hb⟩ := bindings_isSome hlength (hvars e (.inr rfl))
          obtain ⟨i, hi, harg⟩ := bindings_spec hb
          -- A sign of what the row stands for is one of the row variable.
          have hrow : ∀ s₂ ∈ table.occurrence v b .co, ∀ s₀ ∈ pol, s = s₀ * s₂ →
              ∃ (i : ℕ) (n : String) (b : Ty), params[i]? = some n ∧ args[i]? = some b ∧
                ∃ s₁ ∈ table.occurrence n (.record fields (some e)) pol,
                  ∃ s₂ ∈ table.occurrence v b .co, s = s₁ * s₂ := by
            intro s₂ h₂ s₀ h₀ heq
            exact ⟨i, e, b, hi, harg, s₀, (mem_occurrence_record table).2 (.inl ⟨rfl, h₀⟩), s₂, h₂, heq⟩
          have hisRow := hrows e (.inr rfl) b hb
          rw [Ty.substVars, hb] at hs
          cases b with
          | var w =>
              rw [Ty.bindRow] at hs
              rcases (mem_occurrence_record table).1 hs with ⟨hext, hsign⟩ | ⟨f', hf', hs⟩
              · obtain rfl := Option.some.inj hext
                exact hrow 1 (by simp) s hsign (mul_one s).symm
              · exact hfield f' hf' hs
          | record more mext =>
              rw [Ty.bindRow] at hs
              rcases (mem_occurrence_record table).1 hs with ⟨hext, hs⟩ | ⟨f', hf', hs⟩
              · exact hrow 1 (by simp [hext]) s hs (mul_one s).symm
              · rcases mem_addFields hf' with hold | hnew
                · exact hfield f' hold hs
                · obtain ⟨s₀, h₀, s₁, h₁, heq⟩ := (mem_occurrence_pol table hpol f'.2).1 hs
                  exact hrow s₁ ((mem_occurrence_record table).2 (.inr ⟨f', hnew, h₁⟩)) s₀ h₀ heq
          | fn | app | tuple | unit | error => exact hisRow.elim
  | tuple xs ih =>
      simp only [Ty.vars, Ty.rows, Ty.mem_varsAll, Ty.mem_rowsAll] at hvars hrows
      rw [Ty.substVars, Ty.substAll_eq, mem_occurrence_tuple] at hs
      obtain ⟨x', hx', hs⟩ := hs
      obtain ⟨x, hmem, rfl⟩ := List.mem_map.1 hx'
      obtain ⟨i, n, b, hn, hb, s₁, h₁, s₂, h₂, rfl⟩ := ih x hmem hpol
        (fun n hn => hvars n ⟨x, hmem, hn⟩) (fun e he => hrows e ⟨x, hmem, he⟩) hs
      exact ⟨i, n, b, hn, hb, s₁, (mem_occurrence_tuple table).2 ⟨x, hmem, h₁⟩, s₂, h₂, rfl⟩
  | unit => simp [Ty.substVars] at hs
  | error => simp [Ty.substVars] at hs

omit hlength

/-! ## Renaming -/

/-- Under a renaming that takes only `n` to `n'`, the occurrences of one are those of the other. -/
theorem mem_occurrence_rename {n' : String} (hpol : pol ≠ bi) (m : String → Option String) (t : Ty)
    (hm : ∀ w ∈ t.vars, (m w).getD w = n' ↔ w = n) :
    s ∈ table.occurrence n' (t.renameVars m) pol ↔ s ∈ table.occurrence n t pol := by
  induction t using Ty.induction generalizing pol s with
  | var w => simp [Ty.renameVars, hm w (by simp [Ty.vars])]
  | fn a b iha ihb =>
      simp only [Ty.vars, List.mem_append] at hm
      rw [Ty.renameVars, mem_occurrence_fn, mem_occurrence_fn,
        iha (flip_ne_bi hpol) fun w hw => hm w (.inl hw), ihb hpol fun w hw => hm w (.inr hw)]
  | app name xs ih =>
      simp only [Ty.vars, Ty.mem_varsAll] at hm
      rw [Ty.renameVars, Ty.renameAll_eq, mem_occurrence_app table hpol, mem_occurrence_app table hpol]
      simp only [List.getElem?_map, List.length_map]
      constructor
      · rintro ⟨i, a', ha', s₀, h₀, s₁, h₁, s₂, h₂, rfl⟩
        obtain ⟨a, ha, rfl⟩ := Option.map_eq_some_iff.1 ha'
        have hmem := List.mem_of_getElem? ha
        exact ⟨i, a, ha, s₀, h₀, s₁, h₁, s₂,
          (ih a hmem (by decide) fun w hw => hm w ⟨a, hmem, hw⟩).1 h₂, rfl⟩
      · rintro ⟨i, a, ha, s₀, h₀, s₁, h₁, s₂, h₂, rfl⟩
        have hmem := List.mem_of_getElem? ha
        exact ⟨i, _, by rw [ha]; rfl, s₀, h₀, s₁, h₁, s₂,
          (ih a hmem (by decide) fun w hw => hm w ⟨a, hmem, hw⟩).2 h₂, rfl⟩
  | record fields ext ih =>
      simp only [Ty.vars, List.mem_append, Ty.mem_varsFields, Option.mem_toList] at hm
      have hext : ext.map (fun e => (m e).getD e) = some n' ↔ ext = some n := by
        cases ext with
        | none => simp
        | some e => simp [hm e (.inr rfl)]
      rw [Ty.renameVars, Ty.renameFields_eq, mem_occurrence_record, mem_occurrence_record, hext]
      refine or_congr_right ?_
      simp only [List.mem_map, exists_exists_and_eq_and]
      constructor
      · rintro ⟨f, hf, hs⟩
        exact ⟨f, hf, (ih f hf hpol fun w hw => hm w (.inl ⟨f, hf, hw⟩)).1 hs⟩
      · rintro ⟨f, hf, hs⟩
        exact ⟨f, hf, (ih f hf hpol fun w hw => hm w (.inl ⟨f, hf, hw⟩)).2 hs⟩
  | tuple xs ih =>
      simp only [Ty.vars, Ty.mem_varsAll] at hm
      rw [Ty.renameVars, Ty.renameAll_eq, mem_occurrence_tuple, mem_occurrence_tuple]
      simp only [List.mem_map, exists_exists_and_eq_and]
      constructor
      · rintro ⟨x, hx, hs⟩
        exact ⟨x, hx, (ih x hx hpol fun w hw => hm w ⟨x, hx, hw⟩).1 hs⟩
      · rintro ⟨x, hx, hs⟩
        exact ⟨x, hx, (ih x hx hpol fun w hw => hm w ⟨x, hx, hw⟩).2 hs⟩
  | unit => simp [Ty.renameVars]
  | error => simp [Ty.renameVars]

/-! ## Monotonicity -/

/-- Larger variances of constructors make larger variances of occurrences. -/
theorem occurrence_mono {table table' : VarianceTable} (hpol : pol ≠ bi) (t : Ty)
    (hle : ∀ name i arity, i < arity → table.param name i arity ≤ table'.param name i arity)
    (hs : s ∈ table.occurrence v t pol) : s ∈ table'.occurrence v t pol := by
  induction t using Ty.induction generalizing pol s with
  | var n => simpa using hs
  | fn a b iha ihb =>
      rw [mem_occurrence_fn] at hs ⊢
      exact hs.imp (iha (flip_ne_bi hpol)) (ihb hpol)
  | app name xs ih =>
      rw [mem_occurrence_app _ hpol] at hs ⊢
      obtain ⟨i, a, ha, s₀, h₀, s₁, h₁, s₂, h₂, rfl⟩ := hs
      have hlt : i < xs.length := (List.getElem?_eq_some_iff.1 ha).1
      exact ⟨i, a, ha, s₀, h₀, s₁, le_def.1 (hle name i _ hlt) s₁ h₁, s₂,
        ih a (List.mem_of_getElem? ha) (by decide) h₂, rfl⟩
  | record fields ext ih =>
      rw [mem_occurrence_record] at hs ⊢
      exact hs.imp_right fun ⟨f, hf, hs⟩ => ⟨f, hf, ih f hf hpol hs⟩
  | tuple xs ih =>
      rw [mem_occurrence_tuple] at hs ⊢
      obtain ⟨x, hx, hs⟩ := hs
      exact ⟨x, hx, ih x hx hpol hs⟩
  | unit => simp at hs
  | error => simp at hs

end VarianceTable

end Sky.Types
