import Sky.Verification.Identity.Injective

/-! # Sky values, and the Go values that stand for them -/

namespace Sky.Identity

open Sky.Strconv Sky.Library

/-- A Sky value. An `Int` and a `Float` are the number they denote. -/
inductive SkyVal where
  | bool (b : Bool)
  | num (q : ℚ)
  | chr (c : ℕ)
  | str (s : Bytes)
  | unit
  | list (vs : List SkyVal)
  | tuple (vs : List SkyVal)
  | record (names : List Bytes) (vs : List SkyVal)
  | union (tag : ℕ) (name : Option Bytes) (vs : List SkyVal)
  | dict (entries : List (Bytes × SkyVal))
  | set (items : List SkyVal)

namespace SkyVal

/-- Equality of Sky values: entries of a `Dict` and items of a `Set` have no order. -/
inductive Equal : SkyVal → SkyVal → Prop where
  | bool b : Equal (.bool b) (.bool b)
  | num q : Equal (.num q) (.num q)
  | chr c : Equal (.chr c) (.chr c)
  | str s : Equal (.str s) (.str s)
  | unit : Equal .unit .unit
  | list {vs vs'} : List.Forall₂ Equal vs vs' → Equal (.list vs) (.list vs')
  | tuple {vs vs'} : List.Forall₂ Equal vs vs' → Equal (.tuple vs) (.tuple vs')
  | record names {vs vs'} : List.Forall₂ Equal vs vs' →
      Equal (.record names vs) (.record names vs')
  | union tag name {vs vs'} : List.Forall₂ Equal vs vs' →
      Equal (.union tag name vs) (.union tag name vs')
  | dict {es es₁ es'} : es.Perm es₁ → es₁.map (·.1) = es'.map (·.1) →
      List.Forall₂ Equal (es₁.map (·.2)) (es'.map (·.2)) → Equal (.dict es) (.dict es')
  | set {items items₁ items'} : items.Perm items₁ → List.Forall₂ Equal items₁ items' →
      Equal (.set items) (.set items')

theorem equal_dict_iff {es es' : List (Bytes × SkyVal)} :
    Equal (.dict es) (.dict es') ↔
      ∃ es₁, es.Perm es₁ ∧ List.Forall₂ (fun p p' => p.1 = p'.1 ∧ Equal p.2 p'.2) es₁ es' := by
  constructor
  · intro h
    cases h with
    | dict hperm hfst hsnd =>
        refine ⟨_, hperm, ?_⟩
        rw [← List.forall₂_eq_eq_eq, List.forall₂_map_left_iff, List.forall₂_map_right_iff] at hfst
        rw [List.forall₂_map_left_iff, List.forall₂_map_right_iff] at hsnd
        exact forall₂_and.mpr ⟨hfst, hsnd⟩
  · rintro ⟨es₁, hperm, hall⟩
    obtain ⟨hfst, hsnd⟩ := forall₂_and.mp hall
    refine .dict hperm ?_ ?_
    · rw [← List.forall₂_eq_eq_eq, List.forall₂_map_left_iff, List.forall₂_map_right_iff]
      exact hfst
    · rw [List.forall₂_map_left_iff, List.forall₂_map_right_iff]
      exact hsnd

theorem equal_set_iff {items items' : List SkyVal} :
    Equal (.set items) (.set items') ↔
      ∃ items₁, items.Perm items₁ ∧ List.Forall₂ Equal items₁ items' := by
  constructor
  · intro h
    cases h with
    | set hperm hall => exact ⟨_, hperm, hall⟩
  · rintro ⟨items₁, hperm, hall⟩
    exact .set hperm hall

end SkyVal

/-! ## Types -/

inductive Ty where
  | bool
  | number
  | chr
  | str
  | unit
  | list (t : Ty)
  | tuple (ts : List Ty)
  | record (names : List Bytes) (ts : List Ty)
  | union (id : ℕ) (targs : List Ty)
  | dict (t : Ty)
  | set (t : Ty)

/-- The constructors of each union at each instance, by tag: the name carried, and the
argument types. -/
abbrev Unions := ℕ → List Ty → List (Option Bytes × List Ty)

/-- The number is a 64-bit integer. -/
def Int64 (q : ℚ) : Prop := q = ⌊q⌋ ∧ -2 ^ 63 ≤ q ∧ q < 2 ^ 63

/-- An `Int`, or a finite `Float`. -/
def Number (q : ℚ) : Prop := Int64 q ∨ float64.round |q| = |q|

inductive HasTy (U : Unions) : SkyVal → Ty → Prop where
  | bool b : HasTy U (.bool b) .bool
  | num {q} : Number q → HasTy U (.num q) .number
  | chr c : HasTy U (.chr c) .chr
  | str s : HasTy U (.str s) .str
  | unit : HasTy U .unit .unit
  | list {vs t} : (∀ v ∈ vs, HasTy U v t) → HasTy U (.list vs) (.list t)
  | tuple {vs ts} : List.Forall₂ (HasTy U) vs ts → HasTy U (.tuple vs) (.tuple ts)
  | record {names vs ts} : List.Forall₂ (HasTy U) vs ts →
      HasTy U (.record names vs) (.record names ts)
  | union {tag name vs id targs ts} : (U id targs)[tag]? = some (name, ts) →
      List.Forall₂ (HasTy U) vs ts → HasTy U (.union tag name vs) (.union id targs)
  | dict {es t} : (∀ p ∈ es, HasTy U p.2 t) → HasTy U (.dict es) (.dict t)
  | set {items t} : (∀ v ∈ items, HasTy U v t) → HasTy U (.set items) (.set t)

/-! ## What a Go value stands for -/

def structVal (vs : List SkyVal) : StructType → SkyVal
  | .unit => .unit
  | .tuple => .tuple vs
  | .record names => .record names vs

mutual

def sky : GoVal → SkyVal
  | .bool b => .bool b
  | .int i => .num i
  | .rune c => .chr c
  | .float f => .num f.val
  | .str s => .str s
  | .nilSlice => .list []
  | .slice xs => .list (skys xs)
  | .nilMap => .dict []
  | .map entries | .dict entries => .dict (skyEntries entries)
  | .struct type fields => structVal (skys fields) type
  | .set items => .set (skys items)
  | .union tag name payload => .union tag name (skys payload)
  | .iface v => sky v

def skys : List GoVal → List SkyVal
  | [] => []
  | v :: vs => sky v :: skys vs

def skyEntries : List (Bytes × GoVal) → List (Bytes × SkyVal)
  | [] => []
  | (k, v) :: entries => (k, sky v) :: skyEntries entries

end

mutual

/-- No nil slice or map, no float `2^63`, no float32 with a fraction or beyond 64 bits, and
integers of 64 bits only. -/
def Clean : GoVal → Prop
  | .bool _ | .rune _ | .str _ => True
  | .int i => -2 ^ 63 ≤ i ∧ i < 2 ^ 63
  | .float f => f.val ≠ 2 ^ 63 ∧ (f.narrow → Integral f)
  | .nilSlice | .nilMap => False
  | .slice xs => CleanAll xs
  | .map entries | .dict entries => CleanEntries entries
  | .struct type fields => (type = .unit → fields = []) ∧ CleanAll fields
  | .set items => CleanAll items
  | .union _ _ payload => CleanAll payload
  | .iface v => Clean v

def CleanAll : List GoVal → Prop
  | [] => True
  | v :: vs => Clean v ∧ CleanAll vs

def CleanEntries : List (Bytes × GoVal) → Prop
  | [] => True
  | (_, v) :: entries => Clean v ∧ CleanEntries entries

end

mutual

/-- The walk from this depth stays within the limit; an interface box is a level of its own, and
a set's items were keyed by walks of their own. -/
def Fits (depth : ℕ) : GoVal → Prop
  | .slice xs | .struct _ xs => depth ≤ identityKeyMaxDepth ∧ FitsAll (depth + 1) xs
  | .map entries | .dict entries =>
      depth ≤ identityKeyMaxDepth ∧ FitsEntries (depth + 1) entries
  | .set items => depth ≤ identityKeyMaxDepth ∧ FitsAll 0 items
  | .union _ name payload =>
      depth ≤ identityKeyMaxDepth ∧ (name.isSome → depth + 1 ≤ identityKeyMaxDepth) ∧
        FitsAll (depth + 1) payload
  | .iface v => depth ≤ identityKeyMaxDepth ∧ Fits (depth + 1) v
  | .bool _ | .int _ | .rune _ | .float _ | .str _ | .nilSlice | .nilMap =>
      depth ≤ identityKeyMaxDepth

def FitsAll (depth : ℕ) : List GoVal → Prop
  | [] => True
  | v :: vs => Fits depth v ∧ FitsAll depth vs

def FitsEntries (depth : ℕ) : List (Bytes × GoVal) → Prop
  | [] => True
  | (_, v) :: entries =>
      (depth ≤ identityKeyMaxDepth ∧ Fits depth v) ∧ FitsEntries depth entries

end

/-! ## The tree of a Sky value -/

open Classical in
noncomputable def numTree (q : ℚ) : Tree :=
  if Int64 q then .int ⌊q⌋
  else if h : ch ';' ∉ formatFloat float64 q then .float ⟨formatFloat float64 q, h⟩
  else .deep

mutual

noncomputable def skyTree : SkyVal → Tree
  | .bool b => .bool b
  | .num q => numTree q
  | .chr c => .int c
  | .str s => .str s
  | .unit => .struct []
  | .list vs => .list (skyTrees vs)
  | .tuple vs | .record _ vs => .struct (skyTrees vs)
  | .union tag name vs => .union tag (name.elim .nil .str) (skyTrees vs)
  | .dict entries => .map (skyEntryTrees entries)
  | .set items => .set (skyTrees items)

noncomputable def skyTrees : List SkyVal → List Tree
  | [] => []
  | v :: vs => skyTree v :: skyTrees vs

noncomputable def skyEntryTrees : List (Bytes × SkyVal) → List (Tree × Tree)
  | [] => []
  | (k, v) :: entries => (.str k, skyTree v) :: skyEntryTrees entries

end

theorem skyTrees_eq_map (vs : List SkyVal) : skyTrees vs = vs.map skyTree := by
  induction vs with
  | nil => rfl
  | cons v vs ih => rw [skyTrees, List.map_cons, ih]

theorem skyEntryTrees_eq_map (es : List (Bytes × SkyVal)) :
    skyEntryTrees es = es.map fun p => (.str p.1, skyTree p.2) := by
  induction es with
  | nil => rfl
  | cons p es ih => rw [skyEntryTrees, List.map_cons, ih]

theorem strTree_of_le {depth : ℕ} (h : depth ≤ identityKeyMaxDepth) (s : Bytes) :
    strTree depth s = .str s := if_neg (not_lt.mpr h)

theorem int64_int {i : ℤ} (h : -2 ^ 63 ≤ i ∧ i < 2 ^ 63) : Int64 (i : ℚ) := by
  refine ⟨by rw [Int.floor_intCast], ?_, ?_⟩
  · exact_mod_cast h.1
  · exact_mod_cast h.2

theorem floatTree_of_clean {overflow : ℤ} {f : GoFloat}
    (h : f.val ≠ 2 ^ 63 ∧ (f.narrow → Integral f)) : floatTree overflow f = numTree f.val := by
  unfold floatTree numTree
  by_cases hint : Integral f
  · have hlt : f.val < 2 ^ 63 := lt_of_le_of_ne hint.2.2 h.1
    have h64 : Int64 f.val := ⟨hint.1, hint.2.1, hlt⟩
    rw [dif_pos hint, if_pos h64, int64Of, if_pos hlt]
  · have h64 : ¬Int64 f.val := fun h64 => hint ⟨h64.1, h64.2.1, h64.2.2.le⟩
    have hformat : f.format = float64 := by
      have hwide : f.narrow = false := by
        cases hn : f.narrow with
        | false => rfl
        | true => exact absurd (h.2 hn) hint
      simp [GoFloat.format, hwide]
    have hends := (floatText f hint).ends
    simp only [floatText, hformat] at hends
    rw [dif_neg hint, if_neg h64, dif_pos hends]
    simp only [floatText, hformat]

section

variable (overflow : ℤ)

mutual

/-- The walk reads the Sky value's own tree off a clean value within the limit. -/
theorem tree_eq_skyTree (depth : ℕ) (v : GoVal) (hc : Clean v) (hf : Fits depth v) :
    tree overflow depth v = skyTree (sky v) := by
  cases v with
  | bool b =>
      rw [Fits] at hf
      rw [tree, if_neg (not_lt.mpr hf), sky, skyTree]
  | rune c =>
      rw [Fits] at hf
      rw [tree, if_neg (not_lt.mpr hf), sky, skyTree]
  | str s =>
      rw [Fits] at hf
      rw [tree, strTree_of_le hf, sky, skyTree]
  | int i =>
      rw [Fits] at hf
      rw [Clean] at hc
      rw [tree, if_neg (not_lt.mpr hf), sky, skyTree, numTree, if_pos (int64_int hc),
        Int.floor_intCast]
  | float f =>
      rw [Fits] at hf
      rw [Clean] at hc
      rw [tree, if_neg (not_lt.mpr hf), sky, skyTree, floatTree_of_clean hc]
  | nilSlice => exact absurd hc (by simp [Clean])
  | nilMap => exact absurd hc (by simp [Clean])
  | slice xs =>
      rw [Fits] at hf
      rw [Clean] at hc
      rw [tree, if_neg (not_lt.mpr hf.1), sky, skyTree, trees_eq_skyTrees (depth + 1) xs hc hf.2]
  | struct type fields =>
      rw [Fits] at hf
      rw [Clean] at hc
      rw [tree, if_neg (not_lt.mpr hf.1), sky, trees_eq_skyTrees (depth + 1) fields hc.2 hf.2]
      cases type with
      | unit =>
          rw [hc.1 rfl]
          rfl
      | tuple => rw [structVal, skyTree]
      | record names => rw [structVal, skyTree]
  | map entries =>
      rw [Fits] at hf
      rw [Clean] at hc
      rw [tree, if_neg (not_lt.mpr hf.1), sky, skyTree,
        entryTrees_eq_skyEntryTrees (depth + 1) entries hc hf.2]
  | dict entries =>
      rw [Fits] at hf
      rw [Clean] at hc
      rw [tree, if_neg (not_lt.mpr hf.1), sky, skyTree,
        entryTrees_eq_skyEntryTrees (depth + 1) entries hc hf.2]
  | set items =>
      rw [Fits] at hf
      rw [Clean] at hc
      rw [tree, if_neg (not_lt.mpr hf.1), sky, skyTree, trees_eq_skyTrees 0 items hc hf.2]
  | union tag name payload =>
      rw [Fits] at hf
      rw [Clean] at hc
      rw [tree, if_neg (not_lt.mpr hf.1), sky, skyTree,
        trees_eq_skyTrees (depth + 1) payload hc hf.2.2]
      cases name with
      | none => rfl
      | some n =>
          simp only [Option.elim_some]
          rw [strTree_of_le (hf.2.1 rfl)]
  | iface v =>
      rw [Fits] at hf
      rw [Clean] at hc
      rw [tree, if_neg (not_lt.mpr hf.1), sky, tree_eq_skyTree (depth + 1) v hc hf.2]

theorem trees_eq_skyTrees (depth : ℕ) (vs : List GoVal) (hc : CleanAll vs)
    (hf : FitsAll depth vs) : trees overflow depth vs = skyTrees (skys vs) := by
  cases vs with
  | nil => rfl
  | cons v vs =>
      rw [CleanAll] at hc
      rw [FitsAll] at hf
      rw [trees, skys, skyTrees, tree_eq_skyTree depth v hc.1 hf.1,
        trees_eq_skyTrees depth vs hc.2 hf.2]

theorem entryTrees_eq_skyEntryTrees (depth : ℕ) (entries : List (Bytes × GoVal))
    (hc : CleanEntries entries) (hf : FitsEntries depth entries) :
    entryTrees overflow depth entries = skyEntryTrees (skyEntries entries) := by
  cases entries with
  | nil => rfl
  | cons p entries =>
      obtain ⟨k, v⟩ := p
      rw [CleanEntries] at hc
      rw [FitsEntries] at hf
      rw [entryTrees, skyEntries, skyEntryTrees, strTree_of_le hf.1.1,
        tree_eq_skyTree depth v hc.1 hf.1.2, entryTrees_eq_skyEntryTrees depth entries hc.2 hf.2]

end

end

end Sky.Identity
