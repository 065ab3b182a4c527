import Sky.Verification.Identity.Values

/-! # Where the key is an exact identity -/

namespace Sky.Identity

open Sky.Strconv Sky.Library

/-! ## Numbers -/

theorem alike_int_iff {i i' : ℤ} : Alike (.int i) (.int i') ↔ i = i' := by
  constructor
  · rintro ⟨⟩
    rfl
  · rintro rfl
    exact .int i

theorem int64_eq_iff {q q' : ℚ} (h : Int64 q) (h' : Int64 q') : ⌊q⌋ = ⌊q'⌋ ↔ q = q' := by
  constructor
  · intro heq
    rw [h.1, h'.1, heq]
  · rintro rfl
    rfl

theorem ne_zero_of_not_int64 {q : ℚ} (h : ¬Int64 q) : q ≠ 0 := by
  rintro rfl
  exact h (by norm_num [Int64])

theorem numTree_of_not_int64 {q : ℚ} (h : ¬Int64 q) (hq : Number q) :
    ∃ hends, numTree q = .float ⟨formatFloat float64 q, hends⟩ := by
  have hexact : float64.round |q| = |q| := hq.resolve_left h
  have hends := notMem_formatFloat (ne_zero_of_not_int64 h) hexact
  exact ⟨hends, by rw [numTree, if_neg h, dif_pos hends]⟩

theorem alike_numTree_iff {q q' : ℚ} (hq : Number q) (hq' : Number q') :
    Alike (numTree q) (numTree q') ↔ q = q' := by
  by_cases h : Int64 q <;> by_cases h' : Int64 q'
  · rw [numTree, numTree, if_pos h, if_pos h', alike_int_iff, int64_eq_iff h h']
  · obtain ⟨_, heq⟩ := numTree_of_not_int64 h' hq'
    rw [heq, numTree, if_pos h]
    refine iff_of_false nofun ?_
    rintro rfl
    exact h' h
  · obtain ⟨_, heq⟩ := numTree_of_not_int64 h hq
    rw [heq, numTree, if_pos h']
    refine iff_of_false nofun ?_
    rintro rfl
    exact h h'
  · obtain ⟨_, heq⟩ := numTree_of_not_int64 h hq
    obtain ⟨_, heq'⟩ := numTree_of_not_int64 h' hq'
    rw [heq, heq']
    constructor
    · intro halike
      cases halike with
      | float htext =>
          exact formatFloat_inj (ne_zero_of_not_int64 h) (ne_zero_of_not_int64 h')
            (hq.resolve_left h) (hq'.resolve_left h') htext
    · rintro rfl
      exact .float rfl

/-! ## Values of one type -/

theorem exists_perm_map_iff {α β : Type*} {f : α → β} {R : β → β → Prop} {l l' : List α} :
    (∃ t, (l.map f).Perm t ∧ List.Forall₂ R t (l'.map f)) ↔
      ∃ l₁, l.Perm l₁ ∧ List.Forall₂ (fun a b => R (f a) (f b)) l₁ l' := by
  constructor
  · rintro ⟨t, hperm, hall⟩
    have hid : (l.map f).Perm (t.map id) := by rwa [List.map_id]
    obtain ⟨l₁, hl, heq⟩ := exists_perm_of_map_perm hid
    have ht : l₁.map f = t := by
      rw [← List.forall₂_eq_eq_eq, List.forall₂_map_left_iff]
      exact heq
    refine ⟨l₁, hl, ?_⟩
    rw [← ht, List.forall₂_map_left_iff, List.forall₂_map_right_iff] at hall
    exact hall
  · rintro ⟨l₁, hperm, hall⟩
    refine ⟨l₁.map f, hperm.map f, ?_⟩
    rw [List.forall₂_map_left_iff, List.forall₂_map_right_iff]
    exact hall

theorem forall₂_iff_of_mem₂ {α : Type*} {P Q : α → α → Prop} {l l' : List α}
    (h : ∀ a ∈ l, ∀ b ∈ l', P a b ↔ Q a b) : List.Forall₂ P l l' ↔ List.Forall₂ Q l l' := by
  induction l generalizing l' with
  | nil => simp
  | cons a l ih =>
      cases l' with
      | nil => simp
      | cons b l' =>
          rw [List.forall₂_cons, List.forall₂_cons, h a (by simp) b (by simp),
            ih fun x hx y hy => h x (List.mem_cons_of_mem _ hx) y (List.mem_cons_of_mem _ hy)]

theorem forall₂_skyTrees_iff {vs vs' : List SkyVal} :
    List.Forall₂ Alike (skyTrees vs) (skyTrees vs') ↔
      List.Forall₂ (fun v v' => Alike (skyTree v) (skyTree v')) vs vs' := by
  rw [skyTrees_eq_map, skyTrees_eq_map, List.forall₂_map_left_iff, List.forall₂_map_right_iff]

theorem alike_str_iff {s s' : Bytes} : Alike (.str s) (.str s') ↔ s = s' := by
  constructor
  · rintro ⟨⟩
    rfl
  · rintro rfl
    exact .str s

theorem alike_list_iff {ts ts' : List Tree} :
    Alike (.list ts) (.list ts') ↔ List.Forall₂ Alike ts ts' := by
  constructor
  · intro h
    cases h with
    | list hts => exact hts
  · exact .list

theorem alike_struct_iff {ts ts' : List Tree} :
    Alike (.struct ts) (.struct ts') ↔ List.Forall₂ Alike ts ts' := by
  constructor
  · intro h
    cases h with
    | struct hts => exact hts
  · exact .struct

section

variable {U : Unions}

mutual

/-- Values of one type have trees alike exactly when they are equal. -/
theorem alike_iff_equal (v v' : SkyVal) (t : Ty) (hv : HasTy U v t) (hv' : HasTy U v' t) :
    Alike (skyTree v) (skyTree v') ↔ v.Equal v' := by
  cases v with
  | bool b =>
      cases hv
      cases hv' with
      | bool b' =>
          constructor
          · rintro ⟨⟩
            exact .bool b
          · rintro ⟨⟩
            exact .bool b
  | num q =>
      cases hv with
      | num hq =>
          cases hv' with
          | num hq' =>
              rw [skyTree, skyTree, alike_numTree_iff hq hq']
              constructor
              · rintro rfl
                exact .num q
              · rintro ⟨⟩
                rfl
  | chr c =>
      cases hv
      cases hv' with
      | chr c' =>
          rw [skyTree, skyTree, alike_int_iff, Nat.cast_inj]
          constructor
          · rintro rfl
            exact .chr c
          · rintro ⟨⟩
            rfl
  | str s =>
      cases hv
      cases hv' with
      | str s' =>
          constructor
          · rintro ⟨⟩
            exact .str s
          · rintro ⟨⟩
            exact .str s
  | unit =>
      cases hv
      cases hv'
      exact iff_of_true (.struct .nil) .unit
  | list vs =>
      cases hv with
      | list hvs =>
          cases hv' with
          | list hvs' =>
              rw [skyTree, skyTree, alike_list_iff, forall₂_skyTrees_iff,
                forall₂_iff_of_mem₂ fun a ha b hb => mem_alike_iff vs a ha b _ (hvs a ha) (hvs' b hb)]
              constructor
              · exact .list
              · intro h
                cases h with
                | list h => exact h
  | tuple vs =>
      cases hv with
      | tuple hvs =>
          cases hv' with
          | tuple hvs' =>
              rw [skyTree, skyTree, alike_struct_iff, alikeAll_iff vs _ _ hvs hvs']
              constructor
              · exact .tuple
              · intro h
                cases h with
                | tuple h => exact h
  | record names vs =>
      cases hv with
      | record hvs =>
          cases hv' with
          | record hvs' =>
              rw [skyTree, skyTree, alike_struct_iff, alikeAll_iff vs _ _ hvs hvs']
              constructor
              · exact .record names
              · intro h
                cases h with
                | record _ h => exact h
  | union tag name vs =>
      cases hv with
      | union hctor hvs =>
          cases hv' with
          | union hctor' hvs' =>
              rw [skyTree, skyTree]
              constructor
              · intro h
                cases h with
                | union _ _ hts =>
                    rw [hctor, Option.some.injEq, Prod.mk.injEq] at hctor'
                    obtain ⟨rfl, rfl⟩ := hctor'
                    exact .union tag name ((alikeAll_iff vs _ _ hvs hvs').mp hts)
              · intro h
                cases h with
                | union _ _ h =>
                    rw [hctor, Option.some.injEq, Prod.mk.injEq] at hctor'
                    obtain ⟨_, rfl⟩ := hctor'
                    refine .union tag ?_ ((alikeAll_iff vs _ _ hvs hvs').mpr h)
                    cases name with
                    | none => exact .nil
                    | some n => exact .str n
  | dict es =>
      cases hv with
      | dict hes =>
          cases hv' with
          | dict hes' =>
              have hmem := mem_entries_iff es
              rw [skyTree, skyTree, alike_map_iff, skyEntryTrees_eq_map, skyEntryTrees_eq_map,
                exists_perm_map_iff, SkyVal.equal_dict_iff]
              refine exists_congr fun es₁ => and_congr_right fun hperm => ?_
              refine forall₂_iff_of_mem₂ fun p hp p' hp' => ?_
              have hin := hperm.mem_iff.mpr hp
              exact and_congr alike_str_iff (hmem p hin p'.2 _ (hes p hin) (hes' p' hp'))
  | set items =>
      cases hv with
      | set hitems =>
          cases hv' with
          | set hitems' =>
              have hmem := mem_alike_iff items
              rw [skyTree, skyTree, alike_set_iff, skyTrees_eq_map, skyTrees_eq_map,
                exists_perm_map_iff, SkyVal.equal_set_iff]
              refine exists_congr fun items₁ => and_congr_right fun hperm => ?_
              refine forall₂_iff_of_mem₂ fun a ha b hb => ?_
              have hin := hperm.mem_iff.mpr ha
              exact hmem a hin b _ (hitems a hin) (hitems' b hb)

theorem alikeAll_iff (vs vs' : List SkyVal) (ts : List Ty) (hvs : List.Forall₂ (HasTy U) vs ts)
    (hvs' : List.Forall₂ (HasTy U) vs' ts) :
    List.Forall₂ Alike (skyTrees vs) (skyTrees vs') ↔ List.Forall₂ SkyVal.Equal vs vs' := by
  cases vs with
  | nil =>
      cases hvs
      cases hvs'
      exact iff_of_true .nil .nil
  | cons v vs =>
      cases hvs with
      | cons hv hvs =>
          cases hvs' with
          | cons hv' hvs' =>
              rw [skyTrees, skyTrees, List.forall₂_cons, List.forall₂_cons,
                alike_iff_equal v _ _ hv hv', alikeAll_iff vs _ _ hvs hvs']

theorem mem_alike_iff (vs : List SkyVal) : ∀ v ∈ vs, ∀ v' t, HasTy U v t → HasTy U v' t →
    (Alike (skyTree v) (skyTree v') ↔ v.Equal v') := by
  cases vs with
  | nil => simp
  | cons v vs =>
      intro x hx v' t
      rcases List.mem_cons.mp hx with heq | hx
      · rw [heq]
        exact alike_iff_equal v v' t
      · exact mem_alike_iff vs x hx v' t

theorem mem_entries_iff (es : List (Bytes × SkyVal)) : ∀ p ∈ es, ∀ v' t, HasTy U p.2 t →
    HasTy U v' t → (Alike (skyTree p.2) (skyTree v') ↔ p.2.Equal v') := by
  cases es with
  | nil => simp
  | cons p es =>
      obtain ⟨k, v⟩ := p
      intro x hx v' t
      rcases List.mem_cons.mp hx with heq | hx
      · rw [heq]
        exact alike_iff_equal v v' t
      · exact mem_entries_iff es x hx v' t

end

end

/-! ## Exactness -/

/-- The empty list has two keys, by whether its slice is nil. -/
theorem nilSlice_key_ne (overflow : ℤ) :
    identityKey overflow .nilSlice ≠ identityKey overflow (.slice []) := by
  intro h
  rw [identityKey_eq_iff] at h
  simp only [tree, trees, identityKeyMaxDepth] at h
  cases h

theorem nilSlice_same_value : (sky .nilSlice).Equal (sky (.slice [])) := .list .nil

end Sky.Identity
