import Mathlib

/-! # Tasks

The tasks of a system are a list, and a step replaces one of them. -/

namespace Sky.Library

variable {α : Type*} {l : List α} {i j : ℕ} {a b c : α}

/-- A task after a step is the one that moved, or was there before. -/
theorem getElem?_set_cases (h : (l.set i a)[j]? = some b) :
    i = j ∧ b = a ∨ i ≠ j ∧ l[j]? = some b := by
  by_cases hij : i = j
  · rw [List.getElem?_set, if_pos hij] at h
    split at h
    · exact .inl ⟨hij, by simpa using h.symm⟩
    · cases h
  · exact .inr ⟨hij, by rwa [List.getElem?_set_ne hij] at h⟩

theorem mem_set_cases (h : b ∈ l.set i a) : b = a ∨ ∃ j, i ≠ j ∧ l[j]? = some b := by
  obtain ⟨j, hj⟩ := List.mem_iff_getElem?.1 h
  rcases getElem?_set_cases hj with ⟨_, hb⟩ | ⟨hij, hj⟩
  · exact .inl hb
  · exact .inr ⟨j, hij, hj⟩

/-- The other tasks are still there. -/
theorem mem_set_of_ne {p : α} (hi : l[i]? = some p) (hb : b ∈ l) (hne : b ≠ p) :
    b ∈ l.set i a := by
  obtain ⟨j, hj⟩ := List.mem_iff_getElem?.1 hb
  have hij : i ≠ j := by
    rintro rfl
    exact hne (Option.some.inj (hj.symm.trans hi))
  exact List.mem_of_getElem? ((List.getElem?_set_ne hij).trans hj)

/-- A task after a call is the new one, or was there before. -/
theorem getElem?_concat_cases (h : (l ++ [a])[j]? = some b) :
    j = l.length ∧ b = a ∨ l[j]? = some b := by
  rcases Nat.lt_trichotomy j l.length with hlt | heq | hgt
  · exact .inr (by rwa [List.getElem?_append_left hlt] at h)
  · subst heq
    exact .inl ⟨rfl, by simpa using h.symm⟩
  · rw [List.getElem?_append_right hgt.le, List.getElem?_eq_none] at h
    · cases h
    · simp
      omega

/-- How many tasks are of a kind, after a step. -/
theorem countP_set_add {p : α → Bool} (hi : l[i]? = some b) (a : α) :
    (l.set i a).countP p + (p b).toNat = l.countP p + (p a).toNat := by
  obtain ⟨hlt, hget⟩ := List.getElem?_eq_some_iff.1 hi
  have hle : (p b).toNat ≤ l.countP p := by
    cases hb : p b with
    | false => exact Nat.zero_le _
    | true => exact List.countP_pos_iff.2 ⟨b, List.mem_of_getElem? hi, hb⟩
  have hite : ∀ c, (if p c = true then 1 else 0) = (p c).toNat := by
    intro c
    cases p c <;> rfl
  rw [List.countP_set hlt, hget, hite, hite]
  omega

/-! ## Histories -/

/-- Two entries in order, in a history that has grown by one. -/
theorem pair_sublist_concat (h : [a, b].Sublist (l ++ [c])) :
    [a, b].Sublist l ∨ a ∈ l ∧ b = c := by
  obtain ⟨l₁, l₂, heq, h₁, h₂⟩ := List.sublist_append_iff.1 h
  cases h₂ with
  | cons _ h₂ =>
      obtain rfl := List.sublist_nil.1 h₂
      rw [List.append_nil] at heq
      exact .inl (heq ▸ h₁)
  | cons_cons _ h₂ =>
      obtain rfl := List.sublist_nil.1 h₂
      have hpair : [a] ++ [b] = l₁ ++ [c] := heq
      obtain ⟨rfl, hbc⟩ := List.append_inj' hpair rfl
      exact .inr ⟨List.singleton_sublist.1 h₁, by simpa using hbc⟩

/-- A history of what each task has come to: once for each task that has, and for no other. -/
structure Recorded {β : Type*} (f : α → Option β) (l : List α) (history : List (ℕ × β)) : Prop where
  mem_iff : ∀ i v, (i, v) ∈ history ↔ ∃ a, l[i]? = some a ∧ f a = some v
  once : (history.map Prod.fst).Nodup

namespace Recorded

variable {β : Type*} {f : α → Option β} {history : List (ℕ × β)} {v : β}

theorem nil (f : α → Option β) : Recorded f [] [] where
  mem_iff := by simp
  once := .nil

/-- A new task has come to nothing yet. -/
theorem concat (h : Recorded f l history) (ha : f a = none) : Recorded f (l ++ [a]) history where
  mem_iff j w := by
    rw [h.mem_iff]
    constructor
    · rintro ⟨b, hb, hf⟩
      have hlt := (List.getElem?_eq_some_iff.1 hb).1
      exact ⟨b, (List.getElem?_append_left hlt).trans hb, hf⟩
    · rintro ⟨b, hb, hf⟩
      rcases getElem?_concat_cases hb with ⟨_, rfl⟩ | hb
      · rw [ha] at hf
        cases hf
      · exact ⟨b, hb, hf⟩
  once := h.once

/-- A task moves, and has come to nothing before or after. -/
theorem set (h : Recorded f l history) (hi : l[i]? = some b) (hb : f b = none) (ha : f a = none) :
    Recorded f (l.set i a) history where
  mem_iff j w := by
    rw [h.mem_iff]
    constructor
    · rintro ⟨c, hc, hf⟩
      have hij : i ≠ j := by
        rintro rfl
        obtain rfl := Option.some.inj (hi.symm.trans hc)
        rw [hb] at hf
        cases hf
      exact ⟨c, (List.getElem?_set_ne hij).trans hc, hf⟩
    · rintro ⟨c, hc, hf⟩
      rcases getElem?_set_cases hc with ⟨_, rfl⟩ | ⟨_, hc⟩
      · rw [ha] at hf
        cases hf
      · exact ⟨c, hc, hf⟩
  once := h.once

/-- A task comes to something. -/
theorem snoc (h : Recorded f l history) (hi : l[i]? = some b) (hb : f b = none)
    (ha : f a = some v) : Recorded f (l.set i a) (history ++ [(i, v)]) where
  mem_iff j w := by
    have hlt := (List.getElem?_eq_some_iff.1 hi).1
    rw [List.mem_append, List.mem_singleton, h.mem_iff]
    constructor
    · rintro (⟨c, hc, hf⟩ | heq)
      · have hij : i ≠ j := by
          rintro rfl
          obtain rfl := Option.some.inj (hi.symm.trans hc)
          rw [hb] at hf
          cases hf
        exact ⟨c, (List.getElem?_set_ne hij).trans hc, hf⟩
      · obtain ⟨rfl, rfl⟩ := Prod.mk.inj heq
        exact ⟨a, List.getElem?_set_self hlt, ha⟩
    · rintro ⟨c, hc, hf⟩
      rcases getElem?_set_cases hc with ⟨rfl, rfl⟩ | ⟨_, hc⟩
      · obtain rfl := Option.some.inj (ha.symm.trans hf)
        exact .inr rfl
      · exact .inl ⟨c, hc, hf⟩
  once := by
    rw [List.map_append, List.nodup_append]
    refine ⟨h.once, List.nodup_singleton _, ?_⟩
    rintro j hj k hk rfl
    obtain rfl : j = i := by simpa using hk
    obtain ⟨⟨_, w⟩, hmem, rfl⟩ := List.mem_map.1 hj
    obtain ⟨c, hc, hf⟩ := (h.mem_iff _ w).1 hmem
    obtain rfl := Option.some.inj (hi.symm.trans hc)
    rw [hb] at hf
    cases hf

end Recorded

end Sky.Library
