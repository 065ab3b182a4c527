import Mathlib

/-! # Strongly connected components, one after another

A list of components in which no edge leads forward. -/

namespace Sky.Library

open Relation

variable {α : Type*} (r : α → α → Prop)

/-- Each group is connected, and its edges lead into it or into the groups before it. -/
inductive CalleesFirst : List (List α) → Prop where
  | nil : CalleesFirst []
  | snoc {groups : List (List α)} {g : List α} (rest : CalleesFirst groups)
      (connected : ∀ a ∈ g, ∀ b ∈ g, ReflTransGen r a b)
      (edges : ∀ a ∈ g, ∀ b, r a b → b ∈ g ∨ b ∈ groups.flatten)
      (fresh : ∀ a ∈ g, a ∉ groups.flatten) : CalleesFirst (groups ++ [g])

variable {r} {groups : List (List α)}

theorem CalleesFirst.closed (h : CalleesFirst r groups) {a b : α} (ha : a ∈ groups.flatten)
    (hab : r a b) : b ∈ groups.flatten := by
  induction h with
  | nil => exact absurd ha List.not_mem_nil
  | snoc _ _ edges _ ih =>
      rw [List.flatten_concat, List.mem_append] at ha ⊢
      rcases ha with ha | ha
      · exact .inl (ih ha)
      · exact (edges a ha b hab).symm

theorem CalleesFirst.closed_reach (h : CalleesFirst r groups) {a b : α} (ha : a ∈ groups.flatten)
    (hab : ReflTransGen r a b) : b ∈ groups.flatten := by
  induction hab with
  | refl => exact ha
  | tail _ hedge ih => exact h.closed ih hedge

/-- Members of one group are those that reach each other. -/
theorem CalleesFirst.same_iff (h : CalleesFirst r groups) {a b : α} (ha : a ∈ groups.flatten)
    (hb : b ∈ groups.flatten) :
    (∃ g ∈ groups, a ∈ g ∧ b ∈ g) ↔ ReflTransGen r a b ∧ ReflTransGen r b a := by
  induction h with
  | nil => exact absurd ha List.not_mem_nil
  | @snoc groups g rest connected edges fresh ih =>
      rw [List.flatten_concat, List.mem_append] at ha hb
      constructor
      · rintro ⟨g', hg', hag, hbg⟩
        rw [List.mem_append, List.mem_singleton] at hg'
        rcases hg' with hg' | rfl
        · exact (ih (List.mem_flatten_of_mem hg' hag) (List.mem_flatten_of_mem hg' hbg)).mp
            ⟨g', hg', hag, hbg⟩
        · exact ⟨connected a hag b hbg, connected b hbg a hag⟩
      · rintro ⟨hab, hba⟩
        by_cases hold : a ∈ groups.flatten
        · have hbold : b ∈ groups.flatten := rest.closed_reach hold hab
          obtain ⟨g', hg', hmem⟩ := (ih hold hbold).mpr ⟨hab, hba⟩
          exact ⟨g', List.mem_append_left _ hg', hmem⟩
        · have hbold : b ∉ groups.flatten := fun hb' => hold (rest.closed_reach hb' hba)
          exact ⟨g, by simp, ha.resolve_left hold, hb.resolve_left hbold⟩

/-- An edge does not lead to a later group. -/
theorem CalleesFirst.le_of_edge (h : CalleesFirst r groups) {i j : ℕ} {g g' : List α}
    (hg : groups[i]? = some g) (hg' : groups[j]? = some g') {a b : α} (ha : a ∈ g) (hb : b ∈ g')
    (hab : r a b) : j ≤ i := by
  induction h generalizing i j g g' with
  | nil => simp at hg
  | @snoc groups last rest connected edges fresh ih =>
      have hbound : ∀ {k : ℕ} {x : List α}, (groups ++ [last])[k]? = some x →
          k < groups.length ∧ groups[k]? = some x ∨ k = groups.length ∧ x = last := by
        intro k x hx
        have hk := (List.getElem?_eq_some_iff.mp hx).1
        rw [List.length_append, List.length_singleton] at hk
        rcases Nat.lt_or_ge k groups.length with hlt | hge
        · rw [List.getElem?_append_left hlt] at hx
          exact .inl ⟨hlt, hx⟩
        · have heq : k = groups.length := by omega
          rw [heq, List.getElem?_concat_length] at hx
          exact .inr ⟨heq, (Option.some.inj hx).symm⟩
      rcases hbound hg' with ⟨hj, hg'old⟩ | ⟨hj, rfl⟩
      · rcases hbound hg with ⟨_, hgold⟩ | ⟨hi, _⟩
        · exact ih hgold hg'old ha hb
        · omega
      · rcases hbound hg with ⟨_, hgold⟩ | ⟨hi, _⟩
        · -- the groups before are closed, so the edge cannot lead into the last one
          have haold := List.mem_flatten_of_mem (List.mem_of_getElem? hgold) ha
          exact absurd (rest.closed haold hab) (fresh b hb)
        · omega

end Sky.Library
