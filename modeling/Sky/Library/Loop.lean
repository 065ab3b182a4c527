import Mathlib

/-! # Loops

A loop body takes a state to the next one or leaves the loop with an answer. `Loop.run`
goes round at most so many times; the rules below say when that is often enough. -/

namespace Sky.Library

/-- One round: another state, or the answer. -/
inductive Round (σ β : Type*) where
  | next (s : σ)
  | done (b : β)

namespace Loop

variable {σ β : Type*} {body : σ → Round σ β} {s t : σ} {b : β} {n m : ℕ}

/-- At most `n` rounds from a state. -/
def run (body : σ → Round σ β) : ℕ → σ → Option β
  | 0, _ => none
  | n + 1, s =>
      match body s with
      | .next t => run body n t
      | .done b => some b

/-- Rounds that do not leave the loop. -/
inductive Reaches (body : σ → Round σ β) : σ → σ → Prop where
  | refl (s : σ) : Reaches body s s
  | head {s t u : σ} (first : body s = .next t) (rest : Reaches body t u) : Reaches body s u

theorem Reaches.trans {u : σ} (h : Reaches body s t) (k : Reaches body t u) : Reaches body s u := by
  induction h with
  | refl => exact k
  | head first _ ih => exact .head first (ih k)

theorem Reaches.single (h : body s = .next t) : Reaches body s t := .head h (.refl t)

theorem run_next (h : body s = .next t) (n : ℕ) : run body (n + 1) s = run body n t := by
  rw [run, h]

theorem run_done (h : body s = .done b) (n : ℕ) : run body (n + 1) s = some b := by
  rw [run, h]

theorem run_mono (h : run body n s = some b) (hnm : n ≤ m) : run body m s = some b := by
  induction n generalizing s m with
  | zero => cases h
  | succ n ih =>
      obtain ⟨m, rfl⟩ := Nat.exists_eq_add_of_le' (Nat.one_le_iff_ne_zero.mpr (by omega) : 1 ≤ m)
      cases hbody : body s with
      | next t =>
          rw [run_next hbody] at h ⊢
          exact ih h (Nat.le_of_succ_le_succ hnm)
      | done c =>
          rw [run_done hbody] at h ⊢
          exact h

/-- A loop that gets to where it leaves does so after some number of rounds. -/
theorem Reaches.run (h : Reaches body s t) (hdone : body t = .done b) :
    ∃ n, ∀ m, n ≤ m → run body m s = some b := by
  have hsome : ∃ n, Loop.run body n s = some b := by
    induction h with
    | refl s => exact ⟨1, run_done hdone 0⟩
    | head first _ ih =>
        obtain ⟨n, hn⟩ := ih hdone
        exact ⟨n + 1, by rw [run_next first, hn]⟩
  obtain ⟨n, hn⟩ := hsome
  exact ⟨n, fun m hm => run_mono hn hm⟩

theorem run_unique {c : β} (h : run body n s = some b) (k : run body m s = some c) : b = c :=
  Option.some.inj
    ((run_mono h (Nat.le_max_left n m)).symm.trans (run_mono k (Nat.le_max_right n m)))

end Loop

end Sky.Library
