import Mathlib

/-! # Replay of a deterministic program

A program asks one question at a time, and what it asks depends on the answers so far. When every
question has one answer, any two executions agree as far as both have come. -/

namespace Sky.Library

variable {Q A : Type*}

/-- The answers of an execution, each to the question asked after the ones before it. -/
inductive Replays (answered : Q → A → Prop) (program : List A → Q) : List A → Prop where
  | nil : Replays answered program []
  | snoc {as : List A} {a : A} (h : Replays answered program as)
      (ha : answered (program as) a) : Replays answered program (as ++ [a])

namespace Replays

variable {answered answered' : Q → A → Prop} {program : List A → Q} {as bs : List A}

/-- Answers that stay give the same executions. -/
theorem mono (h : Replays answered program as) (hsub : ∀ q a, answered q a → answered' q a) :
    Replays answered' program as := by
  induction h with
  | nil => exact .nil
  | snoc _ ha ih => exact .snoc ih (hsub _ _ ha)

/-- An execution came through each of its beginnings. -/
theorem of_prefix (h : Replays answered program as) (hpre : bs <+: as) :
    Replays answered program bs := by
  induction h with
  | nil => exact List.prefix_nil.1 hpre ▸ .nil
  | snoc h ha ih =>
      rcases List.prefix_concat_iff.1 hpre with heq | hpre
      · exact heq ▸ .snoc h ha
      · exact ih hpre

/-- The answer to the question that was asked at some point. -/
theorem answered_of_front {a : A} (h : Replays answered program as) (hpre : bs ++ [a] <+: as) :
    answered (program bs) a := by
  have hbs := h.of_prefix hpre
  generalize hcs : bs ++ [a] = cs at hbs
  cases hbs with
  | nil => simp at hcs
  | snoc _ ha =>
      obtain ⟨rfl, hlast⟩ := List.append_inj' hcs rfl
      obtain rfl := List.singleton_inj.1 hlast
      exact ha

/-- With one answer to each question, two executions agree as far as both have come. -/
theorem comparable (hone : ∀ q a a', answered q a → answered q a' → a = a')
    (h : Replays answered program as) (h' : Replays answered program bs) :
    as <+: bs ∨ bs <+: as := by
  induction h with
  | nil => exact .inl (List.nil_prefix)
  | @snoc as a h ha ih =>
      rcases ih with ⟨cs, rfl⟩ | hpre
      · cases cs with
        | nil => exact .inr (by simp)
        | cons c cs =>
            have hc : answered (program as) c :=
              h'.answered_of_front ⟨cs, by simp⟩
            obtain rfl := hone _ _ _ ha hc
            exact .inl ⟨cs, by simp⟩
      · exact .inr (hpre.trans (List.prefix_append as [a]))

end Replays

end Sky.Library
