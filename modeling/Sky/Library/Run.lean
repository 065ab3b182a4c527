import Mathlib

/-! # Runs of labelled transition systems

A step relation `step s e t` says that event `e` takes state `s` to state `t`. The rules below are
the only inductions over runs: a verification supplies what one step preserves and cites them by
name. A transducer runs through a queue of items, changes its state at each and says what it
read. -/

namespace Sky.Library

/-! ## Step relations -/

section

/-- A finite run: the events of the list, one after another. -/
inductive Run {σ ε : Type*} (step : σ → ε → σ → Prop) : σ → List ε → σ → Prop where
  | nil (s) : Run step s [] s
  | cons {s e t es u} : step s e t → Run step t es u → Run step s (e :: es) u

namespace Run

variable {σ ε : Type*} {step step' : σ → ε → σ → Prop} {s t u : σ} {e : ε} {es fs : List ε}

theorem append (h : Run step s es t) (k : Run step t fs u) : Run step s (es ++ fs) u := by
  induction h with
  | nil => exact k
  | cons he _ ih => exact .cons he (ih k)

theorem snoc (h : Run step s es t) (k : step t e u) : Run step s (es ++ [e]) u :=
  h.append (.cons k (.nil u))

/-- A property that every step preserves holds in every state a run reaches. -/
theorem invariant {P : σ → Prop} (hstep : ∀ a e b, P a → step a e b → P b)
    (h : Run step s es t) (hs : P s) : P t := by
  induction h with
  | nil => exact hs
  | cons he _ ih => exact ih (hstep _ _ _ hs he)

/-- The same for a run whose events are all of one kind. -/
theorem invariant_of_forall {P : σ → Prop} {Q : ε → Prop}
    (hstep : ∀ a e b, Q e → P a → step a e b → P b) (h : Run step s es t) (hes : ∀ e ∈ es, Q e)
    (hs : P s) : P t := by
  induction h with
  | nil => exact hs
  | cons he _ ih =>
      exact ih (fun e hmem => hes e (.tail _ hmem)) (hstep _ _ _ (hes _ (.head _)) hs he)

/-- A property of what has happened and of the state, kept by every step, holds of every
run and the state it reaches. -/
theorem history {P : List ε → σ → Prop} (hstep : ∀ es a e b, P es a → step a e b → P (es ++ [e]) b)
    (h : Run step s es t) (hs : P [] s) : P es t := by
  have hfrom : ∀ {fs a es b}, Run step a es b → P fs a → P (fs ++ es) b := by
    intro fs a es b hrun
    induction hrun generalizing fs with
    | nil => simp
    | cons he _ ih =>
        intro hfs
        simpa using ih (hstep _ _ _ _ hfs he)
  simpa using hfrom h hs

/-- A preorder that every step respects relates the two ends of a run. -/
theorem relates {R : σ → σ → Prop} (hrefl : ∀ a, R a a) (htrans : ∀ a b c, R a b → R b c → R a c)
    (hstep : ∀ a e b, step a e b → R a b) (h : Run step s es t) : R s t := by
  induction h with
  | nil => exact hrefl _
  | cons he _ ih => exact htrans _ _ _ (hstep _ _ _ he) ih

/-- A relation that every step of one system keeps with a step of another is a
simulation: each run has a run with the same events on the other side. -/
theorem simulates {τ : Type*} {step₂ : τ → ε → τ → Prop} {R : σ → τ → Prop}
    (hstep : ∀ a e b c, R a c → step a e b → ∃ d, step₂ c e d ∧ R b d) (h : Run step s es t)
    {c : τ} (hc : R s c) : ∃ d, Run step₂ c es d ∧ R t d := by
  induction h generalizing c with
  | nil => exact ⟨c, .nil c, hc⟩
  | cons he _ ih =>
      obtain ⟨d, hd, hrel⟩ := hstep _ _ _ _ hc he
      obtain ⟨u, hu, hrel⟩ := ih hrel
      exact ⟨u, .cons hd hu, hrel⟩

/-- A run of a restricted system is a run of the full one. -/
theorem mono (hstep : ∀ a e b, step a e b → step' a e b) (h : Run step s es t) :
    Run step' s es t := by
  induction h with
  | nil => exact .nil _
  | cons he _ ih => exact .cons (hstep _ _ _ he) ih

theorem single (h : step s e t) : Run step s [e] t := .cons h (.nil t)

/-- A run over a list, from the state that each element leaves after those before it. -/
theorem flatMap {α : Type*} (f : α → List ε) (state : List α → σ) (l : List α)
    (h : ∀ before a after, l = before ++ a :: after →
      Run step (state before) (f a) (state (before ++ [a]))) :
    Run step (state []) (l.flatMap f) (state l) := by
  have hfrom : ∀ before after, l = before ++ after →
      Run step (state before) (after.flatMap f) (state l) := by
    intro before after
    induction after generalizing before with
    | nil =>
        intro heq
        rw [List.append_nil] at heq
        exact heq ▸ .nil _
    | cons a after ih =>
        intro heq
        rw [List.flatMap_cons]
        exact (h before a after heq).append (ih (before ++ [a]) (by simp [heq]))
  exact hfrom [] l rfl

/-- The same, with one event for each element. -/
theorem map {α : Type*} (f : α → ε) (state : List α → σ) (l : List α)
    (h : ∀ before a after, l = before ++ a :: after →
      step (state before) (f a) (state (before ++ [a]))) :
    Run step (state []) (l.map f) (state l) := by
  rw [List.map_eq_flatMap]
  exact flatMap _ state l fun before a after heq => single (h before a after heq)

/-- A run of a partial step function is its left fold over the events. -/
theorem iff_foldlM {f : σ → ε → Option σ} :
    Run (fun a e b => f a e = some b) s es t ↔ es.foldlM f s = some t := by
  constructor
  · intro h
    induction h with
    | nil => rfl
    | cons he _ ih => simpa [List.foldlM_cons, he] using ih
  · induction es generalizing s with
    | nil =>
        intro h
        obtain rfl : s = t := by simpa using h
        exact .nil s
    | cons e es ih =>
        intro h
        simp only [List.foldlM_cons, Option.bind_eq_bind, Option.bind_eq_some_iff] at h
        obtain ⟨next, he, hrest⟩ := h
        exact .cons he (ih hrest)

end Run

end

/-! ## Transducers -/

variable {σ ι ω : Type*}

/-- The reader gets from one state to the other through the items, and reads the outputs. -/
inductive Transduces (f : σ → ι → Option (σ × ω)) : σ → List ι → List ω → σ → Prop where
  | nil (s : σ) : Transduces f s [] [] s
  | cons {s t u : σ} {i : ι} {o : ω} {is : List ι} {os : List ω} (h : f s i = some (t, o))
      (htail : Transduces f t is os u) : Transduces f s (i :: is) (o :: os) u

namespace Transduces

variable {f : σ → ι → Option (σ × ω)} {s t u : σ} {i : ι} {o : ω} {is : List ι} {os : List ω}

/-- One more item at the end. -/
theorem snoc (h : Transduces f s is os t) (hlast : f t i = some (u, o)) :
    Transduces f s (is ++ [i]) (os ++ [o]) u := by
  induction h with
  | nil s => exact .cons hlast (.nil u)
  | cons hhead _ ih => exact .cons hhead (ih hlast)

theorem of_cons (h : Transduces f s (i :: is) os u) :
    ∃ t o rest, os = o :: rest ∧ f s i = some (t, o) ∧ Transduces f t is rest u := by
  cases h with
  | cons hhead htail => exact ⟨_, _, _, rfl, hhead, htail⟩

theorem length_eq (h : Transduces f s is os t) : os.length = is.length := by
  induction h with
  | nil s => rfl
  | cons _ _ ih => simp [ih]

end Transduces

end Sky.Library
