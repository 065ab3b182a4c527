import Mathlib

/-! # Layers drawn over each other

A screen has an ink, or none, at every point. A layer is drawn over a region of it, is shown, and
then stays, is cleared or is taken back. -/

namespace Sky.Library

/-- What becomes of a layer after it has been shown. -/
inductive Disposal
  | keep
  | clear
  | restore
  deriving DecidableEq

structure Layer (P C : Type*) where
  region : Set P
  ink : P → Option C
  disposal : Disposal

namespace Layer

variable {P Q C : Type*}

open Classical in
/-- The screen with the layer over it. -/
noncomputable def draw (l : Layer P C) (s : P → Option C) : P → Option C :=
  fun p => if p ∈ l.region then (l.ink p).or (s p) else s p

open Classical in
/-- The screen after the layer has been disposed of. -/
noncomputable def after (l : Layer P C) (s : P → Option C) : P → Option C :=
  match l.disposal with
  | .keep => l.draw s
  | .clear => fun p => if p ∈ l.region then none else s p
  | .restore => s

/-- What each of the layers shows. -/
noncomputable def shows : List (Layer P C) → (P → Option C) → List (P → Option C)
  | [], _ => []
  | l :: ls, s => l.draw s :: shows ls (l.after s)

/-! ## Layers that cover the whole screen -/

/-- A layer of the whole screen in the place of `l`, which shows `shown`. -/
def whole (f : Q → P) (l : Layer P C) (shown : P → Option C) : Layer Q C :=
  ⟨Set.univ, shown ∘ f, l.disposal⟩

/-- The screen `o` has ink at picked points of `s` that have ink only. -/
def Within (f : Q → P) (o : Q → Option C) (s : P → Option C) : Prop :=
  ∀ q, s (f q) = none → o q = none

variable {f : Q → P} {l : Layer P C} {s : P → Option C} {o : Q → Option C}

theorem draw_eq_none {p : P} (h : l.draw s p = none) : s p = none := by
  rw [draw] at h
  split at h
  · exact (Option.or_eq_none_iff.mp h).2
  · exact h

theorem draw_of_univ {l : Layer Q C} (h : l.region = Set.univ) (q : Q) :
    l.draw o q = (l.ink q).or (o q) := by
  rw [draw, h, if_pos (Set.mem_univ q)]

theorem draw_whole (h : Within f o s) : (l.whole f (l.draw s)).draw o = l.draw s ∘ f := by
  funext q
  rw [draw_of_univ rfl]
  cases hq : l.draw s (f q) with
  | none =>
      have hnone : o q = none := h q (draw_eq_none hq)
      simp [whole, hq, hnone]
  | some c => simp [whole, hq]

theorem after_whole (h : Within f o s) :
    Within f ((l.whole f (l.draw s)).after o) (l.after s) := by
  intro q hq
  cases hd : l.disposal with
  | keep =>
      rw [after, hd] at hq
      rw [after, show (l.whole f (l.draw s)).disposal = .keep from hd]
      simp only [draw_whole h]
      exact hq
  | clear =>
      rw [after, show (l.whole f (l.draw s)).disposal = .clear from hd]
      exact if_pos (Set.mem_univ q)
  | restore =>
      rw [after, hd] at hq
      rw [after, show (l.whole f (l.draw s)).disposal = .restore from hd]
      exact h q hq

/-- Whole layers with the disposals of the layers in whose place they stand show the same. -/
theorem shows_whole (ls : List (Layer P C)) (h : Within f o s) :
    shows (List.zipWith (whole f) ls (shows ls s)) o = (shows ls s).map (· ∘ f) := by
  induction ls generalizing s o with
  | nil => rfl
  | cons l ls ih =>
      rw [shows, List.zipWith_cons_cons, shows, List.map_cons, draw_whole h, ih (after_whole h)]

/-! ## Layers seen at picked points -/

/-- The layer at the points that `f` picks. -/
def on (f : Q → P) (l : Layer P C) : Layer Q C := ⟨Set.preimage f l.region, l.ink ∘ f, l.disposal⟩

theorem draw_on : l.draw s ∘ f = (l.on f).draw (s ∘ f) := rfl

theorem after_on : l.after s ∘ f = (l.on f).after (s ∘ f) := by
  cases hd : l.disposal with
  | keep => rw [after, after, hd, show (l.on f).disposal = .keep from hd, draw_on]
  | clear =>
      rw [after, after, hd, show (l.on f).disposal = .clear from hd]
      rfl
  | restore => rw [after, after, hd, show (l.on f).disposal = .restore from hd]

theorem shows_on (ls : List (Layer P C)) (s : P → Option C) :
    (shows ls s).map (· ∘ f) = shows (ls.map (on f)) (s ∘ f) := by
  induction ls generalizing s with
  | nil => rfl
  | cons l ls ih => rw [shows, List.map_cons, List.map_cons, shows, draw_on, ih, after_on]

/-! ## Layers that are cleared -/

/-- Whole layers that are cleared show themselves. -/
theorem shows_cleared (ls : List (Layer Q C)) (hregion : ∀ l ∈ ls, l.region = Set.univ)
    (hclear : ∀ l ∈ ls, l.disposal = .clear) :
    shows ls (fun _ => none) = ls.map ink := by
  induction ls with
  | nil => rfl
  | cons l ls ih =>
      have hl : l.region = Set.univ := hregion l List.mem_cons_self
      have hdraw : l.draw (fun _ => none) = l.ink := by
        funext q
        rw [draw_of_univ hl, Option.or_none]
      have hafter : l.after (fun _ => none) = fun _ => none := by
        funext q
        rw [after, hclear l List.mem_cons_self]
        exact if_pos (by rw [hl]; exact Set.mem_univ q)
      rw [shows, List.map_cons, hdraw, hafter,
        ih (fun m hm => hregion m (List.mem_cons_of_mem _ hm))
          (fun m hm => hclear m (List.mem_cons_of_mem _ hm))]

end Layer

end Sky.Library
