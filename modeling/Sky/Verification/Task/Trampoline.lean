import Mathlib
import Sky.Model.Task

/-! # The trampoline is the recursion

`Evaluates` is the meaning of a task by recursion on its tree. The interpreter with its
stack of frames returns what this recursion returns. -/

namespace Sky.Task

open Sky.Library

variable {F D σ : Type*} {rt : Runtime F D σ}

/-! ## The recursive meaning -/

/-- What is evaluated: one value, or what is left of a sequence, after the values in
`acc`. -/
inductive Goal (F D : Type*) where
  | value (v : Value F D)
  | rest (xs acc : List (Value F D))

/-- A task node, written with the fields that its kind uses. -/
def node (kind : TaskKind) (val src fn : Value F D) : Value F D := .task (some ⟨kind, val, src, fn⟩)

/-- The result and the world after a finite evaluation. -/
inductive Evaluates (rt : Runtime F D σ) : Goal F D → σ → Res F D → σ → Prop where
  | bare {v w r w'} (untask : ∀ n, v ≠ .task n) (leaf : forceLeaf rt w v = .ok (r, w')) :
      Evaluates rt (.value v) w r w'
  | pure {val src fn w} : Evaluates rt (.value (node .taskPure val src fn)) w (ok val) w
  | fail {val src fn w} : Evaluates rt (.value (node .taskFail val src fn)) w (err val) w
  | leaf {val src fn w r w'} (inner : Evaluates rt (.value val) w r w') :
      Evaluates rt (.value (node .taskLeaf val src fn)) w r w'
  | lazy {val src fn w v w'} (thunk : forceLazy rt w val = .ok (v, w')) :
      Evaluates rt (.value (node .taskLazy val src fn)) w (ok v) w'
  | fromResult {val src fn w} :
      Evaluates rt (.value (node .taskFromResult val src fn)) w (resultOf val) w
  | bind {val src fn w r w' r' w''} (first : Evaluates rt (.value src) w r w') (isOk : r.tag = 0)
      (next : Evaluates rt (.value (rt.skyCall fn r.okValue)) w' r' w'') :
      Evaluates rt (.value (node .taskBind val src fn)) w r' w''
  | bindErr {val src fn w r w'} (first : Evaluates rt (.value src) w r w') (isErr : r.tag ≠ 0) :
      Evaluates rt (.value (node .taskBind val src fn)) w r w'
  | map {val src fn w r w'} (first : Evaluates rt (.value src) w r w') (isOk : r.tag = 0) :
      Evaluates rt (.value (node .taskMap val src fn)) w (ok (rt.skyCall fn r.okValue)) w'
  | mapErrs {val src fn w r w'} (first : Evaluates rt (.value src) w r w') (isErr : r.tag ≠ 0) :
      Evaluates rt (.value (node .taskMap val src fn)) w r w'
  | mapErr {val src fn w r w'} (first : Evaluates rt (.value src) w r w') (isErr : r.tag ≠ 0) :
      Evaluates rt (.value (node .taskMapErr val src fn)) w (err (rt.skyCall fn r.errValue)) w'
  | mapErrOk {val src fn w r w'} (first : Evaluates rt (.value src) w r w') (isOk : r.tag = 0) :
      Evaluates rt (.value (node .taskMapErr val src fn)) w r w'
  | onError {val src fn w r w' r' w''} (first : Evaluates rt (.value src) w r w')
      (isErr : r.tag ≠ 0) (next : Evaluates rt (.value (rt.skyCall fn r.errValue)) w' r' w'') :
      Evaluates rt (.value (node .taskCatch val src fn)) w r' w''
  | onErrorOk {val src fn w r w'} (first : Evaluates rt (.value src) w r w') (isOk : r.tag = 0) :
      Evaluates rt (.value (node .taskCatch val src fn)) w r w'
  | bindResult {val src fn w r w'} (first : Evaluates rt (.value src) w r w') (isOk : r.tag = 0) :
      Evaluates rt (.value (node .taskBindResult val src fn)) w
        (resultOf (rt.skyCall fn r.okValue)) w'
  | bindResultErr {val src fn w r w'} (first : Evaluates rt (.value src) w r w')
      (isErr : r.tag ≠ 0) : Evaluates rt (.value (node .taskBindResult val src fn)) w r w'
  | seq {val src fn w r w'} (all : Evaluates rt (.rest (asList val) []) w r w') :
      Evaluates rt (.value (node .taskSeq val src fn)) w r w'
  | seqDone {acc w} : Evaluates rt (.rest [] acc) w (ok (.list acc)) w
  | seqNext {x xs acc w r w' r' w''} (first : Evaluates rt (.value x) w r w') (isOk : r.tag = 0)
      (next : Evaluates rt (.rest xs (acc ++ [r.okValue])) w' r' w'') :
      Evaluates rt (.rest (x :: xs) acc) w r' w''
  | seqStop {x xs acc w r w'} (first : Evaluates rt (.value x) w r w') (isErr : r.tag ≠ 0) :
      Evaluates rt (.rest (x :: xs) acc) w r w'

/-! ## Simulation -/

/-- Where the interpreter is when it starts on a goal, the rest of the sequence `all`
or a value. -/
def Goal.start (all : List (Value F D)) (stack : List (TaskFrame F D)) (w : σ) :
    Goal F D → Machine F D σ
  | .value v => ⟨.descend v, stack, w⟩
  | .rest [] acc => ⟨.unwind (ok (.list acc)), stack, w⟩
  | .rest (x :: _) acc => ⟨.descend x, .seq all acc :: stack, w⟩

/-- The sequence `all` is what a goal has done and what is left of it. -/
def Goal.Covers (all : List (Value F D)) : Goal F D → Prop
  | .value _ => True
  | .rest xs acc => ∃ front, all = front ++ xs ∧ front.length = acc.length

theorem Evaluates.reaches {goal : Goal F D} {w w' : σ} {r : Res F D}
    (h : Evaluates rt goal w r w') (stack : List (TaskFrame F D)) {all : List (Value F D)}
    (hall : goal.Covers all) :
    Loop.Reaches (step rt) (goal.start all stack w) ⟨.unwind r, stack, w'⟩ := by
  induction h generalizing stack all with
  | @bare v w r w' untask leaf =>
      refine .single ?_
      cases v with
      | task n => exact (untask n rfl).elim
      | _ => simp only [Goal.start, step, descend, leaf, onLeaf]
  | pure => exact .single rfl
  | fail => exact .single rfl
  | @leaf val src fn w r w' inner ih =>
      cases val with
      | task n => exact .head rfl (@ih stack [] trivial)
      | _ =>
          have hreach := @ih stack [] trivial
          cases hreach with
          | head first rest => exact .head first rest
  | lazy thunk =>
      refine .single ?_
      simp only [Goal.start, node, step, descend, descendNode, thunk]
      rfl
  | fromResult => exact .single rfl
  | @bind val src fn w r w' r' w'' first isOk next ih ihnext =>
      refine .head rfl ((@ih _ [] trivial).trans (.head ?_ (@ihnext stack [] trivial)))
      simp only [Goal.start, step, unwind, resume, isOk, if_true]
  | bindErr first isErr ih =>
      refine .head rfl ((@ih _ [] trivial).trans (.single ?_))
      simp only [Goal.start, step, unwind, resume, isErr, if_false]
  | map first isOk ih =>
      refine .head rfl ((@ih _ [] trivial).trans (.single ?_))
      simp only [Goal.start, step, unwind, resume, isOk, if_true]
  | mapErrs first isErr ih =>
      refine .head rfl ((@ih _ [] trivial).trans (.single ?_))
      simp only [Goal.start, step, unwind, resume, isErr, if_false]
  | mapErr first isErr ih =>
      refine .head rfl ((@ih _ [] trivial).trans (.single ?_))
      simp only [Goal.start, step, unwind, resume, if_pos isErr]
  | mapErrOk first isOk ih =>
      refine .head rfl ((@ih _ [] trivial).trans (.single ?_))
      simp only [Goal.start, step, unwind, resume, isOk, ne_eq, not_true_eq_false, if_false]
  | onError first isErr next ih ihnext =>
      refine .head rfl ((@ih _ [] trivial).trans (.head ?_ (@ihnext stack [] trivial)))
      simp only [Goal.start, step, unwind, resume, if_pos isErr]
  | onErrorOk first isOk ih =>
      refine .head rfl ((@ih _ [] trivial).trans (.single ?_))
      simp only [Goal.start, step, unwind, resume, isOk, ne_eq, not_true_eq_false, if_false]
  | bindResult first isOk ih =>
      refine .head rfl ((@ih _ [] trivial).trans (.single ?_))
      simp only [Goal.start, step, unwind, resume, isOk, if_true]
  | bindResultErr first isErr ih =>
      refine .head rfl ((@ih _ [] trivial).trans (.single ?_))
      simp only [Goal.start, step, unwind, resume, isErr, if_false]
  | @seq val src fn w r w' _ ih =>
      have hall := @ih stack (asList val) ⟨[], rfl, rfl⟩
      refine .head ?_ hall
      simp only [Goal.start, node, step, descend, descendNode]
      cases asList val <;> rfl
  | seqDone => exact .refl _
  | @seqNext x xs acc w r w' r' w'' first isOk next ih ihnext =>
      obtain ⟨front, rfl, hlength⟩ := hall
      have hcovers : (Goal.rest xs (acc ++ [r.okValue])).Covers (front ++ x :: xs) :=
        ⟨front ++ [x], by simp, by simp [hlength]⟩
      refine (@ih _ [] trivial).trans (.head ?_ (ihnext stack hcovers))
      have hget : (front ++ x :: xs)[acc.length + 1]? = xs[0]? := by
        rw [← hlength, List.getElem?_append_right (Nat.le_succ _), Nat.succ_sub (Nat.le_refl _),
          Nat.sub_self, List.getElem?_cons_succ]
      simp only [step, unwind, isOk, if_true, hget]
      cases xs <;> rfl
  | seqStop first isErr ih =>
      refine (@ih _ [] trivial).trans (.single ?_)
      simp only [step, unwind, isErr, if_false]

theorem Evaluates.forceTask {t : Value F D} {w w' : σ} {r : Res F D}
    (h : Evaluates rt (.value t) w r w') :
    ∃ fuel, ∀ more, fuel ≤ more → forceTask rt more t w = some (.ok (r, w')) :=
  (h.reaches [] trivial : Loop.Reaches _ (Goal.start [] [] w (.value t)) _).run rfl

theorem Evaluates.unique {t : Value F D} {w w₁ w₂ : σ} {r₁ r₂ : Res F D}
    (h₁ : Evaluates rt (.value t) w r₁ w₁) (h₂ : Evaluates rt (.value t) w r₂ w₂) :
    r₁ = r₂ ∧ w₁ = w₂ := by
  obtain ⟨fuel₁, hfuel₁⟩ := h₁.forceTask
  obtain ⟨fuel₂, hfuel₂⟩ := h₂.forceTask
  have heq := Loop.run_unique (hfuel₁ fuel₁ (Nat.le_refl _)) (hfuel₂ fuel₂ (Nat.le_refl _))
  exact Prod.mk.inj (Except.ok.inj heq)

/-- Forcing a task `n` times gives the results of the recursive evaluation, with the
same effects in the same order, and the same each time in the same world. -/
theorem forceTask_eq_recursion {t : Value F D} {n : ℕ} {ws : ℕ → σ} {rs : ℕ → Res F D}
    (h : ∀ i, i < n → Evaluates rt (.value t) (ws i) (rs i) (ws (i + 1))) :
    (∃ fuel, ∀ more, fuel ≤ more →
        forceTimes rt more t n (ws 0) = some (.ok ((List.range n).map rs, ws n))) ∧
      ∀ i j, i < n → j < n → ws i = ws j → rs i = rs j ∧ ws (i + 1) = ws (j + 1) := by
  constructor
  · induction n generalizing ws rs with
    | zero => exact ⟨0, fun _ _ => rfl⟩
    | succ n ih =>
        obtain ⟨fuel, hfuel⟩ := (h 0 (Nat.succ_pos n)).forceTask
        obtain ⟨fuel', hfuel'⟩ := @ih (fun i => ws (i + 1)) (fun i => rs (i + 1))
          fun i hi => h (i + 1) (Nat.succ_lt_succ hi)
        refine ⟨max fuel fuel', fun more hmore => ?_⟩
        rw [forceTimes, hfuel more ((Nat.le_max_left _ _).trans hmore), Option.bind_some]
        simp only [hfuel' more ((Nat.le_max_right _ _).trans hmore), Option.map_some]
        rw [List.range_succ_eq_map, List.map_cons, List.map_map]
        rfl
  · intro i j hi hj hw
    have hj := h j hj
    rw [← hw] at hj
    exact (h i hi).unique hj

/-- Thunks that log their name and give it; the only function forces its thunk `c`. -/
def logged : Runtime String String (List String) where
  skyCall _ _ := .thunk "c"
  callThunk f w := (.result (if f = "b" then err (.data f) else ok (.data f)), w ++ [f])

/-- A sequence that stops at its second task, whose error is caught. -/
def caughtSequence : Value String String :=
  node .taskCatch .nil (node .taskSeq (.list [.thunk "a", .thunk "b", .thunk "d"]) .nil .nil)
    (.func "k")

def logAfter : ℕ → List String
  | 0 => []
  | n + 1 => logAfter n ++ ["a"] ++ ["b"] ++ ["c"]

theorem evaluates_caughtSequence (w : List String) :
    Evaluates logged (.value caughtSequence) w (ok (.data "c")) (w ++ ["a"] ++ ["b"] ++ ["c"]) :=
  .onError (.seq (.seqNext (.bare nofun rfl) rfl (.seqStop (.bare nofun rfl) Nat.one_ne_zero)))
    Nat.one_ne_zero (.bare nofun rfl)

theorem forceTask_eq_recursion_caughtSequence : ∃ fuel, ∀ more, fuel ≤ more →
    forceTimes logged more caughtSequence 2 [] =
      some (.ok ([ok (.data "c"), ok (.data "c")], ["a", "b", "c", "a", "b", "c"])) :=
  (@forceTask_eq_recursion _ _ _ logged caughtSequence 2 logAfter (fun _ => ok (.data "c"))
    fun i _ => evaluates_caughtSequence (logAfter i)).1

end Sky.Task
