import Mathlib

/-! # Programs that return

`StateT σ Option` programs, where `none` is a panic or a spent budget. `Returns x s Q`
says that `x` returns from `s` and that its result and final state satisfy `Q`. -/

namespace Sky.Returning

variable {σ α β τ : Type}

/-! ## Control -/

/-- Branch on the current state. -/
def branch (c : σ → Bool) (x y : StateT σ Option α) : StateT σ Option α :=
  fun s => if c s then x s else y s

/-- Repeat `body` until it is done, at most `fuel` times. -/
def loop : ℕ → (τ → StateT σ Option (ForInStep τ)) → τ → StateT σ Option τ
  | 0, _, _ => fun _ => none
  | fuel + 1, body, a => do
      match ← body a with
      | .done b => pure b
      | .yield b => loop fuel body b

/-- Repeat `body` while the state satisfies `c`, at most `fuel` times. -/
def whileLoop (fuel : ℕ) (c : σ → Bool) (body : τ → StateT σ Option τ) :
    τ → StateT σ Option τ :=
  loop fuel fun a => branch c (ForInStep.yield <$> body a) (pure (ForInStep.done a))

/-- Run `x` only under a condition. -/
def onlyIf (c : Bool) (x : StateT σ Option Unit) : StateT σ Option Unit :=
  if c then x else pure ()

/-! ## The predicate -/

def Returns (x : StateT σ Option α) (s : σ) (post : α → σ → Prop) : Prop :=
  ∃ a s', x s = some (a, s') ∧ post a s'

theorem Returns.mono {x : StateT σ Option α} {s : σ} {P Q : α → σ → Prop}
    (h : Returns x s P) (hPQ : ∀ a s', P a s' → Q a s') : Returns x s Q := by
  obtain ⟨a, s', hx, hP⟩ := h
  exact ⟨a, s', hx, hPQ a s' hP⟩

theorem Returns.pure {a : α} {s : σ} {Q : α → σ → Prop} (h : Q a s) :
    Returns (Pure.pure a : StateT σ Option α) s Q := ⟨a, s, rfl, h⟩

theorem Returns.bind {x : StateT σ Option α} {f : α → StateT σ Option β} {s : σ}
    {P : α → σ → Prop} {Q : β → σ → Prop} (hx : Returns x s P)
    (hf : ∀ a s', P a s' → Returns (f a) s' Q) : Returns (x >>= f) s Q := by
  obtain ⟨a, s', hxa, hP⟩ := hx
  obtain ⟨b, s'', hfb, hQ⟩ := hf a s' hP
  refine ⟨b, s'', ?_, hQ⟩
  change (x s >>= fun p => f p.1 p.2) = _
  rw [hxa]
  exact hfb

theorem Returns.map {x : StateT σ Option α} {f : α → β} {s : σ} {Q : β → σ → Prop}
    (hx : Returns x s fun a s' => Q (f a) s') : Returns (f <$> x) s Q := by
  obtain ⟨a, s', hxa, hQ⟩ := hx
  refine ⟨f a, s', ?_, hQ⟩
  change (x s >>= fun p => some (f p.1, p.2)) = _
  rw [hxa]
  rfl

theorem Returns.get_bind {f : σ → StateT σ Option β} {s : σ} {Q : β → σ → Prop}
    (h : Returns (f s) s Q) : Returns (MonadState.get >>= f) s Q := h

theorem Returns.update {f : σ → σ} {s : σ} {Q : PUnit → σ → Prop} (h : Q ⟨⟩ (f s)) :
    Returns (modify f : StateT σ Option PUnit) s Q := ⟨⟨⟩, f s, rfl, h⟩

theorem Returns.branch {c : σ → Bool} {x y : StateT σ Option α} {s : σ} {Q : α → σ → Prop}
    (hx : c s = true → Returns x s Q) (hy : c s = false → Returns y s Q) :
    Returns (branch c x y) s Q := by
  cases hc : c s with
  | true =>
      obtain ⟨a, s', h, hQ⟩ := hx hc
      exact ⟨a, s', by simpa [Returning.branch, hc] using h, hQ⟩
  | false =>
      obtain ⟨a, s', h, hQ⟩ := hy hc
      exact ⟨a, s', by simpa [Returning.branch, hc] using h, hQ⟩

/-! ## Loops -/

/-- A loop returns when every round that goes on keeps the invariant and lowers the
measure, and the budget exceeds the measure. -/
theorem Returns.loop {body : τ → StateT σ Option (ForInStep τ)} {μ : τ → σ → ℕ}
    {I : τ → σ → Prop} {Q : τ → σ → Prop}
    (hbody : ∀ a s, I a s → Returns (body a) s fun r s' =>
      match r with
      | .done b => Q b s'
      | .yield b => I b s' ∧ μ b s' < μ a s) :
    ∀ (fuel : ℕ) (a : τ) (s : σ), I a s → μ a s < fuel → Returns (loop fuel body a) s Q := by
  intro fuel
  induction fuel with
  | zero => intro a s _ hlt; omega
  | succ fuel ih =>
      intro a s hI hlt
      refine Returns.bind (hbody a s hI) ?_
      intro r s' hr
      cases r with
      | done b => exact Returns.pure hr
      | yield b => exact ih b s' hr.1 (by omega)

theorem Returns.whileLoop {c : σ → Bool} {body : τ → StateT σ Option τ} {μ : τ → σ → ℕ}
    {I : τ → σ → Prop} {fuel : ℕ} {a : τ} {s : σ}
    (hbody : ∀ a s, I a s → c s = true →
      Returns (body a) s fun b s' => I b s' ∧ μ b s' < μ a s)
    (hI : I a s) (hfuel : μ a s < fuel) :
    Returns (whileLoop fuel c body a) s fun b s' => I b s' ∧ c s' = false := by
  refine Returns.loop (μ := μ) (I := I) ?_ fuel a s hI hfuel
  intro b t hb
  refine Returns.branch ?_ ?_
  · intro hc
    exact Returns.map (hbody b t hb hc)
  · intro hc
    exact Returns.pure ⟨hb, hc⟩

end Sky.Returning
