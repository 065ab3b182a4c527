import Sky.Library.Returning

/-! # Programs that follow one another

`Follows R R' A x y` says of two programs that from states related by `R`, wherever `x` returns,
`y` returns too, with results related by `A` and states related by `R'`. -/

namespace Sky.Returning

variable {σ σ' α α' β β' τ τ' : Type}

def Follows (R R' : σ → σ' → Prop) (A : α → α' → Prop) (x : StateT σ Option α)
    (y : StateT σ' Option α') : Prop :=
  ∀ s t, R s t → ∀ a s', x s = some (a, s') → ∃ b t', y t = some (b, t') ∧ A a b ∧ R' s' t'

/-- The relation on the states where a condition holds. -/
def On (c : σ → Bool) (R : σ → σ' → Prop) (s : σ) (t : σ') : Prop := R s t ∧ c s = true

variable {R R₁ R₂ R' : σ → σ' → Prop} {A : α → α' → Prop} {B : β → β' → Prop}
  {C : τ → τ' → Prop}

theorem bind_eq_some {x : StateT σ Option α} {f : α → StateT σ Option β} {s s'' : σ} {b : β}
    (h : (x >>= f) s = some (b, s'')) : ∃ a s', x s = some (a, s') ∧ f a s' = some (b, s'') := by
  obtain ⟨⟨a, s'⟩, hx, hf⟩ := Option.bind_eq_some_iff.1 h
  exact ⟨a, s', hx, hf⟩

theorem bind_of_eq {x : StateT σ Option α} {f : α → StateT σ Option β} {s s' : σ} {a : α}
    (h : x s = some (a, s')) : (x >>= f) s = f a s' := by
  change (x s >>= fun p => f p.1 p.2) = _
  rw [h]
  rfl

theorem bind_none {x : StateT σ Option α} {f : α → StateT σ Option β} {s : σ} (h : x s = none) :
    (x >>= f) s = none := by
  change (x s >>= fun p => f p.1 p.2) = _
  rw [h]
  rfl

namespace Follows

/-! ## Sequencing -/

theorem mono {x : StateT σ Option α} {y : StateT σ' Option α'} {A' : α → α' → Prop}
    (h : Follows R R₁ A x y) (hA : ∀ a b, A a b → A' a b) (hR : ∀ s t, R₁ s t → R₂ s t) :
    Follows R R₂ A' x y := by
  intro s t hst a s' hx
  obtain ⟨b, t', hy, hab, hst'⟩ := h s t hst a s' hx
  exact ⟨b, t', hy, hA a b hab, hR s' t' hst'⟩

theorem before {x : StateT σ Option α} {y : StateT σ' Option α'} (h : Follows R R' A x y)
    (hR : ∀ s t, R₁ s t → R s t) : Follows R₁ R' A x y :=
  fun s t hst => h s t (hR s t hst)

/-- A program that never returns. -/
theorem none {y : StateT σ' Option α'} : Follows R R' A (fun _ => Option.none) y :=
  fun _ _ _ _ _ hnone => absurd hnone (by simp)

theorem pure {a : α} {b : α'} (h : A a b) :
    Follows R R A (Pure.pure a : StateT σ Option α) (Pure.pure b : StateT σ' Option α') := by
  intro s t hst a' s' hx
  obtain ⟨rfl, rfl⟩ := Prod.mk.inj (Option.some.inj hx)
  exact ⟨b, t, rfl, h, hst⟩

theorem bind {x : StateT σ Option α} {y : StateT σ' Option α'} {f : α → StateT σ Option β}
    {g : α' → StateT σ' Option β'} (hxy : Follows R R₁ A x y)
    (hfg : ∀ a b, A a b → Follows R₁ R' B (f a) (g b)) : Follows R R' B (x >>= f) (y >>= g) := by
  intro s t hst b s'' hx
  obtain ⟨a, s', hxa, hfb⟩ := bind_eq_some hx
  obtain ⟨a', t', hya, hab, hst'⟩ := hxy s t hst a s' hxa
  obtain ⟨b', t'', hgb, hb, hst''⟩ := hfg a a' hab s' t' hst' b s'' hfb
  exact ⟨b', t'', (bind_of_eq hya).trans hgb, hb, hst''⟩

theorem get_bind {f : σ → StateT σ Option β} {g : σ' → StateT σ' Option β'}
    (h : ∀ p q, R p q → Follows R R' B (f p) (g q)) :
    Follows R R' B (MonadState.get >>= f) (MonadState.get >>= g) :=
  fun s t hst => h s t hst s t hst

/-- The programs may rely on the states that they have read. -/
theorem get_bind_at {f : σ → StateT σ Option β} {g : σ' → StateT σ' Option β'}
    (h : ∀ p q, R p q → Follows (fun s t => s = p ∧ t = q) R' B (f p) (g q)) :
    Follows R R' B (MonadState.get >>= f) (MonadState.get >>= g) :=
  fun s t hst => h s t hst s t ⟨rfl, rfl⟩

theorem map {x : StateT σ Option α} {y : StateT σ' Option α'} {f : α → β} {g : α' → β'}
    (hxy : Follows R R' A x y) (hfg : ∀ a b, A a b → B (f a) (g b)) :
    Follows R R' B (f <$> x) (g <$> y) := by
  intro s t hst b s' hx
  obtain ⟨⟨a, s₁⟩, hxa, heq⟩ := Option.bind_eq_some_iff.1
    (show (x s >>= fun p => some (f p.1, p.2)) = some (b, s') from hx)
  obtain ⟨rfl, rfl⟩ := Prod.mk.inj (Option.some.inj heq)
  obtain ⟨a', t', hya, hab, hst'⟩ := hxy s t hst a s₁ hxa
  refine ⟨g a', t', ?_, hfg a a' hab, hst'⟩
  change (y t >>= fun p => some (g p.1, p.2)) = _
  rw [hya]
  rfl

theorem update {f : σ → σ} {g : σ' → σ'} (h : ∀ s t, R s t → R' (f s) (g t)) :
    Follows R R' (· = ·) (modify f : StateT σ Option PUnit)
      (modify g : StateT σ' Option PUnit) := by
  intro s t hst a s' hx
  obtain ⟨rfl, rfl⟩ := Prod.mk.inj (Option.some.inj hx)
  exact ⟨_, _, rfl, rfl, h s t hst⟩

/-! ## Branches -/

/-- Both programs take the same branch. -/
theorem branch {c : σ → Bool} {c' : σ' → Bool} {x y : StateT σ Option α} {x' y' : StateT σ' Option α'}
    (hc : ∀ s t, R s t → c s = c' t) (hx : Follows (On c R) R' A x x') (hy : Follows R R' A y y') :
    Follows R R' A (branch c x y) (branch c' x' y') := by
  intro s t hst a s' h
  unfold Returning.branch at h ⊢
  rw [← hc s t hst]
  split
  next hcs =>
      rw [if_pos hcs] at h
      exact hx s t ⟨hst, hcs⟩ a s' h
  next hcs =>
      rw [if_neg hcs] at h
      exact hy s t hst a s' h

theorem on {c : σ → Bool} {x : StateT σ Option α} {y : StateT σ' Option α'}
    (h : Follows R R' A x y) : Follows (On c R) R' A x y := h.before fun _ _ hst => hst.1

theorem ite {c : Prop} [Decidable c] {x y : StateT σ Option α} {x' y' : StateT σ' Option α'}
    (hx : c → Follows R R' A x x') (hy : ¬c → Follows R R' A y y') :
    Follows R R' A (if c then x else y) (if c then x' else y') := by
  split
  next hc => exact hx hc
  next hc => exact hy hc

theorem onlyIf {c : Bool} {x : StateT σ Option Unit} {y : StateT σ' Option Unit}
    (h : Follows R R (· = ·) x y) : Follows R R (· = ·) (onlyIf c x) (onlyIf c y) := by
  cases c with
  | false => exact Follows.pure rfl
  | true => exact h

/-! ## Loops -/

end Follows

/-- Two rounds end alike. -/
inductive Rounded (C : τ → τ' → Prop) : ForInStep τ → ForInStep τ' → Prop where
  | done {a b} (h : C a b) : Rounded C (.done a) (.done b)
  | yield {a b} (h : C a b) : Rounded C (.yield a) (.yield b)

namespace Follows

/-- A loop with a larger budget follows another. -/
theorem loop {f : τ → StateT σ Option (ForInStep τ)} {g : τ' → StateT σ' Option (ForInStep τ')}
    (hfg : ∀ a b, C a b → Follows R R (Rounded C) (f a) (g b)) {n m : ℕ} (hnm : n ≤ m) {a : τ}
    {b : τ'} (hab : C a b) : Follows R R C (loop n f a) (loop m g b) := by
  induction n generalizing m a b with
  | zero => exact Follows.none
  | succ n ih =>
      obtain ⟨m, rfl⟩ : ∃ k, m = k + 1 := ⟨m - 1, by omega⟩
      refine (hfg a b hab).bind ?_
      rintro _ _ (h | h)
      · exact Follows.pure h
      · exact ih (by omega) h

theorem whileLoop {c : σ → Bool} {c' : σ' → Bool} {f : τ → StateT σ Option τ}
    {g : τ' → StateT σ' Option τ'} (hc : ∀ s t, R s t → c s = c' t)
    (hfg : ∀ a b, C a b → Follows (On c R) R C (f a) (g b)) {n m : ℕ} (hnm : n ≤ m) {a : τ} {b : τ'}
    (hab : C a b) : Follows R R C (whileLoop n c f a) (whileLoop m c' g b) := by
  refine loop (fun a b hab => ?_) hnm hab
  exact Follows.branch hc ((hfg a b hab).map fun _ _ h => .yield h) (Follows.pure (.done hab))

end Follows

/-! ## Rounds of a loop -/

section

variable {f : τ → StateT σ Option (ForInStep τ)} {n m : ℕ} {a b : τ} {s s' : σ}

theorem loop_yield (h : f a s = some (.yield b, s')) : loop (n + 1) f a s = loop n f b s' :=
  bind_of_eq h

theorem loop_done (h : f a s = some (.done b, s')) : loop (n + 1) f a s = some (b, s') :=
  bind_of_eq h

theorem loop_mono (hnm : n ≤ m) {r : τ × σ} (h : loop n f a s = some r) :
    loop m f a s = some r := by
  induction n generalizing m a s with
  | zero => exact absurd h (by simp [loop])
  | succ n ih =>
      obtain ⟨m, rfl⟩ : ∃ k, m = k + 1 := ⟨m - 1, by omega⟩
      obtain ⟨x, t, hx, hrest⟩ := bind_eq_some h
      cases x with
      | done d => exact (loop_done hx).trans hrest
      | yield d => exact (loop_yield hx).trans (ih (by omega) hrest)

/-- What a loop returns does not depend on its budget. -/
theorem loop_unique {r r' : τ × σ} (h : loop n f a s = some r) (h' : loop m f a s = some r') :
    r = r' := by
  have hl := loop_mono (Nat.le_add_right n m) h
  have hr := loop_mono (Nat.le_add_left m n) h'
  exact Option.some.inj (hl.symm.trans hr)

variable {c : σ → Bool} {g : τ → StateT σ Option τ}

theorem whileLoop_stop (hc : c s = false) : whileLoop (n + 1) c g a s = some (a, s) := by
  refine loop_done ?_
  change (if c s then (ForInStep.yield <$> g a) s else some (.done a, s)) = _
  rw [hc]
  rfl

theorem whileLoop_step (hc : c s = true) :
    whileLoop (n + 1) c g a s = (g a s).bind fun r => whileLoop n c g r.1 r.2 := by
  have hround : branch c (ForInStep.yield <$> g a) (pure (ForInStep.done a)) s =
      (g a s).bind fun r => some (.yield r.1, r.2) := if_pos hc
  cases hg : g a s with
  | none =>
      rw [hg] at hround
      exact bind_none hround
  | some r =>
      rw [hg] at hround
      exact loop_yield hround

theorem whileLoop_cases (h : whileLoop (n + 1) c g a s = some (b, s')) :
    (c s = false ∧ b = a ∧ s' = s) ∨
      (c s = true ∧ ∃ d t, g a s = some (d, t) ∧ whileLoop n c g d t = some (b, s')) := by
  cases hc : c s with
  | false =>
      rw [whileLoop_stop hc] at h
      obtain ⟨rfl, rfl⟩ := Prod.mk.inj (Option.some.inj h)
      exact .inl ⟨rfl, rfl, rfl⟩
  | true =>
      rw [whileLoop_step hc] at h
      obtain ⟨⟨d, t⟩, hg, hrest⟩ := Option.bind_eq_some_iff.1 h
      exact .inr ⟨rfl, d, t, hg, hrest⟩

end

/-! ## States on the way -/

/-- From a state of `φ`, the program returns in a state of `ψ`, if it returns at all. -/
def Leads (φ : σ → Prop) (x : StateT σ Option α) (ψ : σ → Prop) : Prop :=
  ∀ s, φ s → ∀ a s', x s = some (a, s') → ψ s'

namespace Leads

variable {φ χ ψ : σ → Prop}

theorem pure {a : α} : Leads φ (Pure.pure a : StateT σ Option α) φ := by
  intro s hs a s' hx
  obtain ⟨-, rfl⟩ := Prod.mk.inj (Option.some.inj hx)
  exact hs

theorem bind {x : StateT σ Option α} {f : α → StateT σ Option β} (hx : Leads φ x χ)
    (hf : ∀ a, Leads χ (f a) ψ) : Leads φ (x >>= f) ψ := by
  intro s hs b s'' h
  obtain ⟨a, s', hxa, hfb⟩ := bind_eq_some h
  exact hf a s' (hx s hs a s' hxa) b s'' hfb

/-- What follows a program that never returns is not reached. -/
theorem stop {x : StateT σ Option α} {f : α → StateT σ Option β} (hx : Leads φ x fun _ => False) :
    Leads φ (x >>= f) fun _ => False :=
  hx.bind fun _ _ hs => hs.elim

theorem get_bind {f : σ → StateT σ Option β} (h : ∀ p, φ p → Leads φ (f p) ψ) :
    Leads φ (MonadState.get >>= f) ψ :=
  fun s hs => h s hs s hs

theorem update {f : σ → σ} (h : ∀ s, φ s → ψ (f s)) :
    Leads φ (modify f : StateT σ Option PUnit) ψ := by
  intro s hs a s' hx
  obtain ⟨-, rfl⟩ := Prod.mk.inj (Option.some.inj hx)
  exact h s hs

theorem branch_true {c : σ → Bool} {x y : StateT σ Option α} (hc : ∀ s, φ s → c s = true)
    (hx : Leads φ x ψ) : Leads φ (branch c x y) ψ := by
  intro s hs a s' h
  rw [branch, if_pos (hc s hs)] at h
  exact hx s hs a s' h

theorem branch_false {c : σ → Bool} {x y : StateT σ Option α} (hc : ∀ s, φ s → c s = false)
    (hy : Leads φ y ψ) : Leads φ (branch c x y) ψ := by
  intro s hs a s' h
  rw [branch, if_neg (by simp [hc s hs])] at h
  exact hy s hs a s' h

theorem loop {f : τ → StateT σ Option (ForInStep τ)} {n : ℕ} {a : τ} {ψ : σ → Prop}
    (hf : ∀ s, φ s → ∀ r s', f a s = some (r, s') → ∃ b, r = .done b ∧ ψ s') :
    Leads φ (Returning.loop n f a) ψ := by
  intro s hs b s'' h
  cases n with
  | zero => exact absurd h (by simp [Returning.loop])
  | succ n =>
      obtain ⟨r, s', hr, h⟩ := bind_eq_some h
      obtain ⟨b', rfl, hψ⟩ := hf s hs r s' hr
      obtain ⟨-, rfl⟩ := Prod.mk.inj (Option.some.inj h)
      exact hψ

theorem whileLoop {c : σ → Bool} {f : τ → StateT σ Option τ} {n : ℕ} {a : τ}
    (hc : ∀ s, φ s → c s = false) : Leads φ (whileLoop n c f a) φ := by
  refine loop fun s hs r s' hr => ?_
  rw [branch, if_neg (by simp [hc s hs])] at hr
  obtain ⟨rfl, rfl⟩ := Prod.mk.inj (Option.some.inj hr)
  exact ⟨a, rfl, hs⟩

end Leads

end Sky.Returning
