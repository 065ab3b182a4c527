import Mathlib

/-! # Monotone equations, solved by sweeps

One unknown for each index, and for each a monotone right-hand side over all of them. A sweep puts
the unknowns up to date one after another, and sweeps go on until one changes nothing. -/

namespace Sky.Library.Sweep

section

variable {ι L : Type*} [DecidableEq ι] [DecidableEq L]

/-- The unknown `i` is put up to date. The flag is whether something has changed. -/
def update (f : ι → (ι → L) → L) (s : (ι → L) × Bool) (i : ι) : (ι → L) × Bool :=
  let next := f i s.1
  if s.1 i = next then s else (Function.update s.1 i next, true)

def sweep (f : ι → (ι → L) → L) (indices : List ι) (x : ι → L) : (ι → L) × Bool :=
  indices.foldl (update f) (x, false)

/-- At most `n` sweeps. -/
def settle (f : ι → (ι → L) → L) (indices : List ι) : ℕ → (ι → L) → Option (ι → L)
  | 0, _ => none
  | n + 1, x =>
      let swept := sweep f indices x
      if swept.2 then settle f indices n swept.1 else some swept.1

end

variable {ι L : Type*} [DecidableEq ι] [PartialOrder L] {f : ι → (ι → L) → L} {indices : List ι}
  {x y : ι → L}

/-- No equation takes its unknown down. -/
def Rising (f : ι → (ι → L) → L) (indices : List ι) (x : ι → L) : Prop := ∀ i ∈ indices, x i ≤ f i x

/-- No equation takes its unknown up. -/
def Closed (f : ι → (ι → L) → L) (indices : List ι) (x : ι → L) : Prop := ∀ i ∈ indices, f i x ≤ x i

/-! ## One update -/

theorem le_update {i : ι} (h : x i ≤ f i x) : x ≤ Function.update x i (f i x) := by
  intro j
  by_cases hj : j = i
  · subst hj
    rwa [Function.update_self]
  · rw [Function.update_of_ne hj]

theorem Rising.update (hf : ∀ i, Monotone (f i)) (hx : Rising f indices x) {i : ι}
    (hi : i ∈ indices) : Rising f indices (Function.update x i (f i x)) := by
  have hle := le_update (hx i hi)
  intro j hj
  by_cases hji : j = i
  · subst hji
    rw [Function.update_self]
    exact hf j hle
  · rw [Function.update_of_ne hji]
    exact (hx j hj).trans (hf j hle)

theorem update_le (hf : ∀ i, Monotone (f i)) (hy : Closed f indices y) {i : ι} (hi : i ∈ indices)
    (hxy : x ≤ y) : Function.update x i (f i x) ≤ y := by
  intro j
  by_cases hj : j = i
  · subst hj
    rw [Function.update_self]
    exact (hf j hxy).trans (hy j hi)
  · rw [Function.update_of_ne hj]
    exact hxy j

/-! ## Sweeps -/

variable [DecidableEq L]

omit [PartialOrder L] in
/-- What every update keeps, a sweep keeps. -/
theorem sweep_induction {P : (ι → L) → Prop} (hupdate : ∀ x, P x → ∀ i ∈ indices,
    P (Function.update x i (f i x))) (hx : P x) : P (sweep f indices x).1 := by
  have hfrom : ∀ l ⊆ indices, ∀ s : (ι → L) × Bool, P s.1 → P (l.foldl (update f) s).1 := by
    intro l
    induction l with
    | nil => exact fun _ _ hs => hs
    | cons i l ih =>
        intro hl s hs
        refine ih (List.subset_of_cons_subset hl) _ ?_
        unfold Sweep.update
        dsimp only
        split
        · exact hs
        · exact hupdate _ hs i (hl (.head _))
  exact hfrom indices (List.Subset.refl _) (x, false) hx

theorem sweep_frame (x : ι → L) {j : ι} (hj : j ∉ indices) : (sweep f indices x).1 j = x j := by
  apply sweep_induction (P := fun y => y j = x j)
  · intro y hy i hi
    have hne : j ≠ i := fun heq => hj (heq ▸ hi)
    rwa [Function.update_of_ne hne]
  · rfl

/-- A sweep changes nothing, or it takes the unknowns up. -/
theorem sweep_cases (hf : ∀ i, Monotone (f i)) (hx : Rising f indices x) :
    (sweep f indices x = (x, false) ∧ ∀ i ∈ indices, f i x = x i) ∨
      (sweep f indices x).2 = true ∧ x < (sweep f indices x).1 := by
  have hup : ∀ l ⊆ indices, ∀ s : (ι → L) × Bool, Rising f indices s.1 → s.2 = true → x < s.1 →
      (l.foldl (update f) s).2 = true ∧ x < (l.foldl (update f) s).1 := by
    intro l
    induction l with
    | nil => exact fun _ _ _ hflag hlt => ⟨hflag, hlt⟩
    | cons i l ih =>
        intro hl s hs hflag hlt
        have hi : i ∈ indices := hl (.head _)
        rw [List.foldl_cons]
        unfold Sweep.update
        dsimp only
        split
        · exact ih (List.subset_of_cons_subset hl) s hs hflag hlt
        · exact ih (List.subset_of_cons_subset hl) _ (hs.update hf hi) rfl
            (hlt.trans_le (le_update (hs i hi)))
  have hfrom : ∀ l ⊆ indices,
      (l.foldl (update f) (x, false) = (x, false) ∧ ∀ i ∈ l, f i x = x i) ∨
        (l.foldl (update f) (x, false)).2 = true ∧ x < (l.foldl (update f) (x, false)).1 := by
    intro l
    induction l with
    | nil => exact fun _ => .inl ⟨rfl, by simp⟩
    | cons i l ih =>
        intro hl
        have hi : i ∈ indices := hl (.head _)
        by_cases hsame : x i = f i x
        · have hskip : update f (x, false) i = (x, false) := if_pos hsame
          rw [List.foldl_cons, hskip, List.forall_mem_cons]
          exact (ih (List.subset_of_cons_subset hl)).imp_left fun ⟨heq, hall⟩ =>
            ⟨heq, hsame.symm, hall⟩
        · have hchange : update f (x, false) i = (Function.update x i (f i x), true) := if_neg hsame
          have hlt : x < Function.update x i (f i x) := by
            refine lt_of_le_of_ne (le_update (hx i hi)) fun heq => hsame ?_
            conv_lhs => rw [heq]
            exact Function.update_self ..
          rw [List.foldl_cons, hchange]
          exact .inr (hup l (List.subset_of_cons_subset hl) _ (hx.update hf hi) rfl hlt)
  exact hfrom indices (List.Subset.refl _)

/-! ## The least solution -/

/-- Sweeps that end have reached the least unknowns that the equations close. -/
theorem settle_least (hf : ∀ i, Monotone (f i)) {n : ℕ} {z : ι → L}
    (hx : Rising f indices x) (h : settle f indices n x = some z) :
    (∀ i ∈ indices, f i z = z i) ∧ x ≤ z ∧ (∀ j ∉ indices, z j = x j) ∧
      ∀ y, Closed f indices y → x ≤ y → z ≤ y := by
  induction n generalizing x with
  | zero => cases h
  | succ n ih =>
      simp only [settle] at h
      rcases sweep_cases hf hx with ⟨hsweep, hfixed⟩ | ⟨hflag, hlt⟩
      · rw [hsweep] at h
        obtain rfl := Option.some.inj h
        exact ⟨hfixed, le_rfl, fun _ _ => rfl, fun _ _ hle => hle⟩
      · rw [if_pos hflag] at h
        have hrising : Rising f indices (sweep f indices x).1 :=
          sweep_induction (fun y hy i hi => hy.update hf hi) hx
        obtain ⟨hfixed, hle, hframe, hleast⟩ := ih hrising h
        refine ⟨hfixed, hlt.le.trans hle, ?_, ?_⟩
        · intro j hj
          rw [hframe j hj, sweep_frame x hj]
        · intro y hy hxy
          exact hleast y hy (sweep_induction (P := (· ≤ y))
            (fun x hx i hi => update_le hf hy hi hx) hxy)

/-- With a bound on how often the unknowns can go up, the sweeps end. -/
theorem settle_isSome (hf : ∀ i, Monotone (f i)) (height : (ι → L) → ℕ) {bound n : ℕ}
    (hstrict : ∀ u v : ι → L, u < v → (∀ j ∉ indices, v j = u j) → height u < height v)
    (hbound : ∀ u, x ≤ u → height u ≤ bound) (hx : Rising f indices x) (hn : bound < n + height x) :
    (settle f indices n x).isSome := by
  induction n generalizing x with
  | zero =>
      have hle := hbound x le_rfl
      omega
  | succ n ih =>
      simp only [settle]
      rcases sweep_cases hf hx with ⟨hsweep, hfixed⟩ | ⟨hflag, hlt⟩
      · rw [hsweep]
        rfl
      · rw [if_pos hflag]
        have hrising : Rising f indices (sweep f indices x).1 :=
          sweep_induction (fun y hy i hi => hy.update hf hi) hx
        have hup := hstrict x _ hlt fun j hj => sweep_frame x hj
        exact ih (fun u hu => hbound u (hlt.le.trans hu)) hrising (by omega)

end Sky.Library.Sweep
