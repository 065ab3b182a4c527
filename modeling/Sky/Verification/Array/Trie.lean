import Mathlib
import Sky.Model.Array

/-! # The blocks below a node

A node of height `d` holds the first `m` elements of a sequence in blocks of 32;
the walks with `level = 5 * d` find and replace them. -/

namespace Sky.Array

variable {α : Type*} {d m i j : ℕ} {n : ArrNode α} {f g : ℕ → Option α}

/-! ## Digits -/

theorem shiftRight_level (i d : ℕ) : i >>> (arrBits * d) = i / 32 ^ d := by
  rw [Nat.shiftRight_eq_div_pow, arrBits, Nat.pow_mul]

theorem sub_val (i d : ℕ) : (sub i (arrBits * d)).val = i / 32 ^ d % 32 := by
  have h : i / 32 ^ d &&& 31 = i / 32 ^ d % 32 := Nat.and_two_pow_sub_one_eq_mod _ 5
  rw [sub, shiftRight_level, arrMask, h, Fin.val_ofNat, Nat.mod_mod]

/-- The digit of a level and the rest of the index below it. -/
theorem mod_pow_succ_eq (i d : ℕ) :
    i % 32 ^ (d + 1) = i / 32 ^ d % 32 * 32 ^ d + i % 32 ^ d := by
  rw [Nat.mod_pow_succ]
  ring

theorem level_ne_zero (d : ℕ) : arrBits * (d + 1) ≠ 0 := by
  simp only [arrBits]
  omega

theorem not_level_lt (d : ℕ) : ¬ arrBits * (d + 1) < arrBits := by
  simp only [arrBits]
  omega

theorem level_sub (d : ℕ) : arrBits * (d + 1) - arrBits = arrBits * d := by
  simp only [arrBits]
  omega

theorem le_pow_succ (d : ℕ) : 32 ≤ 32 ^ (d + 1) := by
  rw [Nat.pow_succ]
  exact Nat.le_mul_of_pos_left 32 (Nat.pow_pos (by decide))

theorem dvd_pow_succ (d : ℕ) : 32 ∣ 32 ^ (d + 1) := ⟨32 ^ d, by rw [Nat.pow_succ, Nat.mul_comm]⟩

/-! ## Shape -/

/-- A node of height `d` holds the elements `f 0`, …, `f (m - 1)`: a leaf is full,
and the children of an inner node hold consecutive stretches of `32 ^ d` elements,
of which only the last may be partly filled. -/
def Holds : ℕ → ArrNode α → (ℕ → Option α) → ℕ → Prop
  | 0, n, f, m => m = 32 ∧ ∀ j : Fin 32, ∃ x, f j = some x ∧ n j = .elem x
  | d + 1, n, f, m => ∀ j : Fin 32,
      (j * 32 ^ (d + 1) < m → ∃ c, n j = .node c ∧
        Holds d c (fun i => f (j * 32 ^ (d + 1) + i)) (min (32 ^ (d + 1)) (m - j * 32 ^ (d + 1)))) ∧
      (m ≤ j * 32 ^ (d + 1) → n j = .nil)

theorem holds_zero : Holds 0 n f m ↔ m = 32 ∧ ∀ j : Fin 32, ∃ x, f j = some x ∧ n j = .elem x := by
  rfl

theorem holds_succ : Holds (d + 1) n f m ↔ ∀ j : Fin 32,
    (j * 32 ^ (d + 1) < m → ∃ c, n j = .node c ∧
      Holds d c (fun i => f (j * 32 ^ (d + 1) + i)) (min (32 ^ (d + 1)) (m - j * 32 ^ (d + 1)))) ∧
    (m ≤ j * 32 ^ (d + 1) → n j = .nil) := by
  rfl

theorem Holds.congr (h : Holds d n f m) (hfg : ∀ i < m, f i = g i) : Holds d n g m := by
  induction d generalizing n f g m with
  | zero =>
      obtain ⟨hm, helems⟩ := holds_zero.mp h
      refine holds_zero.mpr ⟨hm, fun j => ?_⟩
      obtain ⟨x, hx, hn⟩ := helems j
      exact ⟨x, (hfg j (hm ▸ j.isLt)).symm.trans hx, hn⟩
  | succ d ih =>
      refine holds_succ.mpr fun j => ⟨fun hj => ?_, (holds_succ.mp h j).2⟩
      obtain ⟨c, hn, hc⟩ := (holds_succ.mp h j).1 hj
      refine ⟨c, hn, ih hc fun i hi => hfg _ ?_⟩
      omega

theorem holds_emptyNode (d : ℕ) (f : ℕ → Option α) : Holds (d + 1) emptyNode f 0 :=
  holds_succ.mpr fun _ => ⟨fun hj => absurd hj (Nat.not_lt_zero _), fun _ => rfl⟩

/-! ## Reading -/

/-- The walk finds the block of an index: its 32 elements. -/
theorem descend_spec (h : Holds d n f m) (hi : i % 32 ^ (d + 1) < m) :
    ∃ leaf, descend i (arrBits * d) n = some leaf ∧
      ∀ j : Fin 32, ∃ x, f (i % 32 ^ (d + 1) / 32 * 32 + j) = some x ∧ leaf j = .elem x := by
  induction d generalizing n f m with
  | zero =>
      obtain ⟨-, helems⟩ := holds_zero.mp h
      have hzero : i % 32 ^ (0 + 1) / 32 * 32 = 0 := by
        rw [Nat.zero_add, Nat.pow_one, Nat.div_eq_of_lt (Nat.mod_lt i (by decide)), Nat.zero_mul]
      refine ⟨n, by rw [descend]; rfl, fun j => ?_⟩
      rw [hzero, Nat.zero_add]
      exact helems j
  | succ d ih =>
      have hdigit := mod_pow_succ_eq i (d + 1)
      have hsub := sub_val i (d + 1)
      rw [← hsub] at hdigit
      obtain ⟨c, hn, hc⟩ := (holds_succ.mp h (sub i (arrBits * (d + 1)))).1 (by omega)
      have hlt : i % 32 ^ (d + 1) < 32 ^ (d + 1) := Nat.mod_lt _ (Nat.pow_pos (by decide))
      obtain ⟨leaf, hleaf, helems⟩ := ih hc (by omega)
      refine ⟨leaf, ?_, fun j => ?_⟩
      · rw [descend, if_neg (level_ne_zero d), if_neg (not_level_lt d), level_sub, hn]
        exact hleaf
      · obtain ⟨x, hx, hj⟩ := helems j
        refine ⟨x, ?_, hj⟩
        obtain ⟨w, hw⟩ := dvd_pow_succ d
        have hblock : i % 32 ^ (d + 1 + 1) / 32 * 32 =
            sub i (arrBits * (d + 1)) * 32 ^ (d + 1) + i % 32 ^ (d + 1) / 32 * 32 := by
          rw [hdigit, hw, Nat.mul_left_comm, Nat.mul_add_div (by decide)]
          ring
        rw [hblock, Nat.add_assoc]
        exact hx

/-! ## Adding a block -/

theorem newPath_spec (h : Holds 0 n f 32) (d : ℕ) :
    ∃ path, newPath (arrBits * d) n = some path ∧ Holds d path f 32 := by
  induction d with
  | zero => exact ⟨n, by rw [newPath]; rfl, h⟩
  | succ d ih =>
      obtain ⟨below, hbelow, hholds⟩ := ih
      refine ⟨Function.update emptyNode 0 (.node below), ?_, holds_succ.mpr fun j => ?_⟩
      · rw [newPath, if_neg (level_ne_zero d), if_neg (not_level_lt d), level_sub, hbelow]
        rfl
      · have hw := le_pow_succ d
        by_cases hj : j = 0
        · subst hj
          refine ⟨fun _ => ⟨below, Function.update_self .., ?_⟩, fun hle => ?_⟩
          · simp only [Fin.val_zero, Nat.zero_mul, Nat.zero_add, Nat.sub_zero,
              Nat.min_eq_right hw]
            exact hholds
          · simp at hle
        · have hj' : 1 ≤ j.val := Nat.one_le_iff_ne_zero.mpr fun h0 => hj (Fin.ext h0)
          have hpos : 32 ≤ j.val * 32 ^ (d + 1) := hw.trans (Nat.le_mul_of_pos_left _ hj')
          exact ⟨fun hlt => absurd hlt (by omega), fun _ => Function.update_of_ne hj _ _⟩

/-- A node whose last child takes in one more block. -/
theorem Holds.update {s : Fin 32} {below : ArrNode α} (h : Holds (d + 1) n f m)
    (hlow : s * 32 ^ (d + 1) ≤ m) (hhigh : m + 32 ≤ (s + 1) * 32 ^ (d + 1))
    (hbelow : Holds d below (fun i => f (s * 32 ^ (d + 1) + i)) (m - s * 32 ^ (d + 1) + 32)) :
    Holds (d + 1) (Function.update n s (.node below)) f (m + 32) := by
  refine holds_succ.mpr fun j => ?_
  have hmul : ∀ a b : ℕ, a ≤ b → a * 32 ^ (d + 1) ≤ b * 32 ^ (d + 1) :=
    fun a b hab => Nat.mul_le_mul_right _ hab
  have hsucc : ∀ a : ℕ, (a + 1) * 32 ^ (d + 1) = a * 32 ^ (d + 1) + 32 ^ (d + 1) :=
    fun a => Nat.succ_mul a _
  rcases Nat.lt_trichotomy j s with hj | hj | hj
  · -- an earlier child is full and stays
    have hle := hmul (j + 1) s hj
    have hj' := hsucc j
    have hpow : 0 < 32 ^ (d + 1) := Nat.pow_pos (by decide)
    rw [Function.update_of_ne (Fin.ne_of_lt hj)]
    refine ⟨fun _ => ?_, fun hle' => by omega⟩
    obtain ⟨c, hn, hc⟩ := (holds_succ.mp h j).1 (by omega)
    refine ⟨c, hn, ?_⟩
    rw [Nat.min_eq_left (by omega)] at hc ⊢
    exact hc
  · obtain rfl : j = s := Fin.ext hj
    rw [Function.update_self]
    refine ⟨fun _ => ⟨below, rfl, ?_⟩, fun hle' => by omega⟩
    have hj' := hsucc j
    rw [Nat.min_eq_right (by omega), Nat.sub_add_comm hlow]
    exact hbelow
  · have hle := hmul (s + 1) j hj
    rw [Function.update_of_ne (Fin.ne_of_gt hj)]
    refine ⟨fun hlt => by omega, fun _ => (holds_succ.mp h j).2 (by omega)⟩

/-- Where the full tail goes: the next block below the node. -/
theorem pushTail_spec {cnt : ℕ} {parent : Option (ArrNode α)} {tailNode : ArrNode α}
    (h : Holds (d + 1) (parent.getD emptyNode) f m) (hcnt : (cnt - 1) % 32 ^ (d + 2) = m + 31)
    (hm : 32 ∣ m) (htail : Holds 0 tailNode (fun i => f (m + i)) 32) :
    ∃ root, pushTail cnt (arrBits * (d + 1)) parent tailNode = some root ∧
      Holds (d + 1) root f (m + 32) := by
  induction d generalizing parent f m with
  | zero =>
      have hdigit := mod_pow_succ_eq (cnt - 1) 1
      rw [← sub_val] at hdigit
      have hlt : (cnt - 1) % 32 < 32 := Nat.mod_lt _ (by decide)
      have hs := (sub (cnt - 1) (arrBits * 1)).isLt
      obtain ⟨k, rfl⟩ := hm
      rw [pushTail]
      refine ⟨_, if_pos rfl, h.update ?_ ?_ ?_⟩
      · simp only [Nat.zero_add, Nat.pow_one, Nat.mul_one] at *
        omega
      · simp only [Nat.zero_add, Nat.pow_one, Nat.mul_one] at *
        omega
      · simp only [Nat.zero_add, Nat.pow_one, Nat.mul_one] at *
        rw [show 32 * k - sub (cnt - 1) arrBits * 32 + 32 = 32 by omega,
          show sub (cnt - 1) arrBits * 32 = 32 * k by omega]
        exact htail
  | succ d ih =>
      have hdigit := mod_pow_succ_eq (cnt - 1) (d + 1 + 1)
      rw [← sub_val, hcnt] at hdigit
      have hlt : (cnt - 1) % 32 ^ (d + 1 + 1) < 32 ^ (d + 1 + 1) :=
        Nat.mod_lt _ (Nat.pow_pos (by decide))
      generalize hs : sub (cnt - 1) (arrBits * (d + 1 + 1)) = s at hdigit
      have hsucc : (s.val + 1) * 32 ^ (d + 1 + 1) = s.val * 32 ^ (d + 1 + 1) + 32 ^ (d + 1 + 1) :=
        Nat.succ_mul _ _
      -- the rest of the index below the digit ends a block as well
      have hrest : s * 32 ^ (d + 1 + 1) ≤ m ∧
          (cnt - 1) % 32 ^ (d + 1 + 1) = m - s * 32 ^ (d + 1 + 1) + 31 ∧
            32 ∣ m - s * 32 ^ (d + 1 + 1) := by
        obtain ⟨w, hw⟩ := dvd_pow_succ (d + 1)
        obtain ⟨k, rfl⟩ := hm
        have hblocks : s * 32 ^ (d + 1 + 1) = 32 * (s * w) := by rw [hw]; ring
        refine ⟨by omega, by omega, ⟨k - s * w, by omega⟩⟩
      obtain ⟨hlow, hrest, hdvd⟩ := hrest
      have hchild :
          (parent.bind fun kids => (kids s).asNode) = (parent.getD emptyNode s).asNode := by
        cases parent <;> rfl
      rw [pushTail, if_neg (by simp only [arrBits]; omega), if_neg (not_level_lt (d + 1)), hs,
        hchild, level_sub]
      rcases Nat.lt_or_ge (s * 32 ^ (d + 1 + 1)) m with hsome | hnone
      · obtain ⟨c, hn, hc⟩ := (holds_succ.mp h s).1 hsome
        rw [Nat.min_eq_right (by omega)] at hc
        have hc : Holds (d + 1) ((some c).getD emptyNode)
            (fun i => f (s * 32 ^ (d + 1 + 1) + i)) (m - s * 32 ^ (d + 1 + 1)) := hc
        obtain ⟨below, hbelow, hholds⟩ := ih hc hrest hdvd (by
          refine htail.congr fun i _ => ?_
          rw [← Nat.add_assoc, Nat.add_sub_cancel' hlow])
        refine ⟨_, by rw [hn]; simp only [Slot.asNode]; rw [hbelow]; rfl, ?_⟩
        exact h.update hlow (by omega) hholds
      · have hm : m = s * 32 ^ (d + 1 + 1) := Nat.le_antisymm hnone hlow
        obtain ⟨below, hbelow, hholds⟩ := newPath_spec htail (d + 1)
        have hslot := (holds_succ.mp h s).2 hnone
        refine ⟨_, by rw [hslot]; simp only [Slot.asNode]; rw [hbelow]; rfl, ?_⟩
        refine h.update hlow (by omega) ?_
        rw [hm, Nat.sub_self, Nat.zero_add]
        exact hm ▸ hholds

/-- A full trie grows by a level, with the new block on a path of its own. -/
theorem grow_spec {old path : ArrNode α} (hold : Holds d old f (32 ^ (d + 1)))
    (hpath : Holds d path (fun i => f (32 ^ (d + 1) + i)) 32) :
    Holds (d + 1) (Function.update (Function.update emptyNode 0 (.node old)) 1 (.node path)) f
      (32 ^ (d + 1) + 32) := by
  have hw := le_pow_succ d
  refine holds_succ.mpr fun j => ?_
  by_cases hj1 : j = 1
  · subst hj1
    rw [Function.update_self]
    refine ⟨fun _ => ⟨path, rfl, ?_⟩, fun hle => ?_⟩
    · rw [Fin.val_one, Nat.one_mul, Nat.add_sub_cancel_left, Nat.min_eq_right hw]
      exact hpath
    · rw [Fin.val_one] at hle
      omega
  · rw [Function.update_of_ne hj1]
    by_cases hj0 : j = 0
    · subst hj0
      rw [Function.update_self]
      refine ⟨fun _ => ⟨old, rfl, ?_⟩, fun hle => ?_⟩
      · simp only [Fin.val_zero, Nat.zero_mul, Nat.zero_add, Nat.sub_zero]
        rw [Nat.min_eq_left (Nat.le_add_right _ _)]
        exact hold
      · simp at hle
    · rw [Function.update_of_ne hj0]
      have hj : 2 ≤ j.val := by
        have h0 : j.val ≠ 0 := fun h => hj0 (Fin.ext h)
        have h1 : j.val ≠ 1 := fun h => hj1 (Fin.ext h)
        omega
      have hmul := Nat.mul_le_mul_right (32 ^ (d + 1)) hj
      exact ⟨fun hlt => by omega, fun _ => rfl⟩

/-! ## Replacing an element -/

theorem doAssoc_spec (h : Holds d n f m) (hi : i % 32 ^ (d + 1) < m) (x : α) :
    ∃ root, doAssoc (arrBits * d) n i x = some root ∧
      Holds d root (Function.update f (i % 32 ^ (d + 1)) (some x)) m := by
  induction d generalizing n f m with
  | zero =>
      obtain ⟨hm, helems⟩ := holds_zero.mp h
      have hsub : (sub i 0).val = i % 32 := by
        have := sub_val i 0
        rwa [Nat.pow_zero, Nat.div_one] at this
      refine ⟨_, by rw [doAssoc]; rfl, holds_zero.mpr ⟨hm, fun j => ?_⟩⟩
      rw [Nat.zero_add, Nat.pow_one, ← hsub]
      by_cases hj : j = sub i 0
      · subst hj
        exact ⟨x, Function.update_self .., Function.update_self ..⟩
      · obtain ⟨y, hy, hn⟩ := helems j
        refine ⟨y, ?_, ?_⟩
        · rw [Function.update_of_ne fun hval => hj (Fin.ext hval)]
          exact hy
        · rw [Function.update_of_ne hj]
          exact hn
  | succ d ih =>
      have hdigit := mod_pow_succ_eq i (d + 1)
      rw [← sub_val] at hdigit
      have hlt : i % 32 ^ (d + 1) < 32 ^ (d + 1) := Nat.mod_lt _ (Nat.pow_pos (by decide))
      generalize hs : sub i (arrBits * (d + 1)) = s at hdigit
      obtain ⟨c, hn, hc⟩ := (holds_succ.mp h s).1 (by omega)
      obtain ⟨below, hbelow, hholds⟩ := ih hc (by omega)
      refine ⟨Function.update n s (.node below), ?_, holds_succ.mpr fun j => ?_⟩
      · rw [doAssoc, if_neg (level_ne_zero d), if_neg (not_level_lt d), hs, level_sub, hn]
        simp only [Slot.asNode, Option.bind_eq_bind, Option.bind_some, hbelow]
      · by_cases hj : j = s
        · subst hj
          rw [Function.update_self]
          refine ⟨fun _ => ⟨below, rfl, hholds.congr fun k _ => ?_⟩, fun hle => by omega⟩
          by_cases hk : k = i % 32 ^ (d + 1)
          · rw [hk, Function.update_self, ← hdigit, Function.update_self]
          · rw [Function.update_of_ne hk, Function.update_of_ne (by omega)]
        · rw [Function.update_of_ne hj]
          refine ⟨fun hjm => ?_, (holds_succ.mp h j).2⟩
          obtain ⟨c', hn', hc'⟩ := (holds_succ.mp h j).1 hjm
          refine ⟨c', hn', hc'.congr fun k hk => ?_⟩
          rw [Function.update_of_ne]
          -- the two stretches of indices are disjoint
          have hjs : j.val ≠ s.val := fun hval => hj (Fin.ext hval)
          rcases Nat.lt_or_gt_of_ne hjs with hlt' | hlt'
          · have := Nat.mul_le_mul_right (32 ^ (d + 1)) (Nat.succ_le_of_lt hlt')
            rw [Nat.succ_mul] at this
            omega
          · have := Nat.mul_le_mul_right (32 ^ (d + 1)) (Nat.succ_le_of_lt hlt')
            rw [Nat.succ_mul] at this
            omega

end Sky.Array
