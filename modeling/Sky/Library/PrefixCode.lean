import Mathlib

/-! # Prefix codes

Words that can be split off the front of a longer text, and their concatenations; full binary
trees kept as the index of every node's parent, and the canonical codes of their depths. -/

namespace Sky.Library

open Finset

/-! ## Words -/

section

variable {α β : Type*}

/-- The words of the two lists are told apart by any text they start. -/
def SplitsOff (ws ws' : List (List β)) : Prop :=
  ∀ w ∈ ws, ∀ w' ∈ ws', ∀ r r', w ++ r = w' ++ r' → w = w'

theorem SplitsOff.perm {ws ws' vs vs' : List (List β)} (h : SplitsOff ws ws') (hw : vs.Perm ws)
    (hw' : vs'.Perm ws') : SplitsOff vs vs' :=
  fun w hmem w' hmem' => h w (hw.mem_iff.mp hmem) w' (hw'.mem_iff.mp hmem')

/-- A concatenation of as many words is split word by word. -/
theorem SplitsOff.flatten {ws ws' : List (List β)} {r r' : List β} (h : SplitsOff ws ws')
    (hlen : ws.length = ws'.length) (heq : ws.flatten ++ r = ws'.flatten ++ r') :
    ws = ws' ∧ r = r' := by
  induction ws generalizing ws' with
  | nil =>
      cases ws' with
      | nil => exact ⟨rfl, heq⟩
      | cons w' ws' => simp at hlen
  | cons w ws ih =>
      cases ws' with
      | nil => simp at hlen
      | cons w' ws' =>
          simp only [List.flatten_cons, List.append_assoc] at heq
          have hw : w = w' := h w (by simp) w' (by simp) _ _ heq
          subst hw
          rw [List.append_cancel_left_eq] at heq
          have hrest : SplitsOff ws ws' := fun v hv v' hv' =>
            h v (List.mem_cons_of_mem _ hv) v' (List.mem_cons_of_mem _ hv')
          obtain ⟨rfl, rfl⟩ := ih hrest (by simpa using hlen) heq
          exact ⟨rfl, rfl⟩

/-- A word ends at the first occurrence of a symbol it does not contain. -/
theorem append_cons_inj {t : β} {x y r r' : List β} (hx : t ∉ x) (hy : t ∉ y)
    (h : x ++ t :: r = y ++ t :: r') : x = y ∧ r = r' := by
  induction x generalizing y with
  | nil =>
      cases y with
      | nil => simpa using h
      | cons b y =>
          rw [List.nil_append, List.cons_append, List.cons.injEq] at h
          exact absurd (by simp [h.1]) hy
  | cons a x ih =>
      cases y with
      | nil =>
          rw [List.nil_append, List.cons_append, List.cons.injEq] at h
          exact absurd (by simp [h.1]) hx
      | cons b y =>
          simp only [List.cons_append, List.cons.injEq] at h
          obtain ⟨rfl, h⟩ := h
          obtain ⟨rfl, rfl⟩ := ih (List.not_mem_of_not_mem_cons hx)
            (List.not_mem_of_not_mem_cons hy) h
          exact ⟨rfl, rfl⟩

/-! ## Sorted words -/

section Sorted

variable [LinearOrder β]

theorem insertionSort_eq_iff_perm {l l' : List β} :
    l.insertionSort (· ≤ ·) = l'.insertionSort (· ≤ ·) ↔ l.Perm l' := by
  have hl := List.perm_insertionSort (· ≤ ·) l
  have hl' := List.perm_insertionSort (· ≤ ·) l'
  constructor
  · intro h
    exact hl.symm.trans ((List.Perm.of_eq h).trans hl')
  · intro h
    exact List.Perm.eq_of_pairwise (fun a b _ _ => le_antisymm)
      (List.pairwise_insertionSort (· ≤ ·) l) (List.pairwise_insertionSort (· ≤ ·) l')
      (hl.trans (h.trans hl'.symm))

end Sorted

/-- Lists whose images are rearrangements of each other are themselves matched up to order. -/
theorem exists_perm_of_map_perm {γ : Type*} {f : α → γ} {g : β → γ} {l : List α} {l' : List β}
    (h : (l.map f).Perm (l'.map g)) : ∃ l₁, l.Perm l₁ ∧ List.Forall₂ (fun a b => f a = g b) l₁ l' := by
  have hleft : List.Forall₂ (fun c b => c = g b) (l'.map g) l' := by
    rw [List.forall₂_map_left_iff]
    exact List.forall₂_same.mpr fun b _ => rfl
  have hright : List.Forall₂ (fun a c => f a = c) l (l.map f) := by
    rw [List.forall₂_map_right_iff]
    exact List.forall₂_same.mpr fun a _ => rfl
  have hcomp : Relation.Comp (List.Forall₂ fun a c => f a = c) List.Perm l (l'.map g) :=
    ⟨l.map f, hright, h⟩
  rw [List.forall₂_comp_perm_eq_perm_comp_forall₂] at hcomp
  obtain ⟨l₁, hperm, hall⟩ := hcomp
  refine ⟨l₁, hperm, ?_⟩
  rw [List.forall₂_map_right_iff] at hall
  exact hall

end

/-! ## Trees kept as parent indices -/

/-- `m` leaves `0 … m - 1`, then the inner nodes up to the root `2 * m - 2`; a sum over the
parents counts every inner node twice. -/
structure ParentTree (m : ℕ) (parent : ℕ → ℕ) : Prop where
  leaves : 2 ≤ m
  up : ∀ k < 2 * m - 2, m ≤ parent k ∧ k < parent k ∧ parent k < 2 * m - 1
  two : ∀ f : ℕ → ℚ, ∑ k ∈ range (2 * m - 2), f (parent k) = 2 * ∑ n ∈ Ico m (2 * m - 1), f n

/-- How far below the root every node is. -/
structure Depths (m : ℕ) (parent d : ℕ → ℕ) : Prop where
  root : d (2 * m - 2) = 0
  below : ∀ k < 2 * m - 2, d k = d (parent k) + 1

variable {m : ℕ} {parent d : ℕ → ℕ}

theorem Depths.pos (h : Depths m parent d) (hm : 2 ≤ m) {k : ℕ} (hk : k < m) : 0 < d k := by
  rw [h.below k (by omega)]
  exact Nat.succ_pos _

/-- The code of the leaves is complete. -/
theorem ParentTree.kraft (ht : ParentTree m parent) (hd : Depths m parent d) :
    ∑ k ∈ range m, (1 / 2 : ℚ) ^ d k = 1 := by
  have hm := ht.leaves
  have hparents := ht.two fun n => (1 / 2) ^ d n
  have hchildren : ∑ k ∈ range (2 * m - 2), (1 / 2 : ℚ) ^ d (parent k) =
      2 * ∑ k ∈ range (2 * m - 2), (1 / 2 : ℚ) ^ d k := by
    rw [mul_sum]
    apply sum_congr rfl
    intro k hk
    rw [hd.below k (mem_range.mp hk), pow_succ]
    ring
  have hall : ∑ k ∈ range (2 * m - 2), (1 / 2 : ℚ) ^ d k =
      ∑ n ∈ Ico m (2 * m - 1), (1 / 2 : ℚ) ^ d n := by
    linarith
  have hroot : ∑ n ∈ Ico m (2 * m - 1), (1 / 2 : ℚ) ^ d n =
      (∑ n ∈ Ico m (2 * m - 2), (1 / 2 : ℚ) ^ d n) + 1 := by
    rw [show 2 * m - 1 = (2 * m - 2) + 1 by omega, sum_Ico_succ_top (by omega), hd.root, pow_zero]
  have hsplit := sum_range_add_sum_Ico (fun k => (1 / 2 : ℚ) ^ d k) (show m ≤ 2 * m - 2 by omega)
  linarith

/-- A weight that doubles over every two levels bounds the depth. -/
theorem Depths.le_of_weight (hd : Depths m parent d) (ht : ParentTree m parent) {W : ℕ → ℕ}
    (hpos : ∀ k < 2 * m - 1, 1 ≤ W k) (hup : ∀ k < 2 * m - 2, W k ≤ W (parent k))
    (hdouble : ∀ k < 2 * m - 2, parent k < 2 * m - 2 → 2 * W k ≤ W (parent (parent k)))
    {k e : ℕ} (hk : k < 2 * m - 1) (hroot : W (2 * m - 2) < 2 ^ e) : d k < 2 * e := by
  have hm := ht.leaves
  have hpow : ∀ n k, k < 2 * m - 1 → d k = n → 2 ^ (n / 2) * W k ≤ W (2 * m - 2) := by
    intro n
    induction n using Nat.strong_induction_on with
    | _ n ih =>
        intro k hk hn
        by_cases hroot : k = 2 * m - 2
        · subst hroot
          rw [hd.root] at hn
          subst hn
          simp
        · have hk' : k < 2 * m - 2 := by omega
          have hdk := hd.below k hk'
          obtain ⟨-, hlt, hpk⟩ := ht.up k hk'
          by_cases hproot : parent k = 2 * m - 2
          · have hone : n = 1 := by
              rw [← hn, hdk, hproot, hd.root]
            subst hone
            have hle := hup k hk'
            rw [hproot] at hle
            simpa using hle
          · have hpk' : parent k < 2 * m - 2 := by omega
            have hdp := hd.below (parent k) hpk'
            obtain ⟨-, hlt', hppk⟩ := ht.up (parent k) hpk'
            have hrec := ih (d (parent (parent k))) (by omega) (parent (parent k)) hppk rfl
            have hn2 : n / 2 = d (parent (parent k)) / 2 + 1 := by omega
            rw [hn2, pow_succ, mul_assoc]
            calc 2 ^ (d (parent (parent k)) / 2) * (2 * W k)
                ≤ 2 ^ (d (parent (parent k)) / 2) * W (parent (parent k)) :=
                  Nat.mul_le_mul_left _ (hdouble k hk' hpk')
              _ ≤ W (2 * m - 2) := hrec
  have hbound : 2 ^ (d k / 2) < 2 ^ e := by
    calc 2 ^ (d k / 2) ≤ 2 ^ (d k / 2) * W k := Nat.le_mul_of_pos_right _ (hpos k hk)
      _ ≤ W (2 * m - 2) := hpow (d k) k hk rfl
      _ < 2 ^ e := hroot
  have hlt : d k / 2 < e := (Nat.pow_lt_pow_iff_right (by norm_num)).mp hbound
  omega

/-- Nodes paired in order are numbered, from the root down, as in a heap. -/
theorem Depths.le_of_paired (hd : Depths m parent d) (hm : 2 ≤ m)
    (hpaired : ∀ k < 2 * m - 2, parent k = m + k / 2) {k e : ℕ} (hk : k < 2 * m - 1)
    (hfit : 2 * m - 1 - k < 2 ^ (e + 1)) : d k ≤ e := by
  induction e generalizing k with
  | zero =>
      have hroot : k = 2 * m - 2 := by omega
      rw [hroot, hd.root]
  | succ e ih =>
      by_cases hroot : k = 2 * m - 2
      · rw [hroot, hd.root]
        exact Nat.zero_le _
      · have hk' : k < 2 * m - 2 := by omega
        rw [hd.below k hk', hpaired k hk']
        have hrec : d (m + k / 2) ≤ e := by
          apply ih
          · omega
          · rw [pow_succ] at hfit
            omega
        omega

/-! ## Canonical codes -/

section Canonical

variable (count : ℕ → ℕ)

/-- The first code of a length, when so many codes have each length. -/
def firstCode : ℕ → ℕ
  | 0 => 0
  | l + 1 => (firstCode l + count l) * 2

theorem firstCode_div (l : ℕ) :
    (firstCode count l : ℚ) / 2 ^ l = ∑ j ∈ range l, (count j : ℚ) / 2 ^ j := by
  induction l with
  | zero => simp [firstCode]
  | succ l ih =>
      rw [sum_range_succ, ← ih, firstCode]
      push_cast
      rw [pow_succ]
      field_simp

variable {count}

/-- Codes that the lengths leave room for fit their length. -/
theorem firstCode_add_le {L : ℕ} (hroom : ∑ j ∈ range (L + 1), (count j : ℚ) / 2 ^ j ≤ 1) {l : ℕ}
    (hl : l ≤ L) : firstCode count l + count l ≤ 2 ^ l := by
  have hpart : ∑ j ∈ range (l + 1), (count j : ℚ) / 2 ^ j ≤ 1 := by
    refine le_trans (sum_le_sum_of_subset_of_nonneg ?_ ?_) hroom
    · exact range_subset_range.mpr (by omega)
    · intro j _ _
      positivity
  rw [sum_range_succ, ← firstCode_div, ← add_div, div_le_one (by positivity)] at hpart
  exact_mod_cast hpart

/-- Between two lengths, the codes of the shorter one are passed over. -/
theorem firstCode_gap {d e : ℕ} (h : d < e) :
    (firstCode count d + count d) * 2 ^ (e - d) ≤ firstCode count e := by
  induction e, h using Nat.le_induction with
  | base => simp [firstCode]
  | succ e hde ih =>
      have hde' : d < e := hde
      rw [show e + 1 - d = (e - d) + 1 by omega, pow_succ, ← mul_assoc, firstCode]
      exact Nat.mul_le_mul_right 2 (le_trans ih (Nat.le_add_right _ _))

end Canonical

/-- A number's lowest bits, the highest of them first. -/
def bitsOf (v d : ℕ) : List Bool := (List.range d).map fun i => v.testBit (d - 1 - i)

@[simp] theorem bitsOf_length (v d : ℕ) : (bitsOf v d).length = d := by simp [bitsOf]

theorem bitsOf_getElem {v d i : ℕ} (h : i < (bitsOf v d).length) :
    (bitsOf v d)[i] = v.testBit (d - 1 - i) := by simp [bitsOf]

/-- A number's bits start another's when it is the other without its lowest ones. -/
theorem eq_div_of_bitsOf_prefix {v w d e : ℕ} (hv : v < 2 ^ d) (hw : w < 2 ^ e)
    (h : bitsOf v d <+: bitsOf w e) : d ≤ e ∧ v = w / 2 ^ (e - d) := by
  have hde : d ≤ e := by simpa using h.length_le
  refine ⟨hde, ?_⟩
  apply Nat.eq_of_testBit_eq
  intro i
  rw [Nat.testBit_div_two_pow]
  by_cases hi : i < d
  · have hlen : d - 1 - i < (bitsOf v d).length := by
      rw [bitsOf_length]
      omega
    have hlen' : d - 1 - i < (bitsOf w e).length := by
      rw [bitsOf_length]
      omega
    have hbit := h.getElem hlen
    rw [bitsOf_getElem hlen, bitsOf_getElem hlen'] at hbit
    rw [show d - 1 - (d - 1 - i) = i by omega] at hbit
    rw [hbit]
    congr 1
    omega
  · have hleft : v.testBit i = false :=
      Nat.testBit_lt_two_pow (lt_of_lt_of_le hv (Nat.pow_le_pow_right (by norm_num) (by omega)))
    have hright : w.testBit (i + (e - d)) = false :=
      Nat.testBit_lt_two_pow (lt_of_lt_of_le hw (Nat.pow_le_pow_right (by norm_num) (by omega)))
    rw [hleft, hright]

/-- Canonical codes, numbered from the first code of their length, start no other one. -/
theorem canonical_prefixFree {count : ℕ → ℕ} {L d e a b : ℕ}
    (hroom : ∑ j ∈ range (L + 1), (count j : ℚ) / 2 ^ j ≤ 1) (hd : d ≤ L) (he : e ≤ L)
    (ha : a < count d) (hb : b < count e)
    (h : bitsOf (firstCode count d + a) d <+: bitsOf (firstCode count e + b) e) :
    d = e ∧ a = b := by
  have hfitd := firstCode_add_le hroom hd
  have hfite := firstCode_add_le hroom he
  obtain ⟨hde, hv⟩ := eq_div_of_bitsOf_prefix (by omega) (by omega) h
  rcases Nat.lt_or_ge d e with hlt | hge
  · have hgap : (firstCode count d + count d) * 2 ^ (e - d) ≤ firstCode count e := firstCode_gap hlt
    have hle : firstCode count d + count d ≤ (firstCode count e + b) / 2 ^ (e - d) := by
      rw [Nat.le_div_iff_mul_le (by positivity)]
      omega
    omega
  · have heq : d = e := by omega
    subst heq
    rw [Nat.sub_self, pow_zero, Nat.div_one] at hv
    exact ⟨rfl, by omega⟩

end Sky.Library
