import Sky.Verification.Vp8l.Merging

/-! # Weights and the shape of the tree

Picks come in the order of their weights, so a weight doubles over two levels. When all leaves
weigh the same, nodes are paired in the order of their indices. -/

namespace Sky.Vp8l

open Library Finset

variable {m : ℕ} {s s' : Merge} {a : ℕ}

/-! ## Picks in order -/

/-- `W` is what the nodes weigh without overflow. A sum overflows only when no leaf is left, and
then nothing is compared any more. -/
structure Merge.Ordered (m : ℕ) (W : ℕ → ℕ) (s : Merge) : Prop where
  weight : ∀ k < s.next, (s.weight.val k).toNat = W k % 2 ^ 64
  light : ∀ k < m, 1 ≤ W k ∧ W k ≤ 2 ^ 32
  leaves : ∀ i j, i ≤ j → j < m → W i ≤ W j
  queue : ∀ i j, s.ii ≤ i → i ≤ j → j < s.next → W i ≤ W j
  below : ∀ k ∈ s.picked m, ∀ r, s.IsRoot m r → W k ≤ W r
  pairs : ∀ i, m ≤ i → i < s.next → ∀ q r, s.IsRoot m q → s.IsRoot m r → W i ≤ W q + W r

variable {W : ℕ → ℕ}

/-- While a leaf is left, the weights are read as they are. -/
theorem Merge.Ordered.weight_eq (h : s.Ordered m W) (hli : s.li < m) {k : ℕ}
    (hk : k < s.next) : (s.weight.val k).toNat = W k := by
  have hleaf : s.IsRoot m s.li := .inl ⟨le_rfl, hli⟩
  have hlight := h.light s.li hli
  have hW : W k ≤ 2 ^ 33 := by
    by_cases hkm : k < m
    · have hk' := h.light k hkm
      omega
    · have hpair := h.pairs k (by omega) hk s.li s.li hleaf hleaf
      omega
  rw [h.weight k hk]
  exact Nat.mod_eq_of_lt (by omega)

/-- A pick is no heavier than any node that could have been picked. -/
theorem Merge.Picks.least (h : s.Picks m a s') (ho : s.Ordered m W) (hq : s.Queues m) {r : ℕ}
    (hr : s.IsRoot m r) : W a ≤ W r := by
  have hge := hq.ii_ge
  have hle := hq.ii_le
  cases h with
  | leaf hli hfirst =>
      rcases hr with ⟨hlo, hhi⟩ | ⟨hlo, hhi⟩
      · exact ho.leaves _ _ hlo hhi
      · have hii : s.ii < s.next := by omega
        have hcmp := UInt64.le_iff_toNat_le.mp (hfirst hii)
        rw [ho.weight_eq hli (by omega), ho.weight_eq hli hii] at hcmp
        exact le_trans hcmp (ho.queue _ _ le_rfl hlo hhi)
  | inner hii hfirst =>
      rcases hr with ⟨hlo, hhi⟩ | ⟨hlo, hhi⟩
      · have hli : s.li < m := by omega
        have hcmp := UInt64.lt_iff_toNat_lt.mp (hfirst hli)
        rw [ho.weight_eq hli hii, ho.weight_eq hli (by omega)] at hcmp
        exact le_trans (Nat.le_of_lt hcmp) (ho.leaves _ _ hlo hhi)
      · exact ho.queue _ _ le_rfl hlo hhi

theorem Merge.Picks.ordered (h : s.Picks m a s') (ho : s.Ordered m W) (hq : s.Queues m) :
    s'.Ordered m W := by
  have hn := h.next_eq
  refine ⟨?_, ho.light, ho.leaves, ?_, ?_, ?_⟩
  · intro k hk
    rw [h.weight_eq]
    exact ho.weight k (by omega)
  · intro i j hi hij hj
    refine ho.queue i j ?_ hij (by omega)
    cases h with
    | leaf => exact hi
    | inner => simp only at hi; omega
  · intro k hk r hr
    rw [h.picked_eq hq, mem_insert] at hk
    rcases hk with rfl | hk
    · exact h.least ho hq (h.isRoot_of hr)
    · exact ho.below k hk r (h.isRoot_of hr)
  · intro i hi hlt q r hqr hr
    exact ho.pairs i hi (by omega) q r (h.isRoot_of hqr) (h.isRoot_of hr)

/-- What the parents weigh, and that lighter nodes are merged first. -/
structure Merge.Heavier (m : ℕ) (W : ℕ → ℕ) (s : Merge) : Prop where
  sibling : ∀ k ∈ s.picked m, ∃ u ∈ s.picked m, s.parent.val u = s.parent.val k ∧
    W (s.parent.val k) = W k + W u
  first : ∀ k ∈ s.picked m, ∀ l ∈ s.picked m, s.parent.val k < s.parent.val l → W k ≤ W l
  total : ∑ k ∈ s.picked m, W k = ∑ n ∈ Ico m s.next, W n

/-- `W` with the weight of the node that a round makes. -/
def joined (W : ℕ → ℕ) (s : Merge) (a b : ℕ) : ℕ → ℕ := Function.update W s.next (W a + W b)

theorem joined_of_lt {s : Merge} {b k : ℕ} (h : k < s.next) : joined W s a b k = W k :=
  Function.update_of_ne (by omega) _ _

theorem joined_next (s : Merge) (b : ℕ) : joined W s a b s.next = W a + W b :=
  Function.update_self _ _ _

variable {b : ℕ} {s₁ s₂ : Merge}

theorem Merge.Joins.ordered (h : s.Joins m a b s₁ s₂ s') (hf : s.Forest m)
    (ho : s.Ordered m W) : s'.Ordered m (joined W s a b) := by
  have hq := hf.toQueues
  have hq₁ := h.fst.queues hq
  have hq₂ := h.snd.queues hq₁
  have ho₁ := h.fst.ordered ho hq
  have ho₂ := h.snd.ordered ho₁ hq₁
  have hn₂ : s₂.next = s.next := h.snd.next_eq.trans h.fst.next_eq
  have hge := hq.ii_ge
  have hle := hq.ii_le
  have hnext := h.next_eq
  have hra := h.fst.isRoot
  have hrb := h.snd_isRoot
  have ha : a < s.next := hq.lt_of_isRoot hra
  have hb : b < s.next := hq.lt_of_isRoot hrb
  have hii : s'.ii = s₂.ii := by rw [h.eq]
  have hroot : ∀ {r}, s₂.IsRoot m r → r < s.next := fun hr => hn₂ ▸ hq₂.lt_of_isRoot hr
  have hroot' : ∀ {r}, s₂.IsRoot m r → s.IsRoot m r :=
    fun hr => h.fst.isRoot_of (h.snd.isRoot_of hr)
  have haMin : ∀ {r}, s₂.IsRoot m r → W a ≤ W r := fun hr => h.fst.least ho hq (hroot' hr)
  have hbMin : ∀ {r}, s₂.IsRoot m r → W b ≤ W r :=
    fun hr => h.snd.least ho₁ hq₁ (h.snd.isRoot_of hr)
  refine ⟨?_, ?_, ?_, ?_, ?_, ?_⟩
  · intro k hk
    rcases Nat.lt_or_ge k s.next with hlt | hge'
    · rw [h.weight_of_lt hlt, joined_of_lt hlt]
      exact ho.weight k hlt
    · have heq : k = s.next := by omega
      rw [heq, h.weight_next, joined_next, UInt64.toNat_add, ho.weight a ha, ho.weight b hb]
      omega
  · intro k hk
    rw [joined_of_lt (by omega)]
    exact ho.light k hk
  · intro i j hij hj
    rw [joined_of_lt (by omega), joined_of_lt (by omega)]
    exact ho.leaves i j hij hj
  · intro i j hi hij hj
    rcases Nat.lt_or_ge j s.next with hlt | hge'
    · rw [joined_of_lt (by omega), joined_of_lt hlt]
      exact ho₂.queue i j (by omega) hij (by omega)
    · have heq : j = s.next := by omega
      subst heq
      rcases Nat.lt_or_ge i s.next with hlt | hge''
      · rw [joined_of_lt hlt, joined_next]
        have hm' := hq₂.ii_ge
        exact ho.pairs i (by omega) hlt a b hra hrb
      · rw [show i = s.next by omega]
  · intro k hk r hr
    rw [h.picked_eq hq, mem_insert, mem_insert] at hk
    rcases h.isRoot_of hr with hr | rfl
    · rw [joined_of_lt (hroot hr)]
      rcases hk with rfl | rfl | hk
      · rw [joined_of_lt hb]
        exact hbMin hr
      · rw [joined_of_lt ha]
        exact haMin hr
      · rw [joined_of_lt (hq.lt_of_mem_picked hk)]
        exact ho.below k hk r (hroot' hr)
    · rw [joined_next]
      rcases hk with rfl | rfl | hk
      · rw [joined_of_lt hb]
        omega
      · rw [joined_of_lt ha]
        omega
      · rw [joined_of_lt (hq.lt_of_mem_picked hk)]
        exact le_trans (ho.below k hk a hra) (Nat.le_add_right _ _)
  · intro i hi hlt q r hqr hr
    have hsum : ∀ x, x = joined W s a b i → i < s.next → x ≤ W a + W b := by
      intro x hx hi'
      rw [hx, joined_of_lt hi']
      exact ho.pairs i hi hi' a b hra hrb
    have hnode : joined W s a b i ≤ W a + W b := by
      rcases Nat.lt_or_ge i s.next with hi' | hi'
      · exact hsum _ rfl hi'
      · rw [show i = s.next by omega, joined_next]
    have hside : ∀ {t}, s'.IsRoot m t →
        W a ≤ joined W s a b t ∧ W b ≤ joined W s a b t := by
      intro t ht
      rcases h.isRoot_of ht with ht | rfl
      · rw [joined_of_lt (hroot ht)]
        exact ⟨haMin ht, hbMin ht⟩
      · rw [joined_next]
        omega
    have hql := (hside hqr).1
    have hrl := (hside hr).2
    omega

theorem Merge.Joins.heavier (h : s.Joins m a b s₁ s₂ s') (hf : s.Forest m)
    (ho : s.Ordered m W) (hh : s.Heavier m W) : s'.Heavier m (joined W s a b) := by
  have hq := hf.toQueues
  have hra := h.fst.isRoot
  have hrb := h.snd_isRoot
  have ha : a < s.next := hq.lt_of_isRoot hra
  have hb : b < s.next := hq.lt_of_isRoot hrb
  have hge := hq.ii_ge
  have hle := hq.ii_le
  have hpicked := h.picked_eq hq
  have hmemb : b ∈ s'.picked m := by simp [hpicked]
  have hmema : a ∈ s'.picked m := by simp [hpicked]
  refine ⟨?_, ?_, ?_⟩
  · intro k hk
    rw [hpicked, mem_insert, mem_insert] at hk
    rcases hk with rfl | rfl | hk
    · refine ⟨a, hmema, ?_, ?_⟩
      · rw [h.parent_fst, h.parent_snd]
      · rw [h.parent_snd, joined_next, joined_of_lt hb, joined_of_lt ha, Nat.add_comm]
    · refine ⟨b, hmemb, ?_, ?_⟩
      · rw [h.parent_fst, h.parent_snd]
      · rw [h.parent_fst, joined_next, joined_of_lt hb, joined_of_lt ha]
    · obtain ⟨u, hu, hpu, hWu⟩ := hh.sibling k hk
      have hup := hf.up k hk
      refine ⟨u, by simp [hpicked, hu], ?_, ?_⟩
      · rw [h.parent_of_mem hq hu, h.parent_of_mem hq hk, hpu]
      · rw [h.parent_of_mem hq hk, joined_of_lt hup.2.2, joined_of_lt (hq.lt_of_mem_picked hk),
          joined_of_lt (hq.lt_of_mem_picked hu), hWu]
  · -- a node of this round has the last parent, so only earlier ones come before it
    have hlast : ∀ l ∈ s'.picked m, s'.parent.val l ≤ s.next := by
      intro l hl
      rw [hpicked, mem_insert, mem_insert] at hl
      rcases hl with rfl | rfl | hl
      · exact h.parent_snd.le
      · exact h.parent_fst.le
      · rw [h.parent_of_mem hq hl]
        exact Nat.le_of_lt (hf.up l hl).2.2
    intro k hk l hl hlt
    have hk' : k ∈ s.picked m := by
      have hle' := hlast l hl
      rw [hpicked, mem_insert, mem_insert] at hk
      rcases hk with rfl | rfl | hk
      · rw [h.parent_snd] at hlt
        omega
      · rw [h.parent_fst] at hlt
        omega
      · exact hk
    rw [joined_of_lt (hq.lt_of_mem_picked hk')]
    rw [hpicked, mem_insert, mem_insert] at hl
    rcases hl with rfl | rfl | hl
    · rw [joined_of_lt hb]
      exact ho.below k hk' _ hrb
    · rw [joined_of_lt ha]
      exact ho.below k hk' _ hra
    · rw [joined_of_lt (hq.lt_of_mem_picked hl)]
      rw [h.parent_of_mem hq hk', h.parent_of_mem hq hl] at hlt
      exact hh.first k hk' l hl hlt
  · have hb' : b ∉ insert a (s.picked m) := by
      rw [mem_insert, not_or]
      exact ⟨fun heq => h.ne hq heq.symm, h.snd_not_mem hq⟩
    have hold : ∑ k ∈ s.picked m, joined W s a b k = ∑ k ∈ s.picked m, W k :=
      sum_congr rfl fun k hk => joined_of_lt (hq.lt_of_mem_picked hk)
    have hnodes : ∑ n ∈ Ico m s.next, joined W s a b n = ∑ n ∈ Ico m s.next, W n :=
      sum_congr rfl fun n hn => joined_of_lt (mem_Ico.mp hn).2
    rw [hpicked, sum_insert hb', sum_insert (h.fst.not_mem hq), hold, hh.total, h.next_eq,
      sum_Ico_succ_top (by omega), hnodes, joined_next, joined_of_lt hb, joined_of_lt ha]
    omega

/-! ## The deepest leaf -/

/-- No node is so deep that its depth does not fit a byte. -/
theorem Merge.Forest.depth_lt (hf : s.Forest m) (hm : 2 ≤ m) (hlen : m < 2 ^ 63)
    (hnext : s.next = 2 * m - 1) (ho : s.Ordered m W) (hh : s.Heavier m W) {d : ℕ → ℕ}
    (hd : Depths m s.parent.val d) {k : ℕ} (hk : k < m) : d k < 256 := by
  have htree := hf.tree hm hnext
  have hpicked := hf.picked_end hnext
  have hmem : ∀ k, k < 2 * m - 2 → k ∈ s.picked m := by
    intro k hk
    rw [hpicked]
    exact mem_range.mpr hk
  have hup : ∀ k < 2 * m - 2, W k ≤ W (s.parent.val k) := by
    intro k hk
    obtain ⟨u, _, _, hsum⟩ := hh.sibling k (hmem k hk)
    omega
  have hdouble : ∀ k < 2 * m - 2, s.parent.val k < 2 * m - 2 →
      2 * W k ≤ W (s.parent.val (s.parent.val k)) := by
    intro k hk hpk
    obtain ⟨u, hu, hpu, hsum⟩ := hh.sibling _ (hmem _ hpk)
    have hlt := (htree.up _ hpk).2.1
    have hfirst := hh.first k (hmem k hk) u hu (by omega)
    have hself := hup k hk
    omega
  have hpos : ∀ n, ∀ k < 2 * m - 1, k ≤ n → 1 ≤ W k := by
    intro n
    induction n with
    | zero =>
        intro k hk hkn
        exact (ho.light k (by omega)).1
    | succ n ih =>
        intro k hk hkn
        by_cases hkm : k < m
        · exact (ho.light k hkm).1
        · -- an inner node has a child, and weighs no less
          have htwo := hf.two fun n => if n = k then 1 else 0
          rw [hnext, sum_ite_eq' (Ico m (2 * m - 1)) k (fun _ => (1 : ℚ)),
            if_pos (mem_Ico.mpr ⟨by omega, hk⟩)] at htwo
          have hchild : ∃ c ∈ s.picked m, s.parent.val c = k := by
            by_contra hnone
            have hzero : ∑ c ∈ s.picked m, (if s.parent.val c = k then (1 : ℚ) else 0) = 0 := by
              apply sum_eq_zero
              intro c hc
              exact if_neg fun heq => hnone ⟨c, hc, heq⟩
            rw [hzero] at htwo
            norm_num at htwo
          obtain ⟨c, hc, hpc⟩ := hchild
          have hc' : c < 2 * m - 2 := by
            rw [hpicked] at hc
            exact mem_range.mp hc
          have hlt := (htree.up c hc').2.1
          have hcpos := ih c (by omega) (by omega)
          have hle := hup c hc'
          rw [hpc] at hle
          omega
  have hrootle : W (2 * m - 2) ≤ m * 2 ^ 32 := by
    have htotal := hh.total
    rw [hpicked, hnext, show 2 * m - 1 = (2 * m - 2) + 1 by omega,
      sum_Ico_succ_top (by omega)] at htotal
    have hsplit := sum_range_add_sum_Ico W (show m ≤ 2 * m - 2 by omega)
    have hleaves : ∑ k ∈ range m, W k ≤ ∑ _k ∈ range m, 2 ^ 32 :=
      sum_le_sum fun k hk => (ho.light k (mem_range.mp hk)).2
    rw [sum_const, card_range, smul_eq_mul] at hleaves
    omega
  have hroot : W (2 * m - 2) < 2 ^ 95 := by omega
  have hlt := hd.le_of_weight htree (fun k hk => hpos k k hk le_rfl) hup hdouble
    (show k < 2 * m - 1 by omega) hroot
  omega

/-! ## Leaves of one weight -/

/-- The nodes are picked in the order of their indices. -/
structure Merge.Paired (m : ℕ) (w : UInt64) (s : Merge) : Prop where
  turn : s.ii = m ∨ s.li = m
  weight : s.li < m → ∀ k < s.next, w ≤ s.weight.val k
  leaf : ∀ k < m, s.weight.val k = w
  parent : ∀ k ∈ s.picked m, s.parent.val k = m + k / 2

theorem Merge.Picks.in_order {w : UInt64} (h : s.Picks m a s') (hq : s.Queues m)
    (hturn : s.ii = m ∨ s.li = m) (hweight : s.li < m → ∀ k < s.next, w ≤ s.weight.val k)
    (hleaf : ∀ k < m, s.weight.val k = w) :
    a + m = s.li + s.ii ∧ (s'.ii = m ∨ s'.li = m) ∧ (s'.li < m → s.li < m) := by
  have hli := hq.li_le
  cases h with
  | leaf hlt _ =>
      have hii : s.ii = m := by omega
      exact ⟨by rw [hii], .inl hii, fun _ => hlt⟩
  | inner hii hlt =>
      have hend : s.li = m := by
        by_contra hne
        have hlt' : s.li < m := by omega
        have hlighter := hlt hlt'
        rw [hleaf _ hlt'] at hlighter
        exact absurd (hweight hlt' _ hii) (UInt64.not_le.mpr hlighter)
      refine ⟨?_, .inr hend, fun hlt' => hlt'⟩
      omega

theorem Merge.Joins.paired {w : UInt64} (hw : w.toNat ≤ 2 ^ 32) (h : s.Joins m a b s₁ s₂ s')
    (hf : s.Forest m) (hp : s.Paired m w) : s'.Paired m w := by
  have hq := hf.toQueues
  have hcount := hf.count
  have hge := hq.ii_ge
  have hle := hq.ii_le
  have hc₁ := h.fst.count
  have hn₁ := h.fst.next_eq
  obtain ⟨ha, hturn₁, hleft₁⟩ := h.fst.in_order hq hp.turn hp.weight hp.leaf
  have hw₁ : s₁.li < m → ∀ k < s₁.next, w ≤ s₁.weight.val k := by
    intro hlt k hk
    rw [h.fst.weight_eq]
    exact hp.weight (hleft₁ hlt) k (by omega)
  have hl₁ : ∀ k < m, s₁.weight.val k = w := by
    intro k hk
    rw [h.fst.weight_eq]
    exact hp.leaf k hk
  obtain ⟨hb, hturn₂, hleft₂⟩ := h.snd.in_order (h.fst.queues hq) hturn₁ hw₁ hl₁
  have hii : s'.ii = s₂.ii := by rw [h.eq]
  have hli : s'.li = s₂.li := by rw [h.eq]
  refine ⟨?_, ?_, ?_, ?_⟩
  · rw [hii, hli]
    exact hturn₂
  · intro hlt k hk
    have hlt₁ := hleft₂ (hli ▸ hlt)
    have hleaf := hleft₁ hlt₁
    rcases Nat.lt_or_ge k s.next with hk' | hk'
    · rw [h.weight_of_lt hk']
      exact hp.weight hleaf k hk'
    · -- both picks were leaves, so the sum does not overflow
      have heq : k = s.next := by
        have hn := h.next_eq
        omega
      have ham : a < m := by
        rcases hp.turn with hturn | hturn <;> omega
      have hbm : b < m := by
        rcases hturn₁ with hturn | hturn <;> omega
      rw [heq, h.weight_next, hp.leaf a ham, hp.leaf b hbm, UInt64.le_iff_toNat_le,
        UInt64.toNat_add, Nat.mod_eq_of_lt (by omega)]
      omega
  · intro k hk
    rw [h.weight_of_lt (by omega)]
    exact hp.leaf k hk
  · intro k hk
    rw [h.picked_eq hq, mem_insert, mem_insert] at hk
    rcases hk with rfl | rfl | hk
    · rw [h.parent_snd]
      omega
    · rw [h.parent_fst]
      omega
    · rw [h.parent_of_mem hq hk]
      exact hp.parent k hk

end Sky.Vp8l
