import Sky.Model.Vp8l

/-! # The two queues

What a pick takes, and what the merging of the leaves keeps. -/

namespace Sky.Vp8l

open Library Finset

variable {m : ℕ} {s s' : Merge} {a : ℕ}

/-! ## Picks -/

/-- The nodes that have a parent. -/
def Merge.picked (m : ℕ) (s : Merge) : Finset ℕ := range s.li ∪ Ico m s.ii

/-- The nodes that have none yet. -/
def Merge.IsRoot (m : ℕ) (s : Merge) (k : ℕ) : Prop :=
  (s.li ≤ k ∧ k < m) ∨ (s.ii ≤ k ∧ k < s.next)

/-- A pick takes the first leaf, or the first inner node when it is lighter. -/
inductive Merge.Picks (m : ℕ) (s : Merge) : ℕ → Merge → Prop where
  | leaf (hli : s.li < m)
      (hle : s.ii < s.next → s.weight.val s.li ≤ s.weight.val s.ii) :
      Merge.Picks m s s.li { s with li := s.li + 1 }
  | inner (hii : s.ii < s.next) (hlt : s.li < m → s.weight.val s.ii < s.weight.val s.li) :
      Merge.Picks m s s.ii { s with ii := s.ii + 1 }

/-- The bounds of the queues. -/
structure Merge.Queues (m : ℕ) (s : Merge) : Prop where
  li_le : s.li ≤ m
  ii_ge : m ≤ s.ii
  ii_le : s.ii ≤ s.next
  next_le : s.next ≤ 2 * m - 1
  weight_size : s.weight.size = 2 * m - 1
  parent_size : s.parent.size = 2 * m - 1

theorem Merge.Queues.pick (h : s.Queues m) (hroot : s.li < m ∨ s.ii < s.next) :
    ∃ a s', s.pick m = some (a, s') ∧ s.Picks m a s' := by
  by_cases hli : s.li < m
  · by_cases hii : s.ii < s.next
    · have hsize := h.weight_size
      have hnext := h.next_le
      have hge := h.ii_ge
      have hleaf : s.leafNext m =
          some (decide (s.weight.val s.li ≤ s.weight.val s.ii)) := by
        rw [Merge.leafNext, if_pos hli, if_neg (by omega),
          Cells.get?_eq_some (by omega), Cells.get?_eq_some (by omega)]
        rfl
      by_cases hle : s.weight.val s.li ≤ s.weight.val s.ii
      · refine ⟨s.li, { s with li := s.li + 1 }, ?_, .leaf hli fun _ => hle⟩
        simp [Merge.pick, hleaf, hle]
      · refine ⟨s.ii, { s with ii := s.ii + 1 }, ?_, .inner hii fun _ => ?_⟩
        · simp [Merge.pick, hleaf, hle]
        · exact UInt64.not_le.mp hle
    · refine ⟨s.li, { s with li := s.li + 1 }, ?_, .leaf hli fun hlt => absurd hlt hii⟩
      have hleaf : s.leafNext m = some true := by
        rw [Merge.leafNext, if_pos hli, if_pos (by omega)]
      simp [Merge.pick, hleaf]
  · have hii : s.ii < s.next := by omega
    refine ⟨s.ii, { s with ii := s.ii + 1 }, ?_, .inner hii fun hlt => absurd hlt hli⟩
    have hleaf : s.leafNext m = some false := by
      rw [Merge.leafNext, if_neg hli]
    simp [Merge.pick, hleaf]

namespace Merge.Picks

theorem weight_eq (h : s.Picks m a s') : s'.weight = s.weight := by
  cases h <;> rfl

theorem parent_eq (h : s.Picks m a s') : s'.parent = s.parent := by
  cases h <;> rfl

theorem next_eq (h : s.Picks m a s') : s'.next = s.next := by
  cases h <;> rfl

theorem count (h : s.Picks m a s') : s'.li + s'.ii = s.li + s.ii + 1 := by
  cases h with
  | leaf => simp only; omega
  | inner => simp only; omega

theorem queues (h : s.Picks m a s') (hq : s.Queues m) : s'.Queues m := by
  cases h with
  | leaf hli hle => exact { hq with li_le := hli }
  | inner hii hlt =>
      exact { hq with ii_ge := le_trans hq.ii_ge (Nat.le_succ _), ii_le := hii }

theorem isRoot (h : s.Picks m a s') : s.IsRoot m a := by
  cases h with
  | leaf hli _ => exact .inl ⟨le_rfl, hli⟩
  | inner hii _ => exact .inr ⟨le_rfl, hii⟩

theorem not_mem (h : s.Picks m a s') (hq : s.Queues m) : a ∉ s.picked m := by
  have hli := hq.li_le
  have hii := hq.ii_ge
  cases h with
  | leaf hlt _ =>
      simp only [Merge.picked, mem_union, mem_range, mem_Ico]
      omega
  | inner _ _ =>
      simp only [Merge.picked, mem_union, mem_range, mem_Ico]
      omega

theorem picked_eq (h : s.Picks m a s') (hq : s.Queues m) :
    s'.picked m = insert a (s.picked m) := by
  have hii := hq.ii_ge
  cases h with
  | leaf hlt _ =>
      ext k
      simp only [Merge.picked, mem_union, mem_range, mem_Ico, mem_insert]
      omega
  | inner _ _ =>
      ext k
      simp only [Merge.picked, mem_union, mem_range, mem_Ico, mem_insert]
      omega

theorem isRoot_of (h : s.Picks m a s') {k : ℕ} (hk : s'.IsRoot m k) : s.IsRoot m k := by
  cases h with
  | leaf _ _ =>
      rcases hk with ⟨hle, hlt⟩ | hk
      · exact .inl ⟨by simp only at hle; omega, hlt⟩
      · exact .inr hk
  | inner _ _ =>
      rcases hk with hk | ⟨hle, hlt⟩
      · exact .inl hk
      · exact .inr ⟨by simp only at hle; omega, hlt⟩

end Merge.Picks

theorem Merge.Queues.lt_of_isRoot (h : s.Queues m) {k : ℕ} (hk : s.IsRoot m k) : k < s.next := by
  have hge := h.ii_ge
  have hle := h.ii_le
  rcases hk with ⟨_, hlt⟩ | ⟨_, hlt⟩ <;> omega

theorem Merge.Queues.lt_of_mem_picked (h : s.Queues m) {k : ℕ} (hk : k ∈ s.picked m) :
    k < s.next := by
  have hge := h.ii_ge
  have hle := h.ii_le
  have hli := h.li_le
  simp only [Merge.picked, mem_union, mem_range, mem_Ico] at hk
  omega

/-! ## Rounds -/

/-- A round picks two nodes and puts their parent at the end. -/
structure Merge.Joins (m : ℕ) (s : Merge) (a b : ℕ) (s₁ s₂ s' : Merge) : Prop where
  fst : s.Picks m a s₁
  snd : s₁.Picks m b s₂
  eq : s' = { s₂ with
    next := s.next + 1
    weight := ⟨s.weight.size,
      Function.update s.weight.val s.next (s.weight.val a + s.weight.val b)⟩
    parent := ⟨s.parent.size,
      Function.update (Function.update s.parent.val a s.next) b s.next⟩ }

/-- The shape of what is merged so far. -/
structure Merge.Forest (m : ℕ) (s : Merge) : Prop extends s.Queues m where
  count : s.li + s.ii + m = 2 * s.next
  behind : s.ii < s.next ∨ s.next = m
  up : ∀ k ∈ s.picked m, m ≤ s.parent.val k ∧ k < s.parent.val k ∧ s.parent.val k < s.next
  two : ∀ f : ℕ → ℚ, ∑ k ∈ s.picked m, f (s.parent.val k) = 2 * ∑ n ∈ Ico m s.next, f n

theorem Merge.Forest.join (h : s.Forest m) (hnext : s.next < 2 * m - 1) :
    ∃ a b s₁ s₂ s', s.join m = some s' ∧ s.Joins m a b s₁ s₂ s' := by
  have hcount := h.count
  have hbehind := h.behind
  have hge := h.ii_ge
  have hle := h.ii_le
  have hli := h.li_le
  obtain ⟨a, s₁, hfst, hpa⟩ := h.toQueues.pick (by omega)
  have hq₁ := hpa.queues h.toQueues
  have hc₁ := hpa.count
  have hn₁ := hpa.next_eq
  have hle₁ := hq₁.ii_le
  obtain ⟨b, s₂, hsnd, hpb⟩ := hq₁.pick (by omega)
  have hw : s₂.weight = s.weight := hpb.weight_eq.trans hpa.weight_eq
  have hp : s₂.parent = s.parent := hpb.parent_eq.trans hpa.parent_eq
  have hn : s₂.next = s.next := hpb.next_eq.trans hpa.next_eq
  have ha : a < s.next := h.lt_of_isRoot hpa.isRoot
  have hb : b < s.next := h.lt_of_isRoot (hpa.isRoot_of hpb.isRoot)
  have hws := h.weight_size
  have hps := h.parent_size
  refine ⟨a, b, s₁, s₂, _, ?_, ⟨hpa, hpb, rfl⟩⟩
  simp only [Merge.join, hfst, hsnd, hw, hp, hn, Option.bind_eq_bind, Option.bind_some]
  rw [Cells.get?_eq_some (by omega), Cells.get?_eq_some (by omega), Option.bind_some,
    Option.bind_some, Cells.set?_eq_some (by omega), Option.bind_some,
    Cells.set?_eq_some (by omega), Option.bind_some, Cells.set?_eq_some (by simp only; omega)]
  rfl

namespace Merge.Joins

variable {b : ℕ} {s₁ s₂ : Merge}

theorem next_eq (h : s.Joins m a b s₁ s₂ s') : s'.next = s.next + 1 := by
  rw [h.eq]

theorem picked_eq (h : s.Joins m a b s₁ s₂ s') (hq : s.Queues m) :
    s'.picked m = insert b (insert a (s.picked m)) := by
  have hq₁ := h.fst.queues hq
  rw [← h.fst.picked_eq hq, ← h.snd.picked_eq hq₁, h.eq]
  rfl

theorem ne (h : s.Joins m a b s₁ s₂ s') (hq : s.Queues m) : a ≠ b := by
  have hnot := h.snd.not_mem (h.fst.queues hq)
  rw [h.fst.picked_eq hq, mem_insert, not_or] at hnot
  exact fun heq => hnot.1 heq.symm

theorem snd_not_mem (h : s.Joins m a b s₁ s₂ s') (hq : s.Queues m) : b ∉ s.picked m := by
  have hnot := h.snd.not_mem (h.fst.queues hq)
  rw [h.fst.picked_eq hq, mem_insert, not_or] at hnot
  exact hnot.2

theorem snd_isRoot (h : s.Joins m a b s₁ s₂ s') : s.IsRoot m b := h.fst.isRoot_of h.snd.isRoot

theorem parent_fst (h : s.Joins m a b s₁ s₂ s') : s'.parent.val a = s.next := by
  rw [h.eq]
  by_cases hab : a = b
  · rw [hab]
    exact Function.update_self _ _ _
  · simp only
    rw [Function.update_of_ne hab, Function.update_self]

theorem parent_snd (h : s.Joins m a b s₁ s₂ s') : s'.parent.val b = s.next := by
  rw [h.eq]
  exact Function.update_self _ _ _

theorem parent_of_mem (h : s.Joins m a b s₁ s₂ s') (hq : s.Queues m) {k : ℕ}
    (hk : k ∈ s.picked m) : s'.parent.val k = s.parent.val k := by
  have hka : k ≠ a := fun heq => h.fst.not_mem hq (heq ▸ hk)
  have hkb : k ≠ b := fun heq => h.snd_not_mem hq (heq ▸ hk)
  rw [h.eq]
  simp only
  rw [Function.update_of_ne hkb, Function.update_of_ne hka]

theorem weight_of_lt (h : s.Joins m a b s₁ s₂ s') {k : ℕ} (hk : k < s.next) :
    s'.weight.val k = s.weight.val k := by
  rw [h.eq]
  exact Function.update_of_ne (by omega) _ _

theorem weight_next (h : s.Joins m a b s₁ s₂ s') :
    s'.weight.val s.next = s.weight.val a + s.weight.val b := by
  rw [h.eq]
  exact Function.update_self _ _ _

theorem isRoot_of (h : s.Joins m a b s₁ s₂ s') {k : ℕ} (hk : s'.IsRoot m k) :
    s₂.IsRoot m k ∨ k = s.next := by
  have hn : s₂.next = s.next := h.snd.next_eq.trans h.fst.next_eq
  rw [h.eq] at hk
  rcases hk with hk | ⟨hle, hlt⟩
  · exact .inl (.inl hk)
  · by_cases heq : k = s.next
    · exact .inr heq
    · refine .inl (.inr ⟨hle, ?_⟩)
      simp only at hlt
      omega

end Merge.Joins

theorem Merge.Joins.forest {b : ℕ} {s₁ s₂ : Merge} (h : s.Joins m a b s₁ s₂ s')
    (hf : s.Forest m) (hnext : s.next < 2 * m - 1) : s'.Forest m := by
  have hq := hf.toQueues
  have hq₂ := h.snd.queues (h.fst.queues hq)
  have hn : s₂.next = s.next := h.snd.next_eq.trans h.fst.next_eq
  have hc₁ := h.fst.count
  have hc₂ := h.snd.count
  have hcount := hf.count
  have hle₂ := hq₂.ii_le
  have hge := hq.ii_ge
  have hle := hq.ii_le
  have hli' : s'.li = s₂.li := by rw [h.eq]
  have hii' : s'.ii = s₂.ii := by rw [h.eq]
  have hnext' := h.next_eq
  have ha : a < s.next := hq.lt_of_isRoot h.fst.isRoot
  have hb : b < s.next := hq.lt_of_isRoot h.snd_isRoot
  refine ⟨⟨?_, ?_, ?_, ?_, ?_, ?_⟩, ?_, ?_, ?_, ?_⟩
  · rw [hli']
    exact hq₂.li_le
  · rw [hii']
    exact hq₂.ii_ge
  · omega
  · omega
  · rw [h.eq]
    exact hf.weight_size
  · rw [h.eq]
    exact hf.parent_size
  · omega
  · exact .inl (by omega)
  · intro k hk
    rw [h.picked_eq hq, mem_insert, mem_insert] at hk
    rcases hk with rfl | rfl | hk
    · rw [h.parent_snd]
      omega
    · rw [h.parent_fst]
      omega
    · rw [h.parent_of_mem hq hk]
      have hup := hf.up k hk
      omega
  · intro f
    have hold : ∑ k ∈ s.picked m, f (s'.parent.val k) = ∑ k ∈ s.picked m, f (s.parent.val k) := by
      apply sum_congr rfl
      intro k hk
      rw [h.parent_of_mem hq hk]
    have hb' : b ∉ insert a (s.picked m) := by
      rw [mem_insert, not_or]
      exact ⟨fun heq => h.ne hq heq.symm, h.snd_not_mem hq⟩
    rw [h.picked_eq hq, sum_insert hb', sum_insert (h.fst.not_mem hq), h.parent_fst, h.parent_snd,
      hold, hf.two f, hnext', sum_Ico_succ_top (by omega)]
    ring

/-! ## Runs -/

/-- What rounds keep holds after all of them. -/
theorem Merge.joins_induction {P : Merge → Prop} (hm : 2 ≤ m)
    (step : ∀ s s' a b s₁ s₂, s.Forest m → s.next < 2 * m - 1 → s.Joins m a b s₁ s₂ s' → P s → P s')
    {n : ℕ} (hf : s.Forest m) (hn : s.next + n = 2 * m - 1) (hP : P s) :
    ∃ s', Merge.joins m n s = some s' ∧ s'.Forest m ∧ s'.next = 2 * m - 1 ∧ P s' := by
  induction n generalizing s with
  | zero => exact ⟨s, rfl, hf, hn, hP⟩
  | succ n ih =>
      have hlt : s.next < 2 * m - 1 := by omega
      obtain ⟨a, b, s₁, s₂, t, hjoin, hj⟩ := hf.join hlt
      have hnext := hj.next_eq
      obtain ⟨s', hrun, hrest⟩ :=
        ih (hj.forest hf hlt) (by omega) (step s t a b s₁ s₂ hf hlt hj hP)
      refine ⟨s', ?_, hrest⟩
      rw [Merge.joins, hjoin]
      exact hrun

/-- The queues before the first round. -/
theorem Merge.forest_start (hm : 2 ≤ m) {weight : Cells UInt64} {parent : Cells ℕ}
    (hw : weight.size = 2 * m - 1) (hp : parent.size = 2 * m - 1) :
    (Merge.mk 0 m m weight parent).Forest m := by
  refine ⟨⟨Nat.zero_le _, le_rfl, le_rfl, by simp only; omega, hw, hp⟩, ?_, .inr rfl, ?_, ?_⟩
  · simp only
    omega
  · simp [Merge.picked]
  · simp [Merge.picked]

/-- Every node but the last has a parent. -/
theorem Merge.Forest.picked_end (h : s.Forest m) (hnext : s.next = 2 * m - 1) :
    s.picked m = range (2 * m - 2) := by
  have hcount := h.count
  have hbehind := h.behind
  have hli := h.li_le
  have hii := h.ii_ge
  ext k
  simp only [Merge.picked, mem_union, mem_range, mem_Ico]
  omega

theorem Merge.Forest.tree (h : s.Forest m) (hm : 2 ≤ m) (hnext : s.next = 2 * m - 1) :
    ParentTree m s.parent.val := by
  have hpicked := h.picked_end hnext
  refine ⟨hm, ?_, ?_⟩
  · intro k hk
    have hup := h.up k (by rw [hpicked]; exact mem_range.mpr hk)
    omega
  · intro f
    have htwo := h.two f
    rw [hpicked, hnext] at htwo
    exact htwo

end Sky.Vp8l
