import Sky.Verification.Vp8l.Weights

/-! # Code lengths

Every tree gives a complete code, and when all counts are raised to one the tree is so flat that it
fits any limit that leaves room for the symbols. -/

namespace Sky.Vp8l

open Library Finset

/-! ## Trees and their depths -/

section

variable {m : ℕ}

/-! ## Depths -/

theorem deepen_spec (m : ℕ) (parent : Cells ℕ) (K : ℕ) (d : Cells ℕ) (maxD : ℕ)
    (hparent : K ≤ parent.size)
    (hup : ∀ k < K, k < parent.val k ∧ parent.val k < d.size) :
    ∃ d' maxD', deepen m parent K d maxD = some (d', maxD') ∧ d'.size = d.size ∧
      (∀ j, K ≤ j → d'.val j = d.val j) ∧
      (∀ k < K, d'.val k = d'.val (parent.val k) + 1) ∧
      maxD ≤ maxD' ∧ (∀ k < K, k < m → d'.val k ≤ maxD') ∧
      ∀ e, maxD ≤ e → (∀ k < K, k < m → d'.val k ≤ e) → maxD' ≤ e := by
  induction K generalizing d maxD with
  | zero =>
      exact ⟨d, maxD, rfl, rfl, fun _ _ => rfl, by simp, le_rfl, by simp, fun e he _ => he⟩
  | succ K ih =>
      obtain ⟨hlt, hsize⟩ := hup K (Nat.lt_succ_self K)
      let dp := d.val (parent.val K)
      let d₁ : Cells ℕ := ⟨d.size, Function.update d.val K (dp + 1)⟩
      have hd₁ : d₁.val K = dp + 1 := Function.update_self _ _ _
      have hother : ∀ j, j ≠ K → d₁.val j = d.val j := fun j hj => Function.update_of_ne hj _ _
      obtain ⟨d', maxD', hrun, hsz, hkeep, hbelow, hmax, hbound, hleast⟩ :=
        ih d₁ (if K < m ∧ dp + 1 > maxD then dp + 1 else maxD) (by omega)
          (fun k hk => hup k (by omega))
      have hK : d'.val K = dp + 1 := (hkeep K le_rfl).trans hd₁
      refine ⟨d', maxD', ?_, hsz, ?_, ?_, ?_, ?_, ?_⟩
      · have hset : d.set? K (dp + 1) = some d₁ := Cells.set?_eq_some (by omega) _
        have hK' : K < d₁.size := lt_trans hlt hsize
        have hget : d₁.get? K = some (dp + 1) := by
          rw [Cells.get?_eq_some hK', hd₁]
        rw [deepen, Cells.get?_eq_some (by omega)]
        simp only [Option.bind_eq_bind, Option.bind_some]
        rw [Cells.get?_eq_some hsize]
        simp only [Option.bind_some]
        rw [hset]
        simp only [Option.bind_some]
        rw [hget]
        exact hrun
      · intro j hj
        rw [hkeep j (by omega), hother j (by omega)]
      · intro k hk
        by_cases hkK : k = K
        · rw [hkK, hK, hkeep _ (Nat.le_of_lt hlt), hother _ (by omega)]
        · exact hbelow k (by omega)
      · split at hmax <;> omega
      · intro k hk hkm
        by_cases hkK : k = K
        · rw [hkK, hK]
          split at hmax <;> omega
        · exact hbound k (by omega) hkm
      · intro e he hall
        apply hleast e
        · have hKe := hall K (Nat.lt_succ_self K)
          rw [hK] at hKe
          split
          · rename_i hcond
            exact hKe hcond.1
          · exact he
        · intro k hk hkm
          exact hall k (by omega) hkm

/-! ## Leaves -/

theorem mem_leavesOf {freq : List UInt32} {l : Leaf} :
    l ∈ leavesOf freq ↔ ∃ f, freq[l.sym]? = some f ∧ 0 < f ∧ l.w = f.toUInt64 := by
  simp only [leavesOf, List.mem_map, List.mem_filter, decide_eq_true_eq, Prod.exists]
  constructor
  · rintro ⟨f, i, ⟨hmem, hpos⟩, rfl⟩
    exact ⟨f, List.mk_mem_zipIdx_iff_getElem?.mp hmem, hpos, rfl⟩
  · rintro ⟨f, hget, hpos, hw⟩
    refine ⟨f, l.sym, ⟨List.mk_mem_zipIdx_iff_getElem?.mpr hget, hpos⟩, ?_⟩
    cases l
    simp_all

theorem leavesOf_nodup (freq : List UInt32) : ((leavesOf freq).map Leaf.sym).Nodup := by
  have hsub : List.Sublist ((leavesOf freq).map Leaf.sym) (freq.zipIdx.map Prod.snd) := by
    rw [leavesOf, List.map_map]
    exact List.Sublist.map _ List.filter_sublist
  refine hsub.nodup ?_
  rw [List.zipIdx_map_snd]
  exact List.nodup_range'

theorem Leaf.not_before_iff {a b : Leaf} :
    ¬ b.before a ↔ a.w.toNat < b.w.toNat ∨ a.w.toNat = b.w.toNat ∧ a.sym ≤ b.sym := by
  unfold Leaf.before
  by_cases heq : b.w = a.w
  · simp [heq]
  · have hne : b.w.toNat ≠ a.w.toNat := fun h => heq (UInt64.toNat.inj h)
    rw [if_pos heq, UInt64.lt_iff_toNat_lt]
    omega

theorem toNat_max (a b : UInt64) : (max a b).toNat = max a.toNat b.toNat := by
  rcases Nat.le_total a.toNat b.toNat with hle | hle
  · rw [show max a b = b from if_pos (UInt64.le_iff_toNat_le.mpr hle), Nat.max_eq_right hle]
  · by_cases hlt : a ≤ b
    · rw [show max a b = b from if_pos hlt,
        Nat.max_eq_right (UInt64.le_iff_toNat_le.mp hlt)]
    · rw [show max a b = a from if_neg hlt, Nat.max_eq_left hle]

variable {leaves : List Leaf} {floor : UInt64}

theorem raised_perm (leaves : List Leaf) (floor : UInt64) :
    (raised leaves floor).Perm (leaves.map fun l => { l with w := max l.w floor }) :=
  List.perm_insertionSort _ _

theorem raised_length : (raised leaves floor).length = leaves.length := by
  rw [(raised_perm leaves floor).length_eq, List.length_map]

theorem raised_syms : ((raised leaves floor).map Leaf.sym).Perm (leaves.map Leaf.sym) := by
  have hmap := (raised_perm leaves floor).map Leaf.sym
  rwa [List.map_map] at hmap

theorem mem_raised {l : Leaf} (h : l ∈ raised leaves floor) :
    ∃ l₀ ∈ leaves, l.sym = l₀.sym ∧ l.w = max l₀.w floor := by
  have hmem := (raised_perm leaves floor).mem_iff.mp h
  rw [List.mem_map] at hmem
  obtain ⟨l₀, hl₀, rfl⟩ := hmem
  exact ⟨l₀, hl₀, rfl, rfl⟩

theorem raised_sorted : (raised leaves floor).Pairwise fun a b => a.w.toNat ≤ b.w.toNat := by
  have : Std.Total fun a b : Leaf => ¬ b.before a := by
    refine ⟨fun a b => ?_⟩
    rw [Leaf.not_before_iff, Leaf.not_before_iff]
    omega
  have : IsTrans Leaf fun a b => ¬ b.before a := by
    refine ⟨fun a b c => ?_⟩
    rw [Leaf.not_before_iff, Leaf.not_before_iff, Leaf.not_before_iff]
    omega
  refine List.Pairwise.imp ?_
    (List.pairwise_insertionSort (fun a b : Leaf => ¬ b.before a)
      (leaves.map fun l => { l with w := max l.w floor }))
  intro a b hab
  rw [Leaf.not_before_iff] at hab
  omega

/-! ## Trees -/

/-- The arrays are made for `m` leaves. -/
structure Rebuild.Fits (m : ℕ) (r : Rebuild) : Prop where
  weight : r.weight.size = 2 * m - 1
  parent : r.parent.size = 2 * m - 1
  d : r.d.size = 2 * m - 1

/-- What a round finds: a tree over the leaves, their depths and the greatest of these. -/
structure Grown (m : ℕ) (ls : List Leaf) (s : Merge) (d : Cells ℕ) (maxD : ℕ) : Prop where
  tree : ParentTree m s.parent.val
  depths : Depths m s.parent.val d.val
  bound : ∀ k < m, d.val k ≤ maxD
  least : ∀ e, (∀ k < m, d.val k ≤ e) → maxD ≤ e
  byte : ∀ k < m, d.val k < 256
  flat : (∃ w, ∀ l ∈ ls, l.w = w) → ∀ e, m ≤ 2 ^ e → maxD ≤ e

theorem Rebuild.grow_spec {ls : List Leaf} (hlen : ls.length = m) (hm : 2 ≤ m) (hmax : m < 2 ^ 63)
    (hsorted : ls.Pairwise fun a b => a.w.toNat ≤ b.w.toNat)
    (hlight : ∀ l ∈ ls, 1 ≤ l.w.toNat ∧ l.w.toNat ≤ 2 ^ 32) {r : Rebuild} (hr : r.Fits m) :
    ∃ s d maxD, r.grow m ls = some (s, d, maxD) ∧
      (∀ floor, (Rebuild.mk floor s.weight s.parent d).Fits m) ∧ Grown m ls s d maxD := by
  have hfilllen : 0 + (ls.map Leaf.w).length ≤ r.weight.size := by
    rw [List.length_map, hr.weight]
    omega
  obtain ⟨weight, hfill, hwsize, hwval, -⟩ := Cells.fill_spec (ls.map Leaf.w) r.weight 0 hfilllen
  have hw : ∀ k (hk : k < m), weight.val k = (ls.get ⟨k, by omega⟩).w := by
    intro k hk
    have hval := hwval k (by rw [List.length_map]; omega)
    rw [Nat.zero_add] at hval
    rw [hval, List.getElem_map]
    rfl
  let s₀ : Merge := ⟨0, m, m, weight, r.parent⟩
  let W₀ : ℕ → ℕ := fun k => (weight.val k).toNat
  have hforest : s₀.Forest m := Merge.forest_start hm (hwsize.trans hr.weight) hr.parent
  have hlight₀ : ∀ k < m, 1 ≤ W₀ k ∧ W₀ k ≤ 2 ^ 32 := by
    intro k hk
    have hle := hlight _ (List.get_mem ls ⟨k, by omega⟩)
    simp only [W₀, hw k hk]
    exact hle
  have hordered : s₀.Ordered m W₀ := by
    refine ⟨?_, hlight₀, ?_, ?_, ?_, ?_⟩
    · intro k hk
      exact (Nat.mod_eq_of_lt (weight.val k).toNat_lt).symm
    · intro i j hij hj
      simp only [W₀, hw j hj, hw i (lt_of_le_of_lt hij hj)]
      rcases Nat.lt_or_eq_of_le hij with hlt | heq
      · exact List.pairwise_iff_get.mp hsorted ⟨i, by omega⟩ ⟨j, by omega⟩ hlt
      · subst heq
        exact le_rfl
    · intro i j hi hij hj
      simp only [s₀] at hi hj
      omega
    · intro k hk
      simp [Merge.picked, s₀] at hk
    · intro i hi hlt
      simp only [s₀] at hlt
      omega
  have hheavier : s₀.Heavier m W₀ := by
    refine ⟨?_, ?_, ?_⟩ <;> simp [Merge.picked, s₀]
  have hpaired : ∀ w, (∀ l ∈ ls, l.w = w) → s₀.Paired m w := by
    intro w hall
    have hleaf : ∀ k < m, weight.val k = w := fun k hk =>
      (hw k hk).trans (hall _ (List.get_mem ls ⟨k, by omega⟩))
    refine ⟨.inl rfl, ?_, hleaf, ?_⟩
    · intro _ k hk
      rw [show s₀.weight.val k = w from hleaf k hk]
      exact UInt64.le_refl w
    · simp [Merge.picked, s₀]
  obtain ⟨s, hrun, hf, hnext, ⟨W, ho, hh⟩, hp⟩ :=
    Merge.joins_induction
      (P := fun s => (∃ W, s.Ordered m W ∧ s.Heavier m W) ∧
        ∀ w, (∀ l ∈ ls, l.w = w) → s.Paired m w)
      hm
      (by
        intro s s' a b s₁ s₂ hf _ hj hsafe
        obtain ⟨⟨W, ho, hh⟩, hp⟩ := hsafe
        refine ⟨⟨joined W s a b, hj.ordered hf ho, hj.heavier hf ho hh⟩, ?_⟩
        intro w hall
        refine hj.paired ?_ hf (hp w hall)
        have hmem := List.get_mem ls ⟨0, by omega⟩
        rw [← hall _ hmem]
        exact (hlight _ hmem).2)
      (n := 2 * m - 1 - m) hforest (by simp only [s₀]; omega) ⟨⟨W₀, hordered, hheavier⟩, hpaired⟩
  have htree := hf.tree hm hnext
  let d₀ : Cells ℕ := ⟨r.d.size, Function.update r.d.val (2 * m - 2) 0⟩
  have hroot : r.d.set? (2 * m - 2) 0 = some d₀ := Cells.set?_eq_some (by rw [hr.d]; omega) 0
  have hd₀ : d₀.size = 2 * m - 1 := hr.d
  obtain ⟨d, maxD, hdeep, hdsize, hkeep, hbelow, -, hbound, hleast⟩ :=
    deepen_spec m s.parent (2 * m - 2) d₀ 0
      (by rw [hf.parent_size]; omega)
      (fun k hk => ⟨(htree.up k hk).2.1, by rw [hd₀]; exact (htree.up k hk).2.2⟩)
  have hdepths : Depths m s.parent.val d.val := by
    refine ⟨?_, hbelow⟩
    rw [hkeep _ le_rfl]
    exact Function.update_self _ _ _
  have hle : ∀ e, (∀ k < m, d.val k ≤ e) → maxD ≤ e := by
    intro e he
    exact hleast e (Nat.zero_le _) fun k _ hkm => he k hkm
  refine ⟨s, d, maxD, ?_, ?_, ⟨htree, hdepths, ?_, hle, ?_, ?_⟩⟩
  · simp only [Rebuild.grow, hfill, Option.bind_eq_bind, Option.bind_some]
    rw [show Merge.joins m (2 * m - 1 - m) ⟨0, m, m, weight, r.parent⟩ = some s from hrun]
    simp only [Option.bind_some, hroot, hdeep]
  · intro floor
    exact ⟨hf.weight_size, hf.parent_size, hdsize.trans hd₀⟩
  · intro k hk
    exact hbound k (by omega) hk
  · intro k hk
    exact hf.depth_lt hm hmax hnext ho hh hdepths hk
  · rintro ⟨w, hall⟩ e he
    apply hle
    intro k hk
    have hpairs := (hp w hall).parent
    rw [hf.picked_end hnext] at hpairs
    refine hdepths.le_of_paired hm (fun k hk => hpairs k (mem_range.mpr hk)) (by omega) ?_
    rw [pow_succ]
    omega

end

/-! ## Complete codes -/

variable {m limit : ℕ} {depth : Cells UInt8} {ls leaves : List Leaf} {d : Cells ℕ}

/-- What a code length takes of the room for codes. -/
def share (d : UInt8) : ℚ := if d = 0 then 0 else (1 / 2) ^ d.toNat

/-- Every used symbol and no other one has a code, within the limit, and no room is left. -/
structure Complete (freq : List UInt32) (limit : ℕ) (depth : List UInt8) : Prop where
  length_eq : depth.length = freq.length
  used : ∀ (s : ℕ) (f : UInt32) (d : UInt8),
    freq[s]? = some f → depth[s]? = some d → (0 < d ↔ 0 < f)
  limited : ∀ d ∈ depth, d.toNat ≤ limit
  kraft : (depth.map share).sum = 1

/-! ## Writing the lengths -/

theorem assign_spec (ls : List Leaf) (depth : Cells UInt8) (k : ℕ) (hd : k + ls.length ≤ d.size)
    (hnodup : (ls.map Leaf.sym).Nodup) (hsym : ∀ l ∈ ls, l.sym < depth.size) :
    ∃ depth', (ls.zipIdx k).foldlM (fun depth p => do
        let x ← d.get? p.2
        depth.set? p.1.sym (UInt8.ofNat x)) depth = some depth' ∧ depth'.size = depth.size ∧
      (∀ i (hi : i < ls.length), depth'.val (ls.get ⟨i, hi⟩).sym = UInt8.ofNat (d.val (k + i))) ∧
      ∀ s, s ∉ ls.map Leaf.sym → depth'.val s = depth.val s := by
  induction ls generalizing depth k with
  | nil => exact ⟨depth, rfl, rfl, by simp, fun s _ => rfl⟩
  | cons l ls ih =>
      have hlen : k + (ls.length + 1) ≤ d.size := by simpa using hd
      rw [List.map_cons, List.nodup_cons] at hnodup
      have hl := hsym l (List.mem_cons_self)
      let depth₁ : Cells UInt8 :=
        ⟨depth.size, Function.update depth.val l.sym (UInt8.ofNat (d.val k))⟩
      have hset : depth.set? l.sym (UInt8.ofNat (d.val k)) = some depth₁ := Cells.set?_eq_some hl _
      obtain ⟨depth', hrun, hsize, hval, hother⟩ :=
        ih depth₁ (k + 1) (by omega) hnodup.2 fun l' hl' => hsym l' (List.mem_cons_of_mem _ hl')
      refine ⟨depth', ?_, hsize, ?_, ?_⟩
      · rw [List.zipIdx_cons, List.foldlM_cons, Cells.get?_eq_some (by omega)]
        simp only [Option.bind_eq_bind, Option.bind_some]
        rw [hset]
        exact hrun
      · intro i hi
        cases i with
        | zero =>
            rw [show (l :: ls).get ⟨0, hi⟩ = l from rfl, hother l.sym hnodup.1]
            exact Function.update_self _ _ _
        | succ i =>
            have hi' : i < ls.length := by simpa using hi
            rw [show k + (i + 1) = k + 1 + i by omega]
            exact hval i hi'
      · intro s hs
        rw [List.map_cons, List.mem_cons, not_or] at hs
        rw [hother s hs.2]
        exact Function.update_of_ne hs.1 _ _

/-- A list summed cell by cell. -/
theorem toList_share_sum (depth : Cells UInt8) :
    (depth.toList.map share).sum = ∑ s ∈ range depth.size, share (depth.val s) := by
  rw [Cells.toList, List.map_map]
  rfl

theorem share_ofNat {x : ℕ} (hpos : 0 < x) (hlt : x < 256) :
    share (UInt8.ofNat x) = (1 / 2) ^ x := by
  have hval : (UInt8.ofNat x).toNat = x := by
    rw [UInt8.toNat_ofNat']
    exact Nat.mod_eq_of_lt hlt
  have hne : UInt8.ofNat x ≠ 0 := by
    intro heq
    have hzero : (UInt8.ofNat x).toNat = 0 := by
      rw [heq]
      rfl
    omega
  rw [share, if_neg hne, hval]

/-- The depths of a tree, written at the symbols of its leaves, are a complete code. -/
theorem assign_complete {freq : List UInt32} {s : Merge} {maxD : ℕ}
    (hdsize : d.size = 2 * m - 1) (hm : 2 ≤ m) (hlen : ls.length = m)
    (hperm : (ls.map Leaf.sym).Perm ((leavesOf freq).map Leaf.sym))
    (hg : Grown m ls s d maxD) (hle : maxD ≤ limit) :
    ∃ depth', assign ls d (Cells.make freq.length 0) = some depth' ∧
      Complete freq limit depth'.toList := by
  have hnodup : (ls.map Leaf.sym).Nodup := hperm.nodup_iff.mpr (leavesOf_nodup freq)
  have hused : ∀ t, t ∈ ls.map Leaf.sym ↔ ∃ f, freq[t]? = some f ∧ 0 < f := by
    intro t
    rw [hperm.mem_iff, List.mem_map]
    constructor
    · rintro ⟨l, hl, rfl⟩
      obtain ⟨f, hget, hpos, -⟩ := mem_leavesOf.mp hl
      exact ⟨f, hget, hpos⟩
    · rintro ⟨f, hget, hpos⟩
      exact ⟨⟨f.toUInt64, t⟩, mem_leavesOf.mpr ⟨f, hget, hpos, rfl⟩, rfl⟩
  have hsym : ∀ l ∈ ls, l.sym < freq.length := by
    intro l hl
    obtain ⟨f, hget, -⟩ := (hused l.sym).mp (List.mem_map_of_mem hl)
    exact (List.getElem?_eq_some_iff.mp hget).1
  obtain ⟨depth', hrun, hsize, hval, hother⟩ :=
    assign_spec (d := d) ls (Cells.make freq.length 0) 0 (by omega) hnodup hsym
  have hsize' : depth'.size = freq.length := hsize
  have hpos : ∀ k, k < m → 0 < d.val k := fun k hk => hg.depths.pos hm hk
  have hleaf : ∀ t ∈ ls.map Leaf.sym, ∃ k, k < m ∧ depth'.val t = UInt8.ofNat (d.val k) := by
    intro t ht
    rw [List.mem_map] at ht
    obtain ⟨l, hl, rfl⟩ := ht
    obtain ⟨⟨i, hi⟩, rfl⟩ := List.get_of_mem hl
    refine ⟨i, by omega, ?_⟩
    rw [hval i hi, Nat.zero_add]
  have htoNat : ∀ k, k < m → (UInt8.ofNat (d.val k)).toNat = d.val k := by
    intro k hk
    rw [UInt8.toNat_ofNat']
    exact Nat.mod_eq_of_lt (hg.byte k hk)
  refine ⟨depth', hrun, ?_, ?_, ?_, ?_⟩
  · rw [Cells.toList_length, hsize']
  · intro t f x hf hx
    have ht : t < depth'.size := by
      rw [hsize']
      exact (List.getElem?_eq_some_iff.mp hf).1
    rw [Cells.toList_getElem? depth' ht] at hx
    have hx' : depth'.val t = x := Option.some.inj hx
    by_cases hmem : t ∈ ls.map Leaf.sym
    · obtain ⟨k, hk, heq⟩ := hleaf t hmem
      obtain ⟨f', hf', hpos'⟩ := (hused t).mp hmem
      rw [hf] at hf'
      have hff : f = f' := Option.some.inj hf'
      have hxpos : 0 < x := by
        rw [← hx', heq, UInt8.lt_iff_toNat_lt, htoNat k hk]
        exact hpos k hk
      exact ⟨fun _ => hff ▸ hpos', fun _ => hxpos⟩
    · have hzero : x = 0 := by
        rw [← hx', hother t hmem]
        rfl
      constructor
      · intro hxpos
        rw [hzero] at hxpos
        exact absurd hxpos (by decide)
      · intro hfpos
        exact absurd ((hused t).mpr ⟨f, hf, hfpos⟩) hmem
  · intro x hx
    rw [Cells.toList, List.mem_map] at hx
    obtain ⟨t, -, rfl⟩ := hx
    by_cases hmem : t ∈ ls.map Leaf.sym
    · obtain ⟨k, hk, heq⟩ := hleaf t hmem
      rw [heq, htoNat k hk]
      exact (hg.bound k hk).trans hle
    · rw [hother t hmem]
      exact Nat.zero_le _
  · rw [toList_share_sum, ← hg.tree.kraft hg.depths]
    symm
    refine sum_of_injOn (fun i => (ls.map Leaf.sym).getD i 0) ?_ ?_ ?_ ?_
    · intro i hi j hj hij
      have hi' : i < (ls.map Leaf.sym).length := by simpa [hlen] using hi
      have hj' : j < (ls.map Leaf.sym).length := by simpa [hlen] using hj
      simp only [List.getD_eq_getElem _ _ hi', List.getD_eq_getElem _ _ hj'] at hij
      exact (List.Nodup.getElem_inj_iff hnodup).mp hij
    · intro i hi
      have hi' : i < (ls.map Leaf.sym).length := by simpa [hlen] using hi
      simp only [List.getD_eq_getElem _ _ hi', List.getElem_map, coe_range, Set.mem_Iio, hsize']
      exact hsym _ (List.getElem_mem _)
    · intro t ht hnot
      have hmem : t ∉ ls.map Leaf.sym := by
        intro hmem
        obtain ⟨i, hi, heq⟩ := List.getElem_of_mem hmem
        refine hnot ⟨i, by simpa [hlen] using hi, ?_⟩
        simp only [List.getD_eq_getElem _ _ hi, heq]
      rw [hother t hmem]
      rfl
    · intro i hi
      have him : i < m := mem_range.mp hi
      have hi' : i < (ls.map Leaf.sym).length := by
        rw [List.length_map]
        omega
      have hi'' : i < ls.length := by omega
      rw [List.getD_eq_getElem _ _ hi', List.getElem_map]
      have hcell := hval i hi''
      rw [List.get_eq_getElem] at hcell
      rw [show (ls[i]).sym = (ls[(⟨i, hi''⟩ : Fin ls.length)]).sym from rfl]
      rw [show depth'.val (ls[(⟨i, hi''⟩ : Fin ls.length)]).sym = UInt8.ofNat (d.val (0 + i)) from hcell,
        Nat.zero_add, share_ofNat (hpos i him) (hg.byte i him)]

/-! ## Raising the counts -/

theorem Rebuild.round_spec {freq : List UInt32} (hlen : (leavesOf freq).length = m) (hm : 2 ≤ m)
    (hmax : m < 2 ^ 63) (hlimit : m ≤ 2 ^ limit) {r : Rebuild} (hr : r.Fits m) {j : ℕ}
    (hj : j ≤ 32) (hfloor : r.floor.toNat = 2 ^ j) :
    (∃ depth', r.round (leavesOf freq) limit (Cells.make freq.length 0) = .done (some depth') ∧
      Complete freq limit depth'.toList) ∨
    (j < 32 ∧ ∃ r', r.round (leavesOf freq) limit (Cells.make freq.length 0) = .next r' ∧
      r'.Fits m ∧ r'.floor.toNat = 2 ^ (j + 1)) := by
  have hpow : 2 ^ j ≤ 2 ^ 32 := Nat.pow_le_pow_right (by norm_num) hj
  have hone : 1 ≤ 2 ^ j := Nat.one_le_two_pow
  have hweight : ∀ l ∈ raised (leavesOf freq) r.floor,
      ∃ f : UInt32, l.w.toNat = max f.toNat (2 ^ j) := by
    intro l hl
    obtain ⟨l₀, hl₀, -, hw⟩ := mem_raised hl
    obtain ⟨f, -, -, hf⟩ := mem_leavesOf.mp hl₀
    refine ⟨f, ?_⟩
    rw [hw, toNat_max, hfloor, hf, UInt32.toNat_toUInt64]
  have hlight : ∀ l ∈ raised (leavesOf freq) r.floor, 1 ≤ l.w.toNat ∧ l.w.toNat ≤ 2 ^ 32 := by
    intro l hl
    obtain ⟨f, hf⟩ := hweight l hl
    have hlt := f.toNat_lt
    omega
  obtain ⟨s, d, maxD, hgrow, hfits, hg⟩ :=
    Rebuild.grow_spec ((raised_length).trans hlen) hm hmax raised_sorted hlight hr
  by_cases hle : maxD ≤ limit
  · left
    obtain ⟨depth', hassign, hcomplete⟩ :=
      assign_complete (hfits 0).d hm ((raised_length).trans hlen) raised_syms hg hle
    refine ⟨depth', ?_, hcomplete⟩
    simp only [Rebuild.round, hlen, hgrow, if_pos hle, hassign]
  · right
    refine ⟨?_, ⟨r.floor * 2, s.weight, s.parent, d⟩, ?_, hfits _, ?_⟩
    · by_contra hnot
      have hj32 : j = 32 := by omega
      refine hle (hg.flat ⟨r.floor, ?_⟩ limit hlimit)
      intro l hl
      obtain ⟨f, hf⟩ := hweight l hl
      have hlt := f.toNat_lt
      apply UInt64.toNat.inj
      rw [hf, hfloor, hj32]
      omega
    · simp only [Rebuild.round, hlen, hgrow, if_neg hle]
    · rw [UInt64.toNat_mul, hfloor, pow_succ, show (2 : UInt64).toNat = 2 from rfl]
      exact Nat.mod_eq_of_lt (by omega)

theorem Rebuild.run_spec {freq : List UInt32} (hlen : (leavesOf freq).length = m) (hm : 2 ≤ m)
    (hmax : m < 2 ^ 63) (hlimit : m ≤ 2 ^ limit) {n j : ℕ} (hj : j + n = 32) {r : Rebuild}
    (hr : r.Fits m) (hfloor : r.floor.toNat = 2 ^ j) :
    ∃ depth', Loop.run (Rebuild.round (leavesOf freq) limit (Cells.make freq.length 0)) (n + 1) r =
        some (some depth') ∧ Complete freq limit depth'.toList := by
  induction n generalizing r j with
  | zero =>
      rcases Rebuild.round_spec hlen hm hmax hlimit hr (by omega) hfloor with
        ⟨depth', hround, hcomplete⟩ | ⟨hlt, -⟩
      · exact ⟨depth', Loop.run_done hround 0, hcomplete⟩
      · omega
  | succ n ih =>
      rcases Rebuild.round_spec hlen hm hmax hlimit hr (by omega) hfloor with
        ⟨depth', hround, hcomplete⟩ | ⟨hlt, r', hround, hr', hfloor'⟩
      · exact ⟨depth', Loop.run_done hround (n + 1), hcomplete⟩
      · obtain ⟨depth', hrun, hcomplete⟩ := ih (by omega) hr' hfloor'
        exact ⟨depth', (Loop.run_next hround (n + 1)).trans hrun, hcomplete⟩

/-- The number of symbols with a count. -/
def usedSymbols (freq : List UInt32) : ℕ := freq.countP fun f => decide (0 < f)

theorem leavesOf_length (freq : List UInt32) : (leavesOf freq).length = usedSymbols freq := by
  have hgen : ∀ k, ((freq.zipIdx k).filter fun p => decide (0 < p.1)).length =
      freq.countP fun f => decide (0 < f) := by
    induction freq with
    | nil => intro k; rfl
    | cons f freq ih =>
        intro k
        rw [List.zipIdx_cons, List.filter_cons, List.countP_cons]
        split <;> simp_all
  rw [leavesOf, List.length_map, hgen 0, usedSymbols]

/-- 33 trees are enough: then all counts are raised above any `uint32`. -/
theorem huffLengths_spec (freq : Slice UInt32) (hused : 2 ≤ usedSymbols freq.elems)
    (hlimit : usedSymbols freq.elems ≤ 2 ^ limit) :
    ∃ depth, (∀ fuel, 33 ≤ fuel → huffLengths fuel freq limit = some depth) ∧
      Complete freq.elems limit depth := by
  have hlen := leavesOf_length freq.elems
  have hmax : usedSymbols freq.elems < 2 ^ 63 := lt_of_le_of_lt List.countP_le_length freq.length_lt
  let r₀ : Rebuild := ⟨1, Cells.make (2 * usedSymbols freq.elems - 1) 0,
    Cells.make (2 * usedSymbols freq.elems - 1) 0, Cells.make (2 * usedSymbols freq.elems - 1) 0⟩
  obtain ⟨depth', hrun, hcomplete⟩ :=
    Rebuild.run_spec (n := 32) (j := 0) (r := r₀) hlen hused hmax hlimit rfl ⟨rfl, rfl, rfl⟩ rfl
  refine ⟨depth'.toList, ?_, hcomplete⟩
  intro fuel hfuel
  have hrun' := Loop.run_mono hrun hfuel
  rw [huffLengths]
  split
  · rename_i heq
    rw [heq, List.length_nil] at hlen
    omega
  · rename_i l heq
    rw [heq, List.length_singleton] at hlen
    omega
  · rename_i l l' rest heq
    simp only [Option.bind_eq_bind]
    rw [← heq, hlen, hrun']
    rfl

end Sky.Vp8l
