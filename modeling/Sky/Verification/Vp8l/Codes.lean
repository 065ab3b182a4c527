import Sky.Verification.Vp8l.Lengths

/-! # Canonical codes -/

namespace Sky.Vp8l

open Library Finset

/-- No code that is written starts another one. -/
structure HuffCode.PrefixFree (c : HuffCode) : Prop where
  used : ∀ s, s ∈ c.used ↔ ∃ d, c.depth[s]? = some d ∧ 0 < d
  put : ∀ s ∈ c.used, ∃ x, c.put s = some x
  apart : ∀ s ∈ c.used, ∀ t ∈ c.used, ∀ x y, c.put s = some x → c.put t = some y →
    x <+: y → s = t

variable {depth : List UInt8} {count next : Cells ℕ} {used : List ℕ}

/-! ## Counting the lengths -/

/-- How many symbols have a length. -/
def lengthCount (depth : List UInt8) (l : ℕ) : ℕ := depth.countP fun d => decide (0 < d ∧ d.toNat = l)

/-- The symbols with a length, numbered from `k`. -/
def usedFrom (k : ℕ) : List UInt8 → List ℕ
  | [] => []
  | d :: depth => if d > 0 then k :: usedFrom (k + 1) depth else usedFrom (k + 1) depth

theorem tally_spec (count : Cells ℕ) (used : List ℕ) (depth : List UInt8) (k : ℕ) (hbound : ∀ d ∈ depth, d.toNat < count.size) :
    ∃ count', (depth.zipIdx k).foldlM (fun st p =>
        if p.1 > 0 then do
          let n ← st.1.get? p.1.toNat
          let count ← st.1.set? p.1.toNat (n + 1)
          some (count, st.2 ++ [p.2])
        else some st) (count, used) = some (count', used ++ usedFrom k depth) ∧
      count'.size = count.size ∧ ∀ l, count'.val l = count.val l + lengthCount depth l := by
  induction depth generalizing count used k with
  | nil => exact ⟨count, by simp [usedFrom], rfl, fun l => rfl⟩
  | cons d depth ih =>
      have hd := hbound d List.mem_cons_self
      have hrest : ∀ x ∈ depth, x.toNat < count.size :=
        fun x hx => hbound x (List.mem_cons_of_mem _ hx)
      by_cases hpos : d > 0
      · let count₁ : Cells ℕ :=
          ⟨count.size, Function.update count.val d.toNat (count.val d.toNat + 1)⟩
        have hset : count.set? d.toNat (count.val d.toNat + 1) = some count₁ :=
          Cells.set?_eq_some hd _
        obtain ⟨count', hrun, hsize, hval⟩ :=
          ih count₁ (used ++ [k]) (k + 1) hrest
        refine ⟨count', ?_, hsize, ?_⟩
        · rw [List.zipIdx_cons, List.foldlM_cons, if_pos hpos, Cells.get?_eq_some hd]
          simp only [Option.bind_eq_bind, Option.bind_some]
          rw [hset, usedFrom, if_pos hpos]
          simp only [Option.bind_some]
          rw [List.append_assoc, List.singleton_append] at hrun
          exact hrun
        · intro l
          rw [hval l, lengthCount, lengthCount, List.countP_cons]
          by_cases hl : d.toNat = l
          · subst hl
            rw [show count₁.val d.toNat = count.val d.toNat + 1 from Function.update_self _ _ _,
              if_pos (decide_eq_true ⟨hpos, rfl⟩)]
            omega
          · rw [show count₁.val l = count.val l from Function.update_of_ne (fun h => hl h.symm) _ _,
              if_neg (by simp [hl]), Nat.add_zero]
      · obtain ⟨count', hrun, hsize, hval⟩ := ih count used (k + 1) hrest
        refine ⟨count', ?_, hsize, ?_⟩
        · rw [List.zipIdx_cons, List.foldlM_cons, if_neg hpos, usedFrom, if_neg hpos]
          exact hrun
        · intro l
          have hpos' : ¬ 0 < d := hpos
          rw [hval l, lengthCount, lengthCount, List.countP_cons, if_neg (by simp [hpos'])]
          rfl

/-- A length above the table is an index out of range. -/
theorem tally_long (count : Cells ℕ) (used : List ℕ) (depth : List UInt8) (k : ℕ) {d : UInt8} (hmem : d ∈ depth)
    (hlong : count.size ≤ d.toNat) :
    (depth.zipIdx k).foldlM (fun (st : Cells ℕ × List ℕ) p =>
        if p.1 > 0 then do
          let n ← st.1.get? p.1.toNat
          let count ← st.1.set? p.1.toNat (n + 1)
          some (count, st.2 ++ [p.2])
        else some st) (count, used) = none ∨ count.size = 0 := by
  induction depth generalizing count used k with
  | nil => exact absurd hmem List.not_mem_nil
  | cons e depth ih =>
      by_cases hpos : e > 0
      · by_cases he : e.toNat < count.size
        · have hd : d ∈ depth := by
            rcases List.mem_cons.mp hmem with heq | hd
            · rw [heq] at hlong
              omega
            · exact hd
          rcases ih ⟨count.size, Function.update count.val e.toNat (count.val e.toNat + 1)⟩
            (used ++ [k]) (k + 1) hd hlong with hnone | hzero
          · left
            rw [List.zipIdx_cons, List.foldlM_cons, if_pos hpos, Cells.get?_eq_some he]
            simp only [Option.bind_eq_bind, Option.bind_some]
            rw [Cells.set?_eq_some he]
            exact hnone
          · exact .inr hzero
        · left
          rw [List.zipIdx_cons, List.foldlM_cons, if_pos hpos, Cells.get?, if_neg he]
          rfl
      · rcases List.mem_cons.mp hmem with heq | hd
        · have hzero : e.toNat = 0 := by
            have hle := UInt8.not_lt.mp hpos
            have hle' := UInt8.le_iff_toNat_le.mp hle
            exact Nat.le_zero.mp hle'
          rw [heq, hzero] at hlong
          exact .inr (Nat.le_zero.mp hlong)
        · rcases ih count used (k + 1) hd hlong with hnone | hzero
          · left
            rw [List.zipIdx_cons, List.foldlM_cons, if_neg hpos]
            exact hnone
          · exact .inr hzero

theorem mem_usedFrom {s k : ℕ} :
    s ∈ usedFrom k depth ↔ k ≤ s ∧ ∃ d, depth[s - k]? = some d ∧ 0 < d := by
  induction depth generalizing k with
  | nil => simp [usedFrom]
  | cons d depth ih =>
      have hrest : s ∈ usedFrom (k + 1) depth ↔
          k + 1 ≤ s ∧ ∃ x, (d :: depth)[s - k]? = some x ∧ 0 < x := by
        rw [ih]
        apply and_congr_right
        intro hle
        rw [show s - k = (s - (k + 1)) + 1 by omega, List.getElem?_cons_succ]
      by_cases hpos : d > 0
      · rw [usedFrom, if_pos hpos, List.mem_cons, hrest]
        constructor
        · rintro (rfl | ⟨hle, hx⟩)
          · exact ⟨le_rfl, d, by simp, hpos⟩
          · exact ⟨by omega, hx⟩
        · rintro ⟨hle, hx⟩
          by_cases heq : s = k
          · exact .inl heq
          · exact .inr ⟨by omega, hx⟩
      · rw [usedFrom, if_neg hpos, hrest]
        constructor
        · rintro ⟨hle, hx⟩
          exact ⟨by omega, hx⟩
        · rintro ⟨hle, x, hx, hxpos⟩
          refine ⟨?_, x, hx, hxpos⟩
          by_contra hlt
          rw [show s - k = 0 by omega, List.getElem?_cons_zero] at hx
          exact hpos (Option.some.inj hx ▸ hxpos)

theorem usedFrom_nodup (k : ℕ) (depth : List UInt8) : (usedFrom k depth).Nodup := by
  induction depth generalizing k with
  | nil => exact List.nodup_nil
  | cons d depth ih =>
      rw [usedFrom]
      split
      · rw [List.nodup_cons]
        refine ⟨?_, ih (k + 1)⟩
        rw [mem_usedFrom]
        omega
      · exact ih (k + 1)

/-- Every symbol counted for a length is used. -/
theorem usedFrom_countP (k : ℕ) (depth : List UInt8) (l : ℕ) :
    ((usedFrom k depth).countP fun s => decide ((depth[s - k]?.getD 0).toNat = l)) =
      lengthCount depth l := by
  induction depth generalizing k with
  | nil => rfl
  | cons d depth ih =>
      have hrest : ((usedFrom (k + 1) depth).countP fun s =>
          decide (((d :: depth)[s - k]?.getD 0).toNat = l)) = lengthCount depth l := by
        rw [← ih (k + 1)]
        apply List.countP_congr
        intro s hs
        have hle := (mem_usedFrom.mp hs).1
        rw [show s - k = (s - (k + 1)) + 1 by omega, List.getElem?_cons_succ]
      by_cases hpos : d > 0
      · rw [usedFrom, if_pos hpos, List.countP_cons, hrest, lengthCount, lengthCount,
          List.countP_cons, Nat.sub_self, List.getElem?_cons_zero, Option.getD_some]
        have hpos' : 0 < d := hpos
        simp [hpos']
      · have hpos' : ¬ 0 < d := hpos
        rw [usedFrom, if_neg hpos, hrest, lengthCount, lengthCount, List.countP_cons,
          if_neg (by simp [hpos'])]
        rfl

/-- What the lengths take, length by length. -/
theorem share_sum (hbound : ∀ d ∈ depth, d.toNat ≤ maxCodeLen) :
    (depth.map share).sum = ∑ l ∈ range (maxCodeLen + 1), (lengthCount depth l : ℚ) / 2 ^ l := by
  induction depth with
  | nil => simp [lengthCount]
  | cons d depth ih =>
      have hd := hbound d List.mem_cons_self
      rw [List.map_cons, List.sum_cons, ih fun x hx => hbound x (List.mem_cons_of_mem _ hx)]
      have hone : share d = ∑ l ∈ range (maxCodeLen + 1),
          ((if 0 < d ∧ d.toNat = l then 1 else 0 : ℕ) : ℚ) / 2 ^ l := by
        by_cases hzero : d = 0
        · subst hzero
          simp [share]
        · have hpos : 0 < d := by
            rw [UInt8.lt_iff_toNat_lt]
            refine Nat.pos_of_ne_zero fun heq => hzero (UInt8.toNat.inj heq)
          rw [sum_eq_single_of_mem d.toNat (mem_range.mpr (by omega))]
          · rw [if_pos ⟨hpos, rfl⟩, share, if_neg hzero, one_div, inv_pow]
            simp
          · intro l _ hl
            rw [if_neg fun h => hl h.2.symm]
            simp
      rw [hone, ← sum_add_distrib]
      apply sum_congr rfl
      intro l _
      rw [← add_div, lengthCount, lengthCount, List.countP_cons]
      push_cast
      rw [add_comm]
      congr 2
      simp

/-! ## The first codes -/

theorem firsts_spec (count next : Cells ℕ) (hcount : count.size = maxCodeLen + 1) (hnext : next.size = maxCodeLen + 1) :
    ∃ code next', firsts count next = some (code, next') ∧ next'.size = maxCodeLen + 1 ∧
      ∀ l, 1 ≤ l → l ≤ maxCodeLen → next'.val l = firstCode count.val l := by
  have hgen : ∀ n, n ≤ maxCodeLen → ∃ next',
      (List.range' 1 n).foldlM (fun (st : ℕ × Cells ℕ) l => do
        let n ← count.get? (l - 1)
        let code := (st.1 + n) * 2
        let next ← st.2.set? l code
        some (code, next)) (0, next) = some (firstCode count.val n, next') ∧
      next'.size = maxCodeLen + 1 ∧
      ∀ l, 1 ≤ l → l ≤ n → next'.val l = firstCode count.val l := by
    intro n
    induction n with
    | zero =>
        intro _
        exact ⟨next, rfl, hnext, fun l hl hl' => by omega⟩
    | succ n ih =>
        intro hn
        obtain ⟨next', hrun, hsize, hval⟩ := ih (by omega)
        refine ⟨⟨next'.size, Function.update next'.val (1 + n) (firstCode count.val (n + 1))⟩,
          ?_, hsize, ?_⟩
        · rw [List.range'_1_concat, List.foldlM_append, hrun]
          simp only [Option.bind_eq_bind, Option.bind_some, List.foldlM_cons, List.foldlM_nil]
          rw [Cells.get?_eq_some (by omega)]
          simp only [Option.bind_some]
          rw [Cells.set?_eq_some (by omega), Nat.add_sub_cancel_left]
          rfl
        · intro l hl hl'
          by_cases heq : l = 1 + n
          · subst heq
            rw [Nat.add_comm n 1]
            exact Function.update_self _ _ _
          · exact (Function.update_of_ne heq _ _).trans (hval l hl (by omega))
  obtain ⟨next', hrun, hsize, hval⟩ := hgen maxCodeLen le_rfl
  exact ⟨_, next', hrun, hsize, hval⟩

/-! ## Numbering the symbols -/

/-- The length of a symbol. -/
def lengthOf (depth : List UInt8) (s : ℕ) : UInt8 := depth[s]?.getD 0

theorem number_spec (used : List ℕ) (next : Cells ℕ) (code : Cells (BitVec 16)) (hcode : code.size = depth.length)
    (hused : ∀ s ∈ used, s < depth.length) (hnodup : used.Nodup)
    (hlen : ∀ s ∈ used, (lengthOf depth s).toNat < next.size) :
    ∃ next' code', number depth used next code = some (next', code') ∧
      code'.size = depth.length ∧
      (∀ i (hi : i < used.length), code'.val used[i] =
        reversed (next.val (lengthOf depth used[i]).toNat +
          (used.take i).countP fun s => decide (lengthOf depth s = lengthOf depth used[i]))
          (lengthOf depth used[i])) ∧
      ∀ s, s ∉ used → code'.val s = code.val s := by
  induction used generalizing next code with
  | nil => exact ⟨next, code, rfl, hcode, by simp, fun s _ => rfl⟩
  | cons s used ih =>
      rw [List.nodup_cons] at hnodup
      have hs := hused s List.mem_cons_self
      have hd := hlen s List.mem_cons_self
      let next₁ : Cells ℕ := ⟨next.size, Function.update next.val (lengthOf depth s).toNat
        (next.val (lengthOf depth s).toNat + 1)⟩
      let code₁ : Cells (BitVec 16) := ⟨code.size, Function.update code.val s
        (reversed (next.val (lengthOf depth s).toNat) (lengthOf depth s))⟩
      obtain ⟨next', code', hrun, hsize, hval, hother⟩ := ih next₁ code₁ hcode
        (fun t ht => hused t (List.mem_cons_of_mem _ ht)) hnodup.2
        (fun t ht => hlen t (List.mem_cons_of_mem _ ht))
      have hget : depth[s]? = some (lengthOf depth s) := by
        rw [lengthOf, List.getElem?_eq_getElem hs, Option.getD_some]
      refine ⟨next', code', ?_, hsize, ?_, ?_⟩
      · rw [number, List.foldlM_cons, hget]
        simp only [Option.bind_eq_bind, Option.bind_some]
        rw [Cells.get?_eq_some hd]
        simp only [Option.bind_some]
        rw [Cells.set?_eq_some hd, Option.bind_some, Cells.set?_eq_some (by omega),
          Option.bind_some]
        exact hrun
      · intro i hi
        cases i with
        | zero =>
            rw [List.getElem_cons_zero, hother s hnodup.1]
            rw [List.take_zero, List.countP_nil, Nat.add_zero]
            exact Function.update_self _ _ _
        | succ i =>
            have hi' : i < used.length := by simpa using hi
            rw [List.getElem_cons_succ, hval i hi', List.take_succ_cons, List.countP_cons]
            congr 1
            by_cases heq : lengthOf depth s = lengthOf depth used[i]
            · rw [if_pos (decide_eq_true heq), ← heq]
              rw [show next₁.val (lengthOf depth s).toNat =
                next.val (lengthOf depth s).toNat + 1 from Function.update_self _ _ _]
              omega
            · have hne : (lengthOf depth used[i]).toNat ≠ (lengthOf depth s).toNat :=
                fun h => heq (UInt8.toNat.inj h.symm)
              rw [if_neg (by simpa using heq), Nat.add_zero]
              congr 1
              exact Function.update_of_ne hne _ _
      · intro t ht
        rw [List.mem_cons, not_or] at ht
        rw [hother t ht.2]
        exact Function.update_of_ne ht.1 _ _

/-- The bits that are written of a code, the lowest first, are the highest first of its number. -/
theorem reversed_bits {v : ℕ} {d : UInt8} (hpos : 0 < d.toNat) (hd : d.toNat ≤ maxCodeLen) :
    (List.range d.toNat).map (reversed v d).getLsbD = bitsOf v d.toNat := by
  have hmax : maxCodeLen = 15 := rfl
  have hshift : (16 - d).toNat = 16 - d.toNat := by
    have hle : d ≤ 16 := by
      rw [UInt8.le_iff_toNat_le, show (16 : UInt8).toNat = 16 from rfl]
      omega
    rw [UInt8.toNat_sub_of_le _ _ hle]
    rfl
  rw [bitsOf]
  apply List.map_congr_left
  intro i hi
  have hid : i < d.toNat := List.mem_range.mp hi
  rw [reversed, hshift, BitVec.getLsbD_ushiftRight, BitVec.getLsbD_reverse,
    BitVec.getMsbD_eq_getLsbD, BitVec.getLsbD_ofNat, show 16 - 1 - (16 - d.toNat + i) = d.toNat - 1 - i by omega]
  rw [decide_eq_true (by omega), decide_eq_true (by omega), Bool.true_and, Bool.true_and]

/-! ## The codes of a histogram -/

/-- Two used symbols with one length and one rank are one symbol. -/
theorem rank_inj {l : List ℕ} {p : ℕ → Prop} [DecidablePred p] {i j : ℕ} (hi : i < l.length)
    (hj : j < l.length) (hpi : p l[i]) (hpj : p l[j])
    (h : (l.take i).countP (fun s => decide (p s)) = (l.take j).countP fun s => decide (p s)) :
    i = j := by
  have hlt : ∀ {i j : ℕ} (hij : i < j) (hi : i < l.length), p l[i] →
      (l.take i).countP (fun s => decide (p s)) < (l.take j).countP fun s => decide (p s) := by
    intro i j hij hi hp
    have hsub : (l.take (i + 1)).Sublist (l.take j) := List.take_sublist_take_left hij
    have hle := hsub.countP_le (p := fun s => decide (p s))
    rw [List.take_succ_eq_append_getElem hi, List.countP_append, List.countP_singleton,
      if_pos (decide_eq_true hp)] at hle
    omega
  rcases Nat.lt_trichotomy i j with hij | hij | hij
  · have hrank := hlt hij hi hpi
    omega
  · exact hij
  · have hrank := hlt hij hj hpj
    omega

theorem rank_lt {l : List ℕ} {p : ℕ → Prop} [DecidablePred p] {i : ℕ} (hi : i < l.length)
    (hp : p l[i]) :
    (l.take i).countP (fun s => decide (p s)) < l.countP fun s => decide (p s) := by
  have hle := (List.take_sublist (i + 1) l).countP_le (p := fun s => decide (p s))
  rw [List.take_succ_eq_append_getElem hi, List.countP_append, List.countP_singleton,
    if_pos (decide_eq_true hp)] at hle
  omega

theorem codeFromDepth_spec (hbound : ∀ d ∈ depth, d.toNat ≤ maxCodeLen)
    (hkraft : (depth.map share).sum ≤ 1) : ∃ c, codeFromDepth depth = some c ∧ c.PrefixFree := by
  obtain ⟨count, htally, hcsize, hcval⟩ :=
    tally_spec (Cells.make (maxCodeLen + 1) 0) [] depth 0
      (fun d hd => Nat.lt_succ_of_le (hbound d hd))
  have hcount : ∀ l, count.val l = lengthCount depth l := by
    intro l
    rw [hcval l]
    exact Nat.zero_add _
  obtain ⟨last, next, hfirsts, hnsize, hnval⟩ :=
    firsts_spec count (Cells.make (maxCodeLen + 1) 0) hcsize rfl
  have hused : ∀ s, s ∈ usedFrom 0 depth ↔ ∃ d, depth[s]? = some d ∧ 0 < d := by
    intro s
    rw [mem_usedFrom, Nat.sub_zero]
    exact ⟨fun h => h.2, fun h => ⟨Nat.zero_le _, h⟩⟩
  have hlength : ∀ s ∈ usedFrom 0 depth, depth[s]? = some (lengthOf depth s) ∧
      0 < (lengthOf depth s).toNat ∧ (lengthOf depth s).toNat ≤ maxCodeLen ∧ s < depth.length := by
    intro s hs
    obtain ⟨d, hget, hpos⟩ := (hused s).mp hs
    have hd : lengthOf depth s = d := by
      rw [lengthOf, hget, Option.getD_some]
    rw [hd]
    exact ⟨hget, UInt8.lt_iff_toNat_lt.mp hpos, hbound d (List.mem_of_getElem? hget),
      (List.getElem?_eq_some_iff.mp hget).1⟩
  obtain ⟨next', code, hnumber, hsize, hval, -⟩ :=
    number_spec (usedFrom 0 depth) next (Cells.make depth.length 0) rfl (fun s hs => (hlength s hs).2.2.2)
      (usedFrom_nodup 0 depth) (fun s hs => by
        rw [hnsize]
        exact Nat.lt_succ_of_le (hlength s hs).2.2.1)
  let c : HuffCode := ⟨depth, code.toList, usedFrom 0 depth, (usedFrom 0 depth).length = 1⟩
  have hroom : ∑ l ∈ range (maxCodeLen + 1), (count.val l : ℚ) / 2 ^ l ≤ 1 := by
    simp only [hcount]
    rw [← share_sum hbound]
    exact hkraft
  -- the word of the symbol at position `i` of the used ones, and its rank among its length
  have hword : ∀ i (hi : i < (usedFrom 0 depth).length), c.single = false →
      ∃ r, r < count.val (lengthOf depth (usedFrom 0 depth)[i]).toNat ∧
        r = ((usedFrom 0 depth).take i).countP (fun s =>
          decide (lengthOf depth s = lengthOf depth (usedFrom 0 depth)[i])) ∧
        c.put (usedFrom 0 depth)[i] =
          some (bitsOf (firstCode count.val (lengthOf depth (usedFrom 0 depth)[i]).toNat + r)
            (lengthOf depth (usedFrom 0 depth)[i]).toNat) := by
    intro i hi hsingle
    obtain ⟨hget, hpos, hle, hlt⟩ := hlength _ (List.getElem_mem hi)
    refine ⟨_, ?_, rfl, ?_⟩
    · have hrank := rank_lt (p := fun s => lengthOf depth s = lengthOf depth (usedFrom 0 depth)[i])
        hi rfl
      rw [hcount, ← usedFrom_countP 0]
      refine lt_of_lt_of_eq hrank ?_
      apply List.countP_congr
      intro s _
      simp only [decide_eq_true_eq, Nat.sub_zero]
      exact ⟨fun h => congrArg UInt8.toNat h, fun h => UInt8.toNat.inj h⟩
    · have hcode : c.code[(usedFrom 0 depth)[i]]? = some (code.val (usedFrom 0 depth)[i]) :=
        Cells.toList_getElem? code (by rw [hsize]; exact hlt)
      have hdepth : c.depth[(usedFrom 0 depth)[i]]? =
          some (lengthOf depth (usedFrom 0 depth)[i]) := hget
      rw [HuffCode.put, hsingle, if_neg Bool.false_ne_true, hcode, hdepth]
      simp only [Option.bind_eq_bind, Option.bind_some]
      rw [hval i hi, reversed_bits hpos hle, hnval _ hpos hle]
  refine ⟨c, ?_, hused, ?_, ?_⟩
  · have htally' : tally depth (Cells.make (maxCodeLen + 1) 0) =
        some (count, usedFrom 0 depth) := htally
    simp only [codeFromDepth, htally', hfirsts, hnumber, Option.bind_eq_bind, Option.bind_some]
    rfl
  · intro s hs
    cases hsingle : c.single with
    | true => exact ⟨[], by rw [HuffCode.put, hsingle, if_pos rfl]⟩
    | false =>
        obtain ⟨i, hi, rfl⟩ := List.getElem_of_mem (show s ∈ usedFrom 0 depth from hs)
        obtain ⟨r, -, -, hput⟩ := hword i hi hsingle
        exact ⟨_, hput⟩
  · intro s hs t ht x y hx hy hxy
    obtain ⟨i, hi, rfl⟩ := List.getElem_of_mem (show s ∈ usedFrom 0 depth from hs)
    obtain ⟨j, hj, rfl⟩ := List.getElem_of_mem (show t ∈ usedFrom 0 depth from ht)
    cases hsingle : c.single with
    | true =>
        have hone : (usedFrom 0 depth).length = 1 := of_decide_eq_true hsingle
        have hij : i = j := by omega
        subst hij
        rfl
    | false =>
        obtain ⟨r, hr, hrank, hput⟩ := hword i hi hsingle
        obtain ⟨r', hr', hrank', hput'⟩ := hword j hj hsingle
        obtain ⟨-, -, hle, -⟩ := hlength _ (List.getElem_mem hi)
        obtain ⟨-, -, hle', -⟩ := hlength _ (List.getElem_mem hj)
        have hxe := Option.some.inj (hput.symm.trans hx)
        have hye := Option.some.inj (hput'.symm.trans hy)
        rw [← hxe, ← hye] at hxy
        obtain ⟨hd, hrr⟩ := canonical_prefixFree hroom hle hle' hr hr' hxy
        have hd' := UInt8.toNat.inj hd
        have hij : i = j := by
          refine rank_inj (p := fun s => lengthOf depth s = lengthOf depth (usedFrom 0 depth)[i])
            hi hj rfl hd'.symm ?_
          rw [← hrank, hrr, hrank', hd']
        subst hij
        rfl

/-- Codes exist for lengths that fit the table only. -/
theorem bound_of_codeFromDepth {c : HuffCode} (h : codeFromDepth depth = some c) :
    ∀ d ∈ depth, d.toNat ≤ maxCodeLen := by
  intro d hd
  by_contra hlong
  have hlong' : (Cells.make (maxCodeLen + 1) 0 : Cells ℕ).size ≤ d.toNat := by
    rw [Cells.make_size]
    omega
  rcases tally_long _ [] depth 0 hd hlong' with hnone | hzero
  · have htally : tally depth (Cells.make (maxCodeLen + 1) 0) = none := hnone
    rw [codeFromDepth, htally] at h
    exact absurd h (by simp)
  · exact absurd hzero (Nat.succ_ne_zero _)

end Sky.Vp8l
