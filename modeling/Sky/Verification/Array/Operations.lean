import Sky.Verification.Array.Trie

/-! # The operations on one version

Each operation of `arrayTrie` on an array that represents a list. -/

namespace Sky.Array

variable {α β σ : Type*} {t : ArrayTrie α} {xs ys : List α} {i : ℕ} {x : α}

/-! ## Representation -/

theorem tailOff_eq (h : 0 < t.cnt) : t.tailOff = (t.cnt - 1) / 32 * 32 := by
  rw [ArrayTrie.tailOff, arrWidth, arrBits]
  split_ifs with hlt
  · rw [Nat.div_eq_of_lt (by omega), Nat.zero_mul]
  · rw [Nat.shiftRight_eq_div_pow, Nat.shiftLeft_eq]

/-- The trie of height `d` holds the elements before the tail. -/
structure Trunk (d : ℕ) (t : ArrayTrie α) (xs : List α) : Prop where
  shift : t.shift = arrBits * (d + 1)
  bound : t.tailOff ≤ 32 ^ (d + 2)
  holds : Holds (d + 1) (t.root.getD emptyNode) (fun i => xs[i]?) t.tailOff
  root : 0 < t.tailOff → t.root.isSome = true

/-- The trie and the tail hold the list. -/
structure Rep (t : ArrayTrie α) (xs : List α) : Prop where
  cnt : t.cnt = xs.length
  pos : 0 < t.cnt
  trunk : ∃ d, Trunk d t xs
  tail : t.tail = xs.drop t.tailOff

/-- The list that a `SkyArray` represents. -/
def Represents : SkyArray α → List α → Prop
  | none, xs => xs = []
  | some t, xs => Rep t xs

theorem Rep.tailOff_lt (h : Rep t xs) : t.tailOff < t.cnt := by
  have := tailOff_eq h.pos
  have := h.pos
  omega

theorem Rep.cnt_le (h : Rep t xs) : t.cnt ≤ t.tailOff + 32 := by
  have := tailOff_eq h.pos
  omega

theorem Rep.dvd_tailOff (h : Rep t xs) : 32 ∣ t.tailOff := by
  rw [tailOff_eq h.pos]
  exact ⟨_, Nat.mul_comm _ _⟩

theorem Rep.length_tail (h : Rep t xs) : t.tail.length = t.cnt - t.tailOff := by
  rw [h.tail, List.length_drop, h.cnt]

theorem represents_singleton (x : α) : Represents (some ⟨1, arrBits, none, [x]⟩) [x] :=
  ⟨rfl, Nat.one_pos,
    ⟨0, rfl, Nat.zero_le _, holds_emptyNode 0 _, fun h => absurd h (Nat.lt_irrefl 0)⟩, rfl⟩

theorem length_eq {a : SkyArray α} (h : Represents a xs) : length a = xs.length := by
  cases a with
  | none =>
      obtain rfl : xs = [] := h
      rfl
  | some t => exact Rep.cnt h

/-! ## Push -/

theorem holds_blockOf (h : xs.length = 32) : Holds 0 (blockOf xs) (fun i => xs[i]?) 32 := by
  refine holds_zero.mpr ⟨rfl, fun j => ?_⟩
  have hlt : j.val < xs.length := by omega
  have hj := List.getElem?_eq_getElem hlt
  exact ⟨_, hj, by rw [blockOf, hj]; rfl⟩

theorem Rep.push_tail (h : Rep t xs) (hfree : t.cnt - t.tailOff < 32) (x : α) :
    Rep ⟨t.cnt + 1, t.shift, t.root, t.tail ++ [x]⟩ (xs ++ [x]) := by
  have hlt := h.tailOff_lt
  have hoff : (⟨t.cnt + 1, t.shift, t.root, t.tail ++ [x]⟩ : ArrayTrie α).tailOff = t.tailOff := by
    rw [tailOff_eq (Nat.succ_pos _), tailOff_eq h.pos]
    have := tailOff_eq h.pos
    simp only [Nat.add_sub_cancel]
    omega
  obtain ⟨d, hd⟩ := h.trunk
  refine ⟨?_, Nat.succ_pos _, ⟨d, hd.shift, by rw [hoff]; exact hd.bound, ?_,
    by rw [hoff]; exact hd.root⟩, ?_⟩
  · rw [List.length_append, h.cnt]
    rfl
  · rw [hoff]
    refine hd.holds.congr fun i hi => ?_
    rw [List.getElem?_append_left (by rw [← h.cnt]; omega)]
  · rw [hoff, h.tail, List.drop_append_of_le_length (by rw [← h.cnt]; omega)]

theorem shiftLeft_level (d : ℕ) : 1 <<< (arrBits * d) = 32 ^ d := by
  rw [Nat.shiftLeft_eq, Nat.one_mul, arrBits, Nat.pow_mul]

theorem shiftRight_bits (n : ℕ) : n >>> arrBits = n / 32 := Nat.shiftRight_eq_div_pow n 5

/-- The full tail as the block after the trie. -/
theorem Rep.holds_tail (h : Rep t xs) (hcnt : t.cnt = t.tailOff + 32) :
    Holds 0 (blockOf t.tail) (fun i => xs[t.tailOff + i]?) 32 := by
  refine (holds_blockOf (by rw [h.length_tail]; omega)).congr fun i _ => ?_
  rw [h.tail, List.getElem?_drop]

/-- A new tail after a root that took in the full one. -/
theorem Rep.push_full (h : Rep t xs) (hcnt : t.cnt = t.tailOff + 32) (x : α) (d : ℕ) {shift : ℕ}
    {root : ArrNode α} (hshift : shift = arrBits * (d + 1)) (hbound : t.tailOff + 32 ≤ 32 ^ (d + 2))
    (hholds : Holds (d + 1) root (fun i => xs[i]?) (t.tailOff + 32)) :
    Rep ⟨t.cnt + 1, shift, some root, [x]⟩ (xs ++ [x]) := by
  have hoff : (⟨t.cnt + 1, shift, some root, [x]⟩ : ArrayTrie α).tailOff = t.tailOff + 32 := by
    have := tailOff_eq h.pos
    rw [tailOff_eq (Nat.succ_pos _)]
    simp only [Nat.add_sub_cancel]
    omega
  have hlen := h.cnt
  refine ⟨?_, Nat.succ_pos _, ⟨d, hshift, by rwa [hoff], ?_, fun _ => rfl⟩, ?_⟩
  · rw [List.length_append, h.cnt]
    rfl
  · rw [hoff]
    refine hholds.congr fun i hi => ?_
    rw [List.getElem?_append_left (by omega)]
  · rw [hoff, List.drop_append_of_le_length (by omega), List.drop_of_length_le (by omega)]
    rfl

theorem push_spec {a : SkyArray α} (h : Represents a xs) (x : α) :
    ∃ b, push a x = some b ∧ Represents b (xs ++ [x]) := by
  cases a with
  | none =>
      obtain rfl : xs = [] := h
      exact ⟨_, rfl, represents_singleton x⟩
  | some t =>
      have h : Rep t xs := h
      have hlt := h.tailOff_lt
      have hle := h.cnt_le
      rw [push, if_neg (by omega)]
      split_ifs with hfree hfull
      · exact ⟨_, rfl, h.push_tail hfree x⟩
      · have hcnt : t.cnt = t.tailOff + 32 := by
          simp only [arrWidth] at hfree
          omega
        obtain ⟨d, hd⟩ := h.trunk
        rw [hd.shift, shiftLeft_level, shiftRight_bits, hcnt] at hfull
        have hbound := hd.bound
        rw [Nat.pow_succ] at hbound
        have heq : t.tailOff = 32 ^ (d + 2) := by
          rw [Nat.pow_succ]
          omega
        obtain ⟨old, hold⟩ := Option.isSome_iff_exists.mp
          (hd.root (by rw [heq]; exact Nat.pow_pos (by decide)))
        obtain ⟨path, hpath, hholds⟩ := newPath_spec (h.holds_tail hcnt) (d + 1)
        have hroot := hd.holds
        rw [hold, Option.getD_some, heq] at hroot
        rw [heq] at hholds
        have hgrown := grow_spec hroot hholds
        rw [← heq] at hgrown
        refine ⟨_, by
          simp only [hold, hd.shift, Option.bind_eq_bind, Option.bind_some, hpath]; rfl, ?_⟩
        refine h.push_full hcnt x (d + 1) ?_ ?_ hgrown
        · rfl
        · rw [heq, Nat.pow_succ 32 (d + 2)]
          have := le_pow_succ (d + 1)
          omega
      · have hcnt : t.cnt = t.tailOff + 32 := by
          simp only [arrWidth] at hfree
          omega
        obtain ⟨d, hd⟩ := h.trunk
        rw [hd.shift, shiftLeft_level, shiftRight_bits, hcnt] at hfull
        have hdvd := h.dvd_tailOff
        have hroom : t.tailOff + 32 ≤ 32 ^ (d + 2) := by
          rw [Nat.pow_succ]
          omega
        have hplace : (t.cnt - 1) % 32 ^ (d + 2) = t.tailOff + 31 := by
          rw [hcnt, Nat.mod_eq_of_lt (by omega)]
          omega
        obtain ⟨root, hroot, hholds⟩ := pushTail_spec hd.holds hplace hdvd (h.holds_tail hcnt)
        refine ⟨_, by simp only [hd.shift, Option.bind_eq_bind, hroot, Option.bind_some]; rfl, ?_⟩
        exact h.push_full hcnt x d rfl hroom hholds

/-! ## Reading -/

theorem and_mask (i : ℕ) : i &&& arrMask = i % 32 := Nat.and_two_pow_sub_one_eq_mod i 5

/-- The block of an index holds the elements around it. -/
theorem leafFor_spec (h : Rep t xs) (hi : i < t.cnt) :
    ∃ leaf, t.leafFor i = some leaf ∧ ∀ j < 32, i / 32 * 32 + j < t.cnt →
      leaf[j]?.bind Slot.value = xs[i / 32 * 32 + j]? := by
  have hoff := tailOff_eq h.pos
  rw [ArrayTrie.leafFor]
  split_ifs with htail
  · have hblock : i / 32 * 32 = t.tailOff := by omega
    refine ⟨_, rfl, fun j _ _ => ?_⟩
    rw [hblock, List.getElem?_map, h.tail, List.getElem?_drop]
    cases xs[t.tailOff + j]? <;> rfl
  · obtain ⟨d, hd⟩ := h.trunk
    obtain ⟨n, hn⟩ := Option.isSome_iff_exists.mp (hd.root (by omega))
    have hholds := hd.holds
    rw [hn, Option.getD_some] at hholds
    have hmod : i % 32 ^ (d + 2) = i := Nat.mod_eq_of_lt (by have := hd.bound; omega)
    obtain ⟨leaf, hleaf, helems⟩ := descend_spec hholds (by rw [hmod]; omega)
    refine ⟨List.ofFn leaf, ?_, fun j hj _ => ?_⟩
    · rw [hn, hd.shift, Option.bind_some, hleaf]
      rfl
    · obtain ⟨x, hx, hslot⟩ := helems ⟨j, hj⟩
      rw [hmod] at hx
      rw [List.getElem?_ofFn, dif_pos hj, hslot]
      exact hx.symm

theorem get_spec {a : SkyArray α} (h : Represents a xs) (i : ℤ) :
    get a i = some (if 0 ≤ i then xs[i.toNat]? else none) := by
  cases a with
  | none =>
      obtain rfl : xs = [] := h
      simp [get]
  | some t =>
      have h : Rep t xs := h
      have hlen := h.cnt
      rw [get]
      split_ifs with hout hpos hpos
      · rw [List.getElem?_eq_none (by omega)]
      · rfl
      · obtain ⟨leaf, hleaf, helems⟩ := leafFor_spec h (show i.toNat < t.cnt by omega)
        have hat := helems (i.toNat % 32) (Nat.mod_lt _ (by decide)) (by omega)
        rw [Nat.div_add_mod' i.toNat 32] at hat
        have hx := List.getElem?_eq_getElem (show i.toNat < xs.length by omega)
        rw [hx] at hat ⊢
        obtain ⟨s, hs, hval⟩ := Option.bind_eq_some_iff.mp hat
        simp only [hleaf, and_mask, Option.bind_eq_bind, Option.bind_some, hs, hval]
        rfl
      · omega

/-! ## Set -/

theorem Rep.set_tail (h : Rep t xs) (hi : i < t.cnt) (hoff : t.tailOff ≤ i) (x : α) :
    Rep { t with tail := t.tail.set (i % 32) x } (xs.set i x) := by
  have htail := tailOff_eq h.pos
  obtain ⟨d, hd⟩ := h.trunk
  refine ⟨?_, h.pos, ⟨d, hd.shift, hd.bound, hd.holds.congr fun k hk => ?_, hd.root⟩, ?_⟩
  · rw [List.length_set]
    exact h.cnt
  · rw [List.getElem?_set_ne]
    have : k < t.tailOff := hk
    omega
  · have hdrop : ({ t with tail := t.tail.set (i % 32) x } : ArrayTrie α).tailOff = t.tailOff := rfl
    rw [hdrop, List.drop_set, if_neg (by omega), ← h.tail, show i - t.tailOff = i % 32 by omega]

theorem Rep.set_trunk (h : Rep t xs) (hoff : i < t.tailOff) (x : α) {d : ℕ} (hd : Trunk d t xs)
    {root : ArrNode α}
    (hholds : Holds (d + 1) root (Function.update (fun i => xs[i]?) i (some x)) t.tailOff) :
    Rep { t with root := some root } (xs.set i x) := by
  have hlt := h.tailOff_lt
  have hlen := h.cnt
  refine ⟨?_, h.pos, ⟨d, hd.shift, hd.bound, hholds.congr fun k hk => ?_, fun _ => rfl⟩, ?_⟩
  · rw [List.length_set]
    exact h.cnt
  · have hk : k < t.tailOff := hk
    by_cases hki : k = i
    · subst hki
      rw [Function.update_self, List.getElem?_set_self (by omega)]
    · rw [Function.update_of_ne hki, List.getElem?_set_ne (Ne.symm hki)]
  · have hdrop : ({ t with root := some root } : ArrayTrie α).tailOff = t.tailOff := rfl
    rw [hdrop, List.drop_set, if_pos (by omega)]
    exact h.tail

theorem set_spec {a : SkyArray α} (h : Represents a xs) (i : ℤ) (x : α) :
    ∃ b, set a i x = some b ∧
      Represents b (if 0 ≤ i ∧ i < xs.length then xs.set i.toNat x else xs) ∧
        (¬ (0 ≤ i ∧ i < xs.length) → b = a) := by
  cases a with
  | none =>
      obtain rfl : xs = [] := h
      exact ⟨none, rfl, by simp [Represents], fun _ => rfl⟩
  | some t =>
      have h : Rep t xs := h
      have hlen := h.cnt
      rw [set]
      by_cases hin : 0 ≤ i ∧ i < xs.length
      · rw [if_neg (by omega), if_pos hin]
        have hoff := tailOff_eq h.pos
        split_ifs with htail hfree
        · refine ⟨_, rfl, ?_, fun hnot => absurd hin hnot⟩
          rw [and_mask]
          exact h.set_tail (by omega) htail x
        · rw [and_mask, h.length_tail] at hfree
          omega
        · obtain ⟨d, hd⟩ := h.trunk
          obtain ⟨n, hn⟩ := Option.isSome_iff_exists.mp (hd.root (by omega))
          have hholds := hd.holds
          rw [hn, Option.getD_some] at hholds
          have hmod : i.toNat % 32 ^ (d + 2) = i.toNat :=
            Nat.mod_eq_of_lt (by have := hd.bound; omega)
          obtain ⟨root, hroot, hset⟩ := doAssoc_spec hholds (by rw [hmod]; omega) x
          rw [hmod] at hset
          rw [← hd.shift] at hroot
          refine ⟨_, by simp only [hn, Option.bind_eq_bind, Option.bind_some, hroot]; rfl,
            ?_, fun hnot => absurd hin hnot⟩
          exact h.set_trunk (by omega) x hd hset
      · rw [if_pos (by omega), if_neg hin]
        exact ⟨_, rfl, h, fun _ => rfl⟩

/-! ## Loops -/

/-- The callback on the elements of a list, numbered from `i`, until it says no. -/
def foldUntil (f : ℕ → α → σ → Option (Bool × σ)) : ℕ → List α → σ → Option (Bool × σ)
  | _, [], st => some (true, st)
  | i, x :: xs, st => (f i x st).bind fun
      | (true, st) => foldUntil f (i + 1) xs st
      | (false, st) => some (false, st)

theorem foldUntil_append (f : ℕ → α → σ → Option (Bool × σ)) (i : ℕ) (xs ys : List α) (st : σ) :
    foldUntil f i (xs ++ ys) st = (foldUntil f i xs st).bind fun
      | (true, st) => foldUntil f (i + xs.length) ys st
      | (false, st) => some (false, st) := by
  induction xs generalizing i st with
  | nil => rfl
  | cons x xs ih =>
      rw [List.cons_append, foldUntil, foldUntil, List.length_cons, Nat.add_comm xs.length,
        ← Nat.add_assoc]
      cases f i x st with
      | none => rfl
      | some out =>
          obtain ⟨_ | _, st⟩ := out
          · rfl
          · exact ih (i + 1) st

theorem eachBlock_spec (f : ℕ → α → σ → Option (Bool × σ)) {leaf : List (Slot α)} {j : ℕ}
    (hleaf : ∀ j < 32, i + j < xs.length → leaf[j]?.bind Slot.value = xs[i + j]?) (hj : j ≤ 32)
    (st : σ) : eachBlock f leaf xs.length i j st =
      foldUntil f (i + j) ((xs.drop (i + j)).take (32 - j)) st := by
  induction hfuel : 32 - j generalizing j st with
  | zero =>
      rw [eachBlock, if_neg (by simp only [arrWidth]; omega), List.take_zero]
      rfl
  | succ fuel ih =>
      rw [eachBlock]
      split_ifs with hlt
      · have hx := List.getElem?_eq_getElem hlt.2
        rw [hleaf j hlt.1 hlt.2, hx, Option.bind_some, List.drop_eq_getElem_cons hlt.2,
          List.take_succ_cons, foldUntil]
        congr 1
        funext out
        obtain ⟨_ | _, st⟩ := out
        · rfl
        · exact ih (by omega) st (by omega)
      · rw [List.drop_of_length_le (by simp only [arrWidth] at hlt; omega), List.take_nil]
        rfl

theorem eachFrom_spec (f : ℕ → α → σ → Option (Bool × σ)) (h : Rep t xs) (hi : 32 ∣ i) (st : σ) :
    eachFrom f t i st = foldUntil f i (xs.drop i) st := by
  induction hfuel : xs.length - i using Nat.strong_induction_on generalizing i st with
  | _ fuel ih =>
      have hlen := h.cnt
      rw [eachFrom]
      split_ifs with hlt
      · obtain ⟨leaf, hleaf, helems⟩ := leafFor_spec h hlt
        rw [Nat.div_mul_cancel hi, hlen] at helems
        have hsplit : xs.drop i = (xs.drop i).take 32 ++ xs.drop (i + 32) := by
          rw [← List.drop_drop, List.take_append_drop]
        rw [hleaf, Option.bind_some, hlen, eachBlock_spec f helems (Nat.zero_le _)]
        conv_rhs => rw [hsplit, foldUntil_append]
        rw [Nat.add_zero, Nat.sub_zero]
        congr 1
        funext out
        obtain ⟨_ | _, st⟩ := out
        · rfl
        · simp only [arrWidth]
          rcases Nat.lt_or_ge (i + 32) xs.length with hmore | hdone
          · rw [ih (xs.length - (i + 32)) (by omega) (Nat.dvd_add hi ⟨1, rfl⟩) st rfl,
              List.length_take, List.length_drop, Nat.min_eq_left (by omega)]
          · rw [eachFrom, if_neg (by omega), List.drop_of_length_le hdone]
            rfl
      · rw [List.drop_of_length_le (by omega)]
        rfl

theorem each_spec {a : SkyArray α} (h : Represents a xs) (f : ℕ → α → σ → Option (Bool × σ))
    (st : σ) : each a f st = (foldUntil f 0 xs st).map Prod.snd := by
  cases a with
  | none =>
      obtain rfl : xs = [] := h
      rfl
  | some t =>
      rw [each, eachFrom_spec f h ⟨0, rfl⟩, List.drop_zero]

/-- A loop whose callback goes on at every element and adds `step` of it to what
its state stands for. -/
theorem foldUntil_spec {f : ℕ → α → σ → Option (Bool × σ)} {R : σ → List β → Prop}
    {step : α → List β}
    (hf : ∀ i x st ys, R st ys → ∃ st', f i x st = some (true, st') ∧ R st' (ys ++ step x))
    (xs : List α) {i : ℕ} {st : σ} {ys : List β} (hst : R st ys) :
    ∃ st', foldUntil f i xs st = some (true, st') ∧ R st' (ys ++ xs.flatMap step) := by
  induction xs generalizing i st ys with
  | nil => exact ⟨st, rfl, by rwa [List.flatMap_nil, List.append_nil]⟩
  | cons x xs ih =>
      obtain ⟨st', hst', hR⟩ := hf i x st ys hst
      obtain ⟨st'', hst'', hR⟩ := ih hR
      refine ⟨st'', ?_, by rwa [List.flatMap_cons, ← List.append_assoc]⟩
      rw [foldUntil, hst', Option.bind_some]
      exact hst''

/-! ## Kernels -/

theorem toSlice_spec {a : SkyArray α} (h : Represents a xs) : toSlice a = some xs := by
  have hstep : ∀ (i : ℕ) (x : α) (st ys : List α), st = ys →
      ∃ st', (fun (_ : ℕ) x out => some (true, out ++ [x])) i x st = some (true, st') ∧
        st' = ys ++ [x] :=
    fun _ _ _ _ h => ⟨_, rfl, by rw [h]⟩
  obtain ⟨out, hout, rfl⟩ := foldUntil_spec (i := 0) hstep xs rfl
  rw [toSlice, each_spec h, hout, List.nil_append, List.flatMap_singleton']
  rfl

theorem push_loop (g : β → List α)
    {f : ℕ → β → SkyArray α → Option (Bool × SkyArray α)}
    (hf : ∀ i x out ys, Represents out ys →
      ∃ out', f i x out = some (true, out') ∧ Represents out' (ys ++ g x))
    {a : SkyArray β} {xs : List β} (ha : Represents a xs) {out : SkyArray α} {ys : List α}
    (hout : Represents out ys) :
    ∃ out', each a f out = some out' ∧ Represents out' (ys ++ xs.flatMap g) := by
  obtain ⟨out', hfold, hR⟩ := foldUntil_spec (i := 0) hf xs hout
  exact ⟨out', by rw [each_spec ha, hfold]; rfl, hR⟩

theorem map_spec {a : SkyArray α} (h : Represents a xs) (f : α → β) :
    ∃ b, Array_map f a = some b ∧ Represents b (xs.map f) := by
  have hstep : ∀ (i : ℕ) (x : α) (out : SkyArray β) ys, Represents out ys →
      ∃ out', (push out (f x)).map (fun out => (true, out)) = some (true, out') ∧
        Represents out' (ys ++ [f x]) := by
    intro i x out ys hout
    obtain ⟨out', hpush, hR⟩ := push_spec hout (f x)
    exact ⟨out', by rw [hpush]; rfl, hR⟩
  obtain ⟨b, hb, hR⟩ := push_loop (fun x => [f x]) hstep h (show Represents none [] from rfl)
  exact ⟨b, hb, by rwa [List.nil_append, ← List.map_eq_flatMap] at hR⟩

theorem filter_eq_flatMap (p : α → Bool) (xs : List α) :
    xs.filter p = xs.flatMap fun x => if p x then [x] else [] := by
  induction xs with
  | nil => rfl
  | cons x xs ih =>
      rw [List.filter_cons, List.flatMap_cons, ← ih]
      split_ifs <;> rfl

theorem filter_spec {a : SkyArray α} (h : Represents a xs) (p : α → Bool) :
    ∃ b, Array_filter p a = some b ∧ Represents b (xs.filter p) := by
  have hstep : ∀ (i : ℕ) (x : α) (out : SkyArray α) ys, Represents out ys →
      ∃ out', (if p x then (push out x).map fun out => (true, out) else some (true, out)) =
          some (true, out') ∧
        Represents out' (ys ++ if p x then [x] else []) := by
    intro i x out ys hout
    split_ifs
    · obtain ⟨out', hpush, hR⟩ := push_spec hout x
      exact ⟨out', by rw [hpush]; rfl, hR⟩
    · exact ⟨out, rfl, by rwa [List.append_nil]⟩
  obtain ⟨b, hb, hR⟩ := push_loop (fun x => if p x then [x] else []) hstep h
    (show Represents none [] from rfl)
  exact ⟨b, hb, by rwa [List.nil_append, ← filter_eq_flatMap] at hR⟩

theorem append_spec {a b : SkyArray α} (ha : Represents a xs) (hb : Represents b ys) :
    ∃ c, Array_append a b = some c ∧ Represents c (xs ++ ys) := by
  have hstep : ∀ (i : ℕ) (x : α) (out : SkyArray α) zs, Represents out zs →
      ∃ out', (push out x).map (fun out => (true, out)) = some (true, out') ∧
        Represents out' (zs ++ [x]) := by
    intro i x out zs hout
    obtain ⟨out', hpush, hR⟩ := push_spec hout x
    exact ⟨out', by rw [hpush]; rfl, hR⟩
  obtain ⟨c, hc, hR⟩ := push_loop (fun x => [x]) hstep hb ha
  exact ⟨c, hc, by rwa [List.flatMap_singleton'] at hR⟩

/-- The elements from `start` up to `stop`, as Elm's `Array.slice` counts them. -/
def listSlice (start stop : ℤ) (xs : List α) : List α :=
  let n : ℤ := xs.length
  let st := max 0 (if start < 0 then start + n else start)
  let en := min n (if stop < 0 then stop + n else stop)
  (xs.take en.toNat).drop st.toNat

theorem sliceLoop_spec {a out : SkyArray α} {en i : ℤ} (h : Represents a xs)
    (hout : Represents out ys) (hi : 0 ≤ i) (hen : en ≤ xs.length) :
    ∃ b, sliceLoop a en i out = some b ∧
      Represents b (ys ++ (xs.take en.toNat).drop i.toNat) := by
  induction hfuel : (en - i).toNat generalizing i out ys with
  | zero =>
      rw [sliceLoop, if_neg (by omega)]
      refine ⟨out, rfl, ?_⟩
      rwa [List.drop_of_length_le (by rw [List.length_take]; omega), List.append_nil]
  | succ fuel ih =>
      have hlt : i < en := by omega
      have hin : i.toNat < xs.length := by omega
      obtain ⟨out', hpush, hout'⟩ := push_spec hout xs[i.toNat]
      obtain ⟨b, hb, hR⟩ := ih hout' (show 0 ≤ i + 1 by omega) (by omega)
      refine ⟨b, ?_, ?_⟩
      · rw [sliceLoop, if_pos hlt, get_spec h, if_pos hi, List.getElem?_eq_getElem hin]
        simp only [Option.bind_eq_bind, Option.bind_some, hpush]
        exact hb
      · have hdrop : (xs.take en.toNat).drop i.toNat =
            xs[i.toNat] :: (xs.take en.toNat).drop (i + 1).toNat := by
          rw [List.drop_eq_getElem_cons (by rw [List.length_take]; omega), List.getElem_take,
            show i.toNat + 1 = (i + 1).toNat by omega]
        rwa [hdrop, List.append_cons]

theorem slice_spec {a : SkyArray α} (h : Represents a xs) (start stop : ℤ) :
    ∃ b, Array_slice start stop a = some b ∧ Represents b (listSlice start stop xs) := by
  obtain ⟨b, hb, hR⟩ := sliceLoop_spec h (show Represents none [] from rfl)
    (le_max_left 0 (if start < 0 then start + (xs.length : ℤ) else start))
    (min_le_left (xs.length : ℤ) (if stop < 0 then stop + (xs.length : ℤ) else stop))
  refine ⟨b, ?_, by rwa [List.nil_append] at hR⟩
  have hlow (st : ℤ) : (if st < 0 then 0 else st) = max 0 st := by
    rw [max_def]
    split_ifs <;> omega
  have hhigh (n en : ℤ) : (if n < en then n else en) = min n en := by
    rw [min_def]
    split_ifs <;> omega
  rw [Array_slice, length_eq h]
  simp only [hlow, hhigh]
  exact hb

end Sky.Array
