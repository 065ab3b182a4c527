import Mathlib

/-! # Counting sort into buckets

A histogram of small keys, the start of each bucket, and a stable distribution of
the items into one scratch array. Each bucket of the array is the sublist of the
items with its key. -/

namespace Sky.Library.CountingSort

variable {α : Type*}

/-- How many items have each key below `m`. -/
def histogram (key : α → ℕ) (m : ℕ) (xs : List α) : List ℕ :=
  xs.foldl (fun counts x => counts.modify (key x) (· + 1)) (List.replicate m 0)

/-- The start of each bucket, for buckets laid out from `off` on. -/
def starts (off : ℕ) : List ℕ → List ℕ
  | [] => []
  | c :: counts => off :: starts (off + c) counts

/-- One placement: the item goes to the next free place of its bucket. -/
def place (key : α → ℕ) (scratch : List (Option α) × List ℕ) (x : α) :
    List (Option α) × List ℕ :=
  (scratch.1.set (scratch.2.getD (key x) 0) (some x), scratch.2.modify (key x) (· + 1))

/-- All items in their buckets, one bucket after another. -/
def distribute (key : α → ℕ) (m : ℕ) (xs : List α) : List (Option α) :=
  (xs.foldl (place key)
    (List.replicate xs.length none, starts 0 (histogram key m xs))).1

/-- The bucket of key `b` in the distributed array. -/
def bucket (key : α → ℕ) (m : ℕ) (xs : List α) (b : ℕ) : List α :=
  (((distribute key m xs).drop ((starts 0 (histogram key m xs)).getD b 0)).take
    ((histogram key m xs).getD b 0)).reduceOption

variable {key : α → ℕ} {m b b' : ℕ} {xs : List α}

/-! ## Histogram and starts -/

theorem getElem?_foldl_modify (xs : List α) (counts : List ℕ) :
    (xs.foldl (fun counts x => counts.modify (key x) (· + 1)) counts)[b]? =
      counts[b]?.map (· + xs.countP (key · = b)) := by
  induction xs generalizing counts with
  | nil => simp
  | cons x xs ih =>
      rw [List.foldl_cons, ih, List.getElem?_modify, List.countP_cons]
      by_cases hx : key x = b
      · cases counts[b]? with
        | none => rfl
        | some c => simp [hx]; omega
      · cases counts[b]? with
        | none => rfl
        | some c => simp [hx]

theorem length_histogram : (histogram key m xs).length = m := by
  have h : ∀ (xs : List α) (counts : List ℕ),
      (xs.foldl (fun counts x => counts.modify (key x) (· + 1)) counts).length = counts.length := by
    intro xs
    induction xs with
    | nil => exact fun _ => rfl
    | cons x xs ih => exact fun counts => by rw [List.foldl_cons, ih, List.length_modify]
  rw [histogram, h, List.length_replicate]

theorem getElem?_histogram (hb : b < m) :
    (histogram key m xs)[b]? = some (xs.countP (key · = b)) := by
  rw [histogram, getElem?_foldl_modify, List.getElem?_replicate, if_pos hb, Option.map_some,
    Nat.zero_add]

theorem getElem?_starts (off : ℕ) (counts : List ℕ) (hb : b < counts.length) :
    (starts off counts)[b]? = some (off + (counts.take b).sum) := by
  induction counts generalizing off b with
  | nil => exact absurd hb (Nat.not_lt_zero _)
  | cons c counts ih =>
      cases b with
      | zero => rfl
      | succ b =>
          rw [starts, List.getElem?_cons_succ, ih _ (Nat.lt_of_succ_lt_succ hb),
            List.take_succ_cons,
            List.sum_cons, Nat.add_assoc]

/-- The items with a key below `b`. -/
def before (key : α → ℕ) (xs : List α) (b : ℕ) : ℕ := xs.countP (key · < b)

theorem before_succ : before key xs (b + 1) = before key xs b + xs.countP (key · = b) := by
  induction xs with
  | nil => rfl
  | cons x xs ih =>
      simp only [before, List.countP_cons, decide_eq_true_eq] at ih ⊢
      rw [ih]
      split_ifs <;> omega

theorem before_mono (h : b ≤ b') : before key xs b ≤ before key xs b' := by
  refine List.countP_mono_left fun x _ hx => ?_
  simp only [decide_eq_true_eq] at hx ⊢
  omega

theorem before_le_length : before key xs b ≤ xs.length := List.countP_le_length

theorem sum_take_histogram (hb : b ≤ m) :
    ((histogram key m xs).take b).sum = before key xs b := by
  induction b with
  | zero => simp [before]
  | succ b ih =>
      rw [List.take_add_one, getElem?_histogram hb, Option.toList_some, List.sum_append,
        ih (Nat.le_of_succ_le hb), List.sum_singleton, before_succ]

theorem getElem?_starts_histogram (hb : b < m) :
    (starts 0 (histogram key m xs))[b]? = some (before key xs b) := by
  rw [getElem?_starts _ _ (by rwa [length_histogram]), sum_take_histogram hb.le, Nat.zero_add]

/-! ## Placing the items -/

/-- The places taken after the items of `done`: each bucket holds its items in
order, and its next free place comes after them. -/
structure Placed (key : α → ℕ) (m : ℕ) (xs done : List α) (scratch : List (Option α) × List ℕ) :
    Prop where
  length : scratch.1.length = xs.length
  fill : ∀ b < m, scratch.2[b]? = some (before key xs b + done.countP (key · = b))
  items : ∀ b < m, ∀ t x, (done.filter (key · = b))[t]? = some x →
    scratch.1[before key xs b + t]? = some (some x)

/-- The bucket of `b` ends where the next one starts. -/
theorem place_lt {done rest : List α} {x : α} (hxs : xs = done ++ x :: rest) (hx : key x = b) :
    before key xs b + done.countP (key · = b) < before key xs (b + 1) := by
  rw [before_succ, hxs, List.countP_append, List.countP_cons_of_pos (by simpa using hx)]
  omega

theorem place_ne {done rest : List α} {x : α} {t : ℕ} (hxs : xs = done ++ x :: rest)
    (hne : b ≠ key x) (ht : t < done.countP (key · = b)) :
    before key xs (key x) + done.countP (key · = key x) ≠ before key xs b + t := by
  have hself := place_lt hxs (rfl : key x = key x)
  have hother : before key xs b + t < before key xs (b + 1) := by
    rw [before_succ, hxs, List.countP_append]
    omega
  rcases Nat.lt_or_gt_of_ne hne with h | h
  · have : before key xs (b + 1) ≤ before key xs (key x) := before_mono h
    omega
  · have : before key xs (key x + 1) ≤ before key xs b := before_mono h
    omega

theorem Placed.step {done rest : List α} {x : α} {scratch : List (Option α) × List ℕ}
    (h : Placed key m xs done scratch) (hxs : xs = done ++ x :: rest) (hx : key x < m) :
    Placed key m xs (done ++ [x]) (place key scratch x) := by
  have hfree : scratch.2.getD (key x) 0 = before key xs (key x) + done.countP (key · = key x) := by
    rw [List.getD_eq_getElem?_getD, h.fill _ hx, Option.getD_some]
  refine ⟨?_, ?_, ?_⟩
  · rw [place, List.length_set, h.length]
  · intro b hb
    rw [place, List.getElem?_modify, h.fill b hb, List.countP_append, Option.map_eq_map,
      Option.map_some]
    by_cases hkey : key x = b
    · simp [hkey]
      omega
    · simp [hkey]
  · intro b hb t y hy
    rw [place, hfree]
    rw [List.filter_append] at hy
    have hcount : (done.filter (key · = b)).length = done.countP (key · = b) :=
      List.countP_eq_length_filter.symm
    rcases Nat.lt_or_ge t (done.filter (key · = b)).length with ht | ht
    · -- an earlier item keeps its place
      rw [List.getElem?_append_left ht] at hy
      rw [List.getElem?_set_ne]
      · exact h.items b hb t y hy
      · by_cases hkey : b = key x
        · subst hkey
          omega
        · exact place_ne hxs hkey (hcount ▸ ht)
    · rw [List.getElem?_append_right ht] at hy
      by_cases hkey : key x = b
      · subst hkey
        simp only [decide_true, List.filter_cons_of_pos, List.filter_nil] at hy
        rw [List.getElem?_singleton] at hy
        split_ifs at hy with hzero
        obtain rfl := Option.some.inj hy
        have hlt := place_lt hxs (rfl : key x = key x)
        have hle : before key xs (key x + 1) ≤ xs.length := before_le_length
        rw [show t = done.countP (key · = key x) by omega]
        exact List.getElem?_set_self (by rw [h.length]; omega)
      · simp [hkey] at hy

theorem placed_foldl {done rest : List α} {scratch : List (Option α) × List ℕ}
    (h : Placed key m xs done scratch) (hxs : xs = done ++ rest) (hm : ∀ x ∈ xs, key x < m) :
    Placed key m xs xs (rest.foldl (place key) scratch) := by
  induction rest generalizing done scratch with
  | nil => simpa [hxs] using h
  | cons x rest ih =>
      refine ih (h.step hxs (hm x ?_)) (by simp [hxs])
      simp [hxs]

theorem distribute_spec (hm : ∀ x ∈ xs, key x < m) :
    ∃ fill, Placed key m xs xs (distribute key m xs, fill) := by
  refine ⟨_, placed_foldl ⟨?_, ?_, ?_⟩ (List.nil_append xs).symm hm⟩
  · exact List.length_replicate
  · intro b hb
    rw [getElem?_starts_histogram hb]
    rfl
  · simp

/-- A bucket is the sublist of the items with its key. -/
theorem bucket_eq_filter (hm : ∀ x ∈ xs, key x < m) (hb : b < m) :
    bucket key m xs b = xs.filter (key · = b) := by
  obtain ⟨fill, h⟩ := distribute_spec hm
  have hcount : (xs.filter (key · = b)).length = xs.countP (key · = b) :=
    List.countP_eq_length_filter.symm
  have hslice : ((distribute key m xs).drop (before key xs b)).take (xs.countP (key · = b)) =
      (xs.filter (key · = b)).map some := by
    refine List.ext_getElem? fun t => ?_
    rw [List.getElem?_take, List.getElem?_drop, List.getElem?_map]
    split_ifs with ht
    · have hx := List.getElem?_eq_getElem (hcount ▸ ht)
      rw [h.items b hb t _ hx, hx]
      rfl
    · rw [List.getElem?_eq_none (by omega)]
      rfl
  rw [bucket, List.getD_eq_getElem?_getD, List.getD_eq_getElem?_getD, getElem?_starts_histogram hb,
    getElem?_histogram hb, Option.getD_some, Option.getD_some, hslice]
  simp [List.reduceOption]

theorem filter_lt_succ_perm (key : α → ℕ) (xs : List α) (m : ℕ) :
    (xs.filter (key · < m) ++ xs.filter (key · = m)).Perm (xs.filter (key · < m + 1)) := by
  induction xs with
  | nil => exact .nil
  | cons x xs ih =>
      rcases Nat.lt_trichotomy (key x) m with hx | hx | hx
      · rw [List.filter_cons_of_pos (by simpa using hx),
          List.filter_cons_of_neg (by simpa using hx.ne),
          List.filter_cons_of_pos (by simpa using Nat.lt_succ_of_lt hx)]
        exact ih.cons x
      · rw [List.filter_cons_of_neg (by simp [hx]), List.filter_cons_of_pos (by simpa using hx),
          List.filter_cons_of_pos (by simp [hx])]
        exact List.perm_middle.trans (ih.cons x)
      · rw [List.filter_cons_of_neg (by simpa using hx.le),
          List.filter_cons_of_neg (by simpa using hx.ne'),
          List.filter_cons_of_neg (by simpa using Nat.succ_le_of_lt hx)]
        exact ih

/-- The buckets together hold the items. -/
theorem flatMap_filter_perm (hm : ∀ x ∈ xs, key x < m) :
    ((List.range m).flatMap fun b => xs.filter (key · = b)).Perm xs := by
  have h : ∀ n, ((List.range n).flatMap fun b => xs.filter (key · = b)).Perm
      (xs.filter (key · < n)) := by
    intro n
    induction n with
    | zero => simp
    | succ n ih =>
        rw [List.range_succ, List.flatMap_append, List.flatMap_singleton]
        exact (ih.append_right _).trans (filter_lt_succ_perm key xs n)
  have hall : xs.filter (key · < m) = xs :=
    List.filter_eq_self.mpr fun x hx => decide_eq_true (hm x hx)
  exact (h m).trans (by rw [hall])

end Sky.Library.CountingSort
