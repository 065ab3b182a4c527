import Sky.Verification.StringFast.Walk

/-! # The kernels are the definition on code points

Whatever other calls do to the two cells in between, a call that comes upon an index comes upon the
index of its own string. -/

namespace Sky.StringFast

open Library Utf8

variable {s t : Str} {c c' : Cells} {calls : List Call} {k : ℕ}

/-! ## The index -/

/-- The loop of `indexFor` after some code points: every `runeIndexStride`-th one has its offset. -/
theorem indexLoop_eq (rs : List (List UInt8)) :
    rs.foldl IndexLoop.rune ⟨[], 0, 0⟩ =
      ⟨(List.range ((rs.length + 63) / runeIndexStride)).map fun j =>
          (rs.take (runeIndexStride * j)).flatten.length,
        rs.length, rs.flatten.length⟩ := by
  induction rs using List.reverseRecOn with
  | nil => rfl
  | append_singleton rs r ih =>
      have htake : ∀ j < (rs.length + 63) / runeIndexStride,
          (rs ++ [r]).take (runeIndexStride * j) = rs.take (runeIndexStride * j) := by
        intro j hj
        rw [runeIndexStride] at *
        exact List.take_append_of_le_length (by omega)
      have hold : (List.range ((rs.length + 63) / runeIndexStride)).map (fun j =>
            ((rs ++ [r]).take (runeIndexStride * j)).flatten.length) =
          (List.range ((rs.length + 63) / runeIndexStride)).map fun j =>
            (rs.take (runeIndexStride * j)).flatten.length := by
        refine List.map_congr_left fun j hj => ?_
        rw [htake j (List.mem_range.1 hj)]
      rw [List.foldl_concat, ih, IndexLoop.rune]
      simp only [List.length_append, List.length_singleton, List.flatten_append,
        List.flatten_singleton, IndexLoop.mk.injEq, and_true]
      split
      · rename_i hstride
        have hnext : (rs.length + 1 + 63) / runeIndexStride =
            (rs.length + 63) / runeIndexStride + 1 := by
          rw [runeIndexStride] at *
          omega
        have hall : (rs ++ [r]).take (runeIndexStride * ((rs.length + 63) / runeIndexStride)) =
            rs := by
          rw [List.take_append_of_le_length, List.take_of_length_le]
          all_goals
            rw [runeIndexStride] at *
            omega
        rw [hnext, List.range_succ, List.map_append, hold, List.map_singleton, hall]
      · rename_i hstride
        have hnext : (rs.length + 1 + 63) / runeIndexStride =
            (rs.length + 63) / runeIndexStride := by
          rw [runeIndexStride] at *
          omega
        rw [hnext, hold]

theorem buildIndex_total (s : Str) : (buildIndex s).total = (runes.pieces s.bytes).length := by
  rw [buildIndex, indexLoop_eq]

theorem buildIndex_offs (s : Str) (slot : ℕ)
    (h : slot * runeIndexStride < (runes.pieces s.bytes).length) :
    (buildIndex s).offs[slot]? = some (runes.offset s.bytes (slot * runeIndexStride)) := by
  have hlt : slot < ((runes.pieces s.bytes).length + 63) / runeIndexStride := by
    rw [runeIndexStride] at *
    omega
  rw [buildIndex, indexLoop_eq, List.getElem?_map, List.getElem?_range hlt, Option.map_some,
    Nat.mul_comm]
  rfl

theorem buildIndex_congr (h : s.bytes = t.bytes) :
    (buildIndex s).offs = (buildIndex t).offs ∧ (buildIndex s).total = (buildIndex t).total := by
  rw [buildIndex, buildIndex, h]
  exact ⟨rfl, rfl⟩

/-! ## The cells -/

/-- A cached index is the one of its string. -/
def Cells.Correct (c : Cells) : Prop := ∀ idx ∈ c.cache, idx = buildIndex idx.s

/-- Strings at one address with one length have the same bytes. -/
def Coherent (l : List Str) : Prop :=
  ∀ s ∈ l, ∀ t ∈ l, sameString s t = true → s.bytes = t.bytes

def Cells.held (c : Cells) : List Str := c.cache.toList.map RuneIndex.s ++ c.last.toList

theorem mem_alive : s ∈ alive c calls ↔ s ∈ c.held ∨ ∃ call ∈ calls, call.s = s := by
  rw [alive, List.mem_append, List.mem_map, Cells.held]

theorem sameString_comm (s t : Str) : sameString s t = sameString t s := by
  rw [sameString, sameString, Bool.beq_comm, Bool.beq_comm (a := s.data)]

/-- What holds of the cells and the strings of the running calls. -/
def Sound (c : Cells) (calls : List Call) : Prop := c.Correct ∧ Coherent (alive c calls)

/-- What a call may rely on: no string of the cells is taken for its own by mistake. -/
def Relies (call : Call) (c : Cells) : Prop :=
  c.Correct ∧ ∀ t ∈ c.held, sameString t call.s = true → t.bytes = call.s.bytes

/-- What a step of a call may do: it stores only its own string. -/
def Guarantees (call : Call) (c c' : Cells) : Prop :=
  c'.Correct ∧ ∀ t ∈ c'.held, t ∈ c.held ∨ t = call.s

theorem contract : AtomicState.Contract Sound Relies Guarantees Admitted where
  sub := by
    intro c calls calls' h hsub
    have hmem : ∀ s ∈ alive c calls', s ∈ alive c calls := by
      intro s hs
      rcases mem_alive.1 hs with hs | ⟨call, hcall, rfl⟩
      · exact mem_alive.2 (.inl hs)
      · exact mem_alive.2 (.inr ⟨call, hsub call hcall, rfl⟩)
    exact ⟨h.1, fun s hs t ht => h.2 s (hmem s hs) t (hmem t ht)⟩
  start := by
    intro c calls call h hadmitted
    have hcases : ∀ s ∈ alive c (call :: calls), s ∈ alive c calls ∨ s = call.s := by
      intro s hs
      rcases mem_alive.1 hs with hs | ⟨other, hother, rfl⟩
      · exact .inl (mem_alive.2 (.inl hs))
      · rcases List.mem_cons.1 hother with rfl | hother
        · exact .inr rfl
        · exact .inl (mem_alive.2 (.inr ⟨other, hother, rfl⟩))
    refine ⟨h.1, fun s hs t ht hsame => ?_⟩
    rcases hcases s hs with hs | rfl <;> rcases hcases t ht with ht | rfl
    · exact h.2 s hs t ht hsame
    · exact hadmitted s hs hsame
    · exact (hadmitted t ht (sameString_comm t _ ▸ hsame)).symm
    · rfl
  rely := by
    intro c calls call h hcall
    refine ⟨h.1, fun t ht hsame => ?_⟩
    exact h.2 t (mem_alive.2 (.inl ht)) call.s (mem_alive.2 (.inr ⟨call, hcall, rfl⟩)) hsame
  guarantee := by
    intro c c' calls call h hcall hG
    have hmem : ∀ s ∈ alive c' calls, s ∈ alive c calls := by
      intro s hs
      rcases mem_alive.1 hs with hs | hs
      · rcases hG.2 s hs with hs | rfl
        · exact mem_alive.2 (.inl hs)
        · exact mem_alive.2 (.inr ⟨call, hcall, rfl⟩)
      · exact mem_alive.2 (.inr hs)
    exact ⟨hG.1, fun s hs t ht => h.2 s (hmem s hs) t (hmem t ht)⟩

/-! ## One call -/

section

variable {call : Call} {P : List UInt8 → Prop}

/-- A call that keeps to what it may do, and returns by the given number of steps. -/
abbrev Keeps {α : Type} (call : Call) (n : ℕ) (x : Atomic Cells α) (P : α → Prop) : Prop :=
  x.Ensures (Relies call) (Guarantees call) P n

theorem guarantees_self (h : Relies call c) : Guarantees call c c :=
  ⟨h.1, fun _ ht => .inl ht⟩

theorem loadCache_keeps :
    Keeps call 1 loadCache fun o => ∀ idx ∈ o.filter fun idx => sameString idx.s call.s,
      idx.offs = (buildIndex call.s).offs ∧ idx.total = (buildIndex call.s).total := by
  refine Atomic.Ensures.load (fun c h => guarantees_self h) fun c h idx hidx => ?_
  obtain ⟨hcache, hsame⟩ := Option.filter_eq_some_iff.1 hidx
  have hheld : idx.s ∈ c.held := by simp [Cells.held, hcache]
  have hbytes := h.2 idx.s hheld hsame
  rw [h.1 idx hcache]
  exact buildIndex_congr hbytes

theorem loadLast_keeps : Keeps call 1 loadLast fun _ => True :=
  Atomic.Ensures.load (fun _ h => guarantees_self h) fun _ _ => trivial

theorem storeLast_keeps : Keeps call 1 (storeLast call.s) fun _ => True := by
  refine Atomic.Ensures.store fun c h => ⟨h.1, fun t ht => ?_⟩
  simp only [Cells.held, Option.toList_some, List.mem_append, List.mem_singleton] at ht ⊢
  rcases ht with ht | ht
  · exact .inl (.inl ht)
  · exact .inr ht

theorem storeCache_keeps : Keeps call 1 (storeCache (buildIndex call.s)) fun _ => True := by
  refine Atomic.Ensures.store fun c h => ⟨?_, fun t ht => ?_⟩
  · rintro idx ⟨⟩
    rfl
  · simp only [Cells.held, Option.toList_some, List.map_singleton, List.mem_append,
      List.mem_singleton] at ht ⊢
    rcases ht with ht | ht
    · exact .inr ht
    · exact .inl (.inr ht)

theorem indexFor_keeps :
    Keeps call 3 (indexFor call.s) fun o => ∀ idx ∈ o,
      idx.offs = (buildIndex call.s).offs ∧ idx.total = (buildIndex call.s).total := by
  rw [indexFor]
  split
  · exact .pure (by simp)
  · refine Atomic.Ensures.bind (m := 1) (n := 2) loadCache_keeps fun cached hcached => ?_
    cases hfilter : cached.filter fun idx => sameString idx.s call.s with
    | some idx =>
        refine .pure fun other hother => ?_
        obtain rfl := Option.some.inj hother
        exact hcached idx hfilter
    | none =>
        refine Atomic.Ensures.bind (m := 1) (n := 1) loadLast_keeps fun last _ => ?_
        cases last.filter fun last => sameString last call.s with
        | none => exact Atomic.Ensures.bind (m := 1) (n := 0) storeLast_keeps fun _ _ => .pure (by simp)
        | some _ =>
            refine Atomic.Ensures.bind (m := 1) (n := 0) storeCache_keeps fun _ _ => .pure ?_
            rintro idx ⟨⟩
            exact ⟨rfl, rfl⟩

theorem runeOffset_keeps (call : Call) (k : ℕ) :
    Keeps call 3 (runeOffset call.s k) fun i => i = runes.offset call.s.bytes k := by
  rw [runeOffset]
  split
  · rename_i hk
    exact .pure (by rw [hk, Cutter.offset_zero])
  · refine Atomic.Ensures.bind (m := 3) (n := 0) indexFor_keeps fun o ho => ?_
    cases o with
    | none => exact .pure (by rw [walkRunes_eq _ (Nat.zero_le _), Nat.zero_add, List.drop_zero])
    | some idx =>
        obtain ⟨hoffs, htotal⟩ := ho idx rfl
        rw [buildIndex_total] at htotal
        simp only [htotal]
        split
        · rename_i hle
          exact .pure (runes.offset_of_le hle).symm
        · rename_i hlt
          have hslot : k / runeIndexStride * runeIndexStride ≤ k := Nat.div_mul_le_self _ _
          have hget := buildIndex_offs call.s (k / runeIndexStride) (by omega)
          rw [← hoffs] at hget
          refine Atomic.Ensures.bind (m := 0) (n := 0) (P := fun i => i = _)
            (.ofOption hget rfl) fun i hi => .pure ?_
          subst hi
          rw [walkRunes_eq _ (runes.offset_le _ _), ← runes.offset_add, Nat.add_sub_cancel' hslot]

theorem runeTotal_keeps :
    Keeps call 1 (runeTotal call.s) fun n => n = (runes.pieces call.s.bytes).length := by
  refine Atomic.Ensures.bind (m := 1) (n := 0) loadCache_keeps fun cached hcached => ?_
  cases hfilter : cached.filter fun idx => sameString idx.s call.s with
  | some idx => exact .pure ((hcached idx hfilter).2.trans (buildIndex_total _))
  | none => exact .pure rfl

theorem slice_keeps {n a b : ℕ} (hab : a ≤ b) (hb : b ≤ call.s.bytes.length)
    (h : P ((call.s.bytes.take b).drop a)) : Keeps call n (slice call.s.bytes a b) P :=
  .ofOption (if_pos ⟨hab, hb⟩) h

/-! ## The kernels -/

/-- Where an index counts from the end, if it is negative. -/
def clampIndex (total : ℕ) (i : ℤ) : ℕ := (if i < 0 then i + total else i).toNat

/-- The kernels on the list of code points. -/
def Kernel.onRunes {α : Type} (kernel : Kernel) (rs : List α) : List α :=
  match kernel with
  | .left n => rs.take n.toNat
  | .dropLeft n => rs.drop n.toNat
  | .right n => rs.drop (rs.length - n.toNat)
  | .dropRight n => rs.take (rs.length - n.toNat)
  | .slice st en => (rs.take (clampIndex rs.length en)).drop (clampIndex rs.length st)

/-- What the definition on the list of code points gives. -/
def Call.result (call : Call) : List UInt8 :=
  (call.kernel.onRunes (runes.pieces call.s.bytes)).flatten

theorem stringLeft_keeps (n : ℤ) : Keeps call 4 (stringLeft n call.s)
    (· = ((runes.pieces call.s.bytes).take n.toNat).flatten) := by
  rw [stringLeft]
  split
  · rename_i hn
    exact .pure (by rw [Int.toNat_of_nonpos hn]; rfl)
  · refine Atomic.Ensures.bind (m := 3) (n := 1) (runeOffset_keeps call n.toNat) ?_
    rintro _ rfl
    refine slice_keeps (Nat.zero_le _) (runes.offset_le _ _) ?_
    rw [List.drop_zero, runes.take_offset]

theorem stringDropLeft_keeps (n : ℤ) : Keeps call 4 (stringDropLeft n call.s)
    (· = ((runes.pieces call.s.bytes).drop n.toNat).flatten) := by
  rw [stringDropLeft]
  split
  · rename_i hn
    exact .pure (by rw [Int.toNat_of_nonpos hn, List.drop_zero, runes.flatten_pieces])
  · refine Atomic.Ensures.bind (m := 3) (n := 1) (runeOffset_keeps call n.toNat) ?_
    rintro _ rfl
    refine slice_keeps (runes.offset_le _ _) le_rfl ?_
    rw [List.take_length, runes.drop_offset]

theorem stringRight_keeps (n : ℤ) : Keeps call 4 (stringRight n call.s)
    (· = ((runes.pieces call.s.bytes).drop
      ((runes.pieces call.s.bytes).length - n.toNat)).flatten) := by
  rw [stringRight]
  split
  · rename_i hn
    refine .pure ?_
    rw [Int.toNat_of_nonpos hn, Nat.sub_zero, List.drop_length]
    rfl
  · rw [runeOffsetFromEnd_eq]
    refine slice_keeps (runes.offset_le _ _) le_rfl ?_
    rw [List.take_length, runes.drop_offset]

theorem stringDropRight_keeps (n : ℤ) : Keeps call 4 (stringDropRight n call.s)
    (· = ((runes.pieces call.s.bytes).take
      ((runes.pieces call.s.bytes).length - n.toNat)).flatten) := by
  rw [stringDropRight]
  split
  · rename_i hn
    exact .pure (by rw [Int.toNat_of_nonpos hn, Nat.sub_zero, List.take_length,
      runes.flatten_pieces])
  · rw [runeOffsetFromEnd_eq]
    refine slice_keeps (Nat.zero_le _) (runes.offset_le _ _) ?_
    rw [List.drop_zero, runes.take_offset]

/-- The indices, counted from the start. -/
theorem sliceIndices_keeps (st en : ℤ) : Keeps call 1 (sliceIndices st en call.s) fun p =>
    0 ≤ p.1 ∧ p.1.toNat = clampIndex (runes.pieces call.s.bytes).length st ∧
      p.2.toNat = clampIndex (runes.pieces call.s.bytes).length en := by
  rw [sliceIndices]
  split
  · refine Atomic.Ensures.bind (m := 1) (n := 0) runeTotal_keeps ?_
    rintro _ rfl
    refine .pure ⟨?_, ?_, rfl⟩
    · split <;> omega
    · rw [clampIndex]
      split <;> omega
  · rename_i hneg
    refine .pure ⟨by omega, ?_, ?_⟩
    · rw [clampIndex, if_neg (by omega)]
    · rw [clampIndex, if_neg (by omega)]

theorem stringSlice_keeps (st en : ℤ) : Keeps call 4 (stringSlice st en call.s)
    (· = (((runes.pieces call.s.bytes).take
      (clampIndex (runes.pieces call.s.bytes).length en)).drop
      (clampIndex (runes.pieces call.s.bytes).length st)).flatten) := by
  refine Atomic.Ensures.bind (m := 1) (n := 3) (sliceIndices_keeps st en) ?_
  rintro ⟨i, j⟩ ⟨hi, hst, hen⟩
  simp only at hi hst hen ⊢
  rw [← hst, ← hen, ← runes.take_drop_offset]
  split
  · refine .pure ?_
    rw [List.drop_eq_nil_of_le]
    exact (List.length_take_le _ _).trans (runes.offset_mono _ (by omega))
  · rename_i hlt
    refine Atomic.Ensures.bind (m := 3) (n := 0) (runeOffset_keeps call i.toNat) ?_
    rintro _ rfl
    split
    · rename_i hall
      refine .pure ?_
      rw [hall, List.drop_eq_nil_of_le]
      exact List.length_take_le' _ _
    · have hwalk : walkRunes call.s.bytes (runes.offset call.s.bytes i.toNat) (j - i).toNat =
          runes.offset call.s.bytes j.toNat := by
        rw [walkRunes_eq _ (runes.offset_le _ _), ← runes.offset_add]
        congr 1
        omega
      rw [hwalk]
      exact slice_keeps (runes.offset_mono _ (by omega)) (runes.offset_le _ _) rfl

theorem run_keeps (call : Call) : Keeps call 4 call.run (· = call.result) := by
  obtain ⟨kernel, s⟩ := call
  cases kernel with
  | left n => exact stringLeft_keeps n
  | dropLeft n => exact stringDropLeft_keeps n
  | right n => exact stringRight_keeps n
  | dropRight n => exact stringDropRight_keeps n
  | slice st en => exact stringSlice_keeps st en

end

/-! ## Calls in any order -/

theorem left_append_dropLeft (s : Str) (n : ℤ) :
    Call.result ⟨.left n, s⟩ ++ Call.result ⟨.dropLeft n, s⟩ = s.bytes := by
  rw [Call.result, Call.result, ← List.flatten_append]
  simp only [Kernel.onRunes]
  rw [List.take_append_drop, runes.flatten_pieces]

theorem dropRight_append_right (s : Str) (n : ℤ) :
    Call.result ⟨.dropRight n, s⟩ ++ Call.result ⟨.right n, s⟩ = s.bytes := by
  rw [Call.result, Call.result, ← List.flatten_append]
  simp only [Kernel.onRunes]
  rw [List.take_append_drop, runes.flatten_pieces]

theorem init_held : AtomicState.Held Sound Relies Guarantees (fun call r => r = call.result) 4
    State.init := by
  refine ⟨⟨?_, ?_⟩, ?_⟩
  · rintro idx ⟨⟩
  · intro s hs
    cases hs
  · intro t ht
    cases ht

theorem reachable_held {es : List Event} {a : State} (h : Run Step State.init es a) :
    AtomicState.Held Sound Relies Guarantees (fun call r => r = call.result) 4 a :=
  AtomicState.held_run contract run_keeps h init_held

/-- Whatever calls are made on whatever strings, and in whatever order they take their steps: a call
does not panic and returns by its fourth step, and what it returns are the bytes of the code points
that the definition on the list of code points gives. -/
theorem kernels_on_runes {es : List Event} {a : State} (h : Run Step State.init es a) :
    (∀ t ∈ a.tasks, t.steps ≤ 4 ∧
      (t.prog = .done (t.key.kernel.onRunes (runes.pieces t.key.s.bytes)).flatten ∨
        t.steps < 4 ∧ ∃ act next, t.prog = .step act next)) ∧
    ∀ t ∈ a.tasks, ∀ u ∈ a.tasks, ∀ x y, t.prog = .done x → u.prog = .done y → t.key.s = u.key.s →
      ∀ n, t.key.kernel = .left n ∧ u.key.kernel = .dropLeft n ∨
          t.key.kernel = .dropRight n ∧ u.key.kernel = .right n →
        x ++ y = t.key.s.bytes := by
  obtain ⟨-, htasks⟩ := reachable_held h
  have hdone : ∀ t ∈ a.tasks, ∀ x, t.prog = .done x → x = t.key.result := by
    intro t ht x hx
    obtain ⟨m, -, hkeeps⟩ := htasks t ht
    rw [hx, Atomic.ensures_done] at hkeeps
    exact hkeeps
  constructor
  · intro t ht
    obtain ⟨m, hm, hkeeps⟩ := htasks t ht
    refine ⟨by omega, ?_⟩
    rcases hkeeps.cases with ⟨x, hx, rfl⟩ | ⟨m, act, next, rfl, hx⟩
    · exact .inl hx
    · exact .inr ⟨by omega, act, next, hx⟩
  · intro t ht u hu x y hx hy hs n hkernels
    rw [hdone t ht x hx, hdone u hu y hy]
    obtain ⟨⟨kernel, s⟩, _, _⟩ := t
    obtain ⟨⟨kernel', s'⟩, _, _⟩ := u
    simp only at hs hkernels
    subst hs
    rcases hkernels with ⟨rfl, rfl⟩ | ⟨rfl, rfl⟩
    · exact left_append_dropLeft s n
    · exact dropRight_append_right s n

/-- Two calls on a string with a broken byte. -/
def brokenCalls : List Event :=
  [.start ⟨.slice (-3) (-1), ⟨7, [0x61, 0xC3, 0xC3, 0xA9, 0x62]⟩⟩,
    .start ⟨.left 2, ⟨7, [0x61, 0xC3, 0xC3, 0xA9, 0x62]⟩⟩, .step 0]

theorem kernels_on_runes_broken : ∃ a, Run Step State.init brokenCalls a ∧
    (∀ t ∈ a.tasks, t.steps ≤ 4 ∧
      (t.prog = .done (t.key.kernel.onRunes (runes.pieces t.key.s.bytes)).flatten ∨
        t.steps < 4 ∧ ∃ act next, t.prog = .step act next)) := by
  have hrun : ∃ a, Run Step State.init brokenCalls a := by
    refine ⟨_, .cons (.start ?_) (.cons (.start ?_) (.cons (.step (k := ⟨_, _⟩) rfl) (.nil _)))⟩
    · intro t ht
      cases ht
    · intro t ht _
      obtain rfl := List.mem_singleton.1 ht
      rfl
  obtain ⟨a, ha⟩ := hrun
  exact ⟨a, ha, (kernels_on_runes ha).1⟩

end Sky.StringFast
