import Sky.Model.StringFast

/-! # The walks and the code points

Forward and backward, the walks stop at the borders between the code points of a string. -/

namespace Sky.StringFast

open Library Utf8

variable {s : List UInt8} {b : UInt8} {i j k : ℕ}

/-! ## Bytes -/

theorem byte_cases (P : UInt8 → Prop) (h : ∀ n : Fin 256, P (UInt8.ofNat n)) (b : UInt8) : P b := by
  have hb := h ⟨b.toNat, b.toNat_lt⟩
  rwa [UInt8.ofNat_toNat] at hb

/-- A byte that begins several is no byte inside. -/
theorem runeStart_of_size (h : 1 < (first b).size) : runeStart b = true := by
  revert h
  refine byte_cases (fun b => 1 < (first b).size → runeStart b = true) ?_ b
  decide +kernel

theorem not_runeStart_of_mem (hlo : 0x80 ≤ b) (hhi : b ≤ 0xBF) : runeStart b = false := by
  revert hlo hhi
  refine byte_cases (fun b => 0x80 ≤ b → b ≤ 0xBF → runeStart b = false) ?_ b
  decide +kernel

theorem runeSelf_le_of_size (h : 1 < (first b).size) : ¬b < runeSelf := by
  revert h
  refine byte_cases (fun b => 1 < (first b).size → ¬b < runeSelf) ?_ b
  decide +kernel

/-- The bytes after the first one of a code point. -/
theorem inside_bounds (hj : 0 < j) (hlt : j < decodeRuneInString s) (hx : s[j]? = some b) :
    0x80 ≤ b ∧ b ≤ 0xBF := by
  cases s with
  | nil => cases hx
  | cons s0 rest =>
      obtain ⟨j, rfl⟩ : ∃ d, j = d + 1 := ⟨j - 1, by omega⟩
      rw [List.getElem?_cons_succ] at hx
      rcases decodeRuneInString_cons s0 rest with hone | ⟨hle, haccepts, heq⟩
      · omega
      · rw [heq] at hlt
        obtain ⟨hlo, hhi⟩ := lead_bounds s0 (by omega)
        have hmem : (rest.take ((first s0).size - 1))[j]? = some b := by
          rw [List.getElem?_take_of_lt (by omega), hx]
        cases htake : rest.take ((first s0).size - 1) with
        | nil =>
            rw [htake] at hmem
            cases hmem
        | cons s1 more =>
            rw [htake] at haccepts hmem
            simp only [Lead.accepts, Bool.and_eq_true, decide_eq_true_eq, List.all_eq_true]
              at haccepts
            obtain ⟨⟨hlo', hhi'⟩, hall⟩ := haccepts
            cases j with
            | zero =>
                obtain rfl : s1 = b := by simpa using hmem
                exact ⟨UInt8.le_trans hlo hlo', UInt8.le_trans hhi' hhi⟩
            | succ j => exact hall b (List.mem_of_getElem? hmem)

theorem inside_not_start (s : List UInt8) (j : ℕ) (b : UInt8) (hj : 0 < j)
    (hlt : j < runes.width s) (hx : s[j]? = some b) : ¬runeStart b = true := by
  obtain ⟨hlo, hhi⟩ := inside_bounds hj hlt hx
  simp [not_runeStart_of_mem hlo hhi]

theorem first_of_decode (h : 1 < decodeRuneInString s) :
    ∃ b, s[0]? = some b ∧ 1 < (first b).size := by
  cases s with
  | nil => exact absurd h (by decide)
  | cons s0 rest =>
      refine ⟨s0, rfl, ?_⟩
      rcases decodeRuneInString_cons s0 rest with hone | ⟨-, -, heq⟩ <;> omega

theorem decode_ascii (hx : s[0]? = some b) (hb : b < runeSelf) : decodeRuneInString s = 1 := by
  have hpos := decodeRuneInString_pos (s := s) (by rintro rfl; cases hx)
  by_contra hne
  obtain ⟨c, hc, hsize⟩ := first_of_decode (s := s) (by omega)
  obtain rfl := Option.some.inj (hx.symm.trans hc)
  exact runeSelf_le_of_size hsize hb

/-! ## Forward -/

theorem walkRunes_eq (s : List UInt8) (hi : i ≤ s.length) (k : ℕ) :
    walkRunes s i k = i + runes.offset (s.drop i) k := by
  induction k generalizing i with
  | zero =>
      rw [walkRunes, Cutter.offset_zero]
      split <;> omega
  | succ k ih =>
      cases hx : s[i]? with
      | none =>
          have hlength := List.getElem?_eq_none_iff.1 hx
          rw [List.drop_eq_nil_of_le hlength, Cutter.offset_nil]
          simp only [walkRunes, hx]
          omega
      | some b =>
          have hlt := (List.getElem?_eq_some_iff.1 hx).1
          have hne : s.drop i ≠ [] := by
            rw [Ne, List.drop_eq_nil_iff]
            omega
          have hnext : (if b < runeSelf then i + 1 else i + decodeRuneInString (s.drop i)) =
              i + decodeRuneInString (s.drop i) := by
            split
            · rw [decode_ascii (b := b) (by rw [List.getElem?_drop, Nat.add_zero, hx]) ‹_›]
            · rfl
          have hle := decodeRuneInString_le (s.drop i)
          rw [List.length_drop] at hle
          simp only [walkRunes, hx]
          rw [hnext, ih (by omega), runes.offset_succ hne, ← List.drop_drop, Nat.add_assoc]
          rfl

/-! ## Backward -/

theorem searchStart_le (s : List UInt8) (lim n : ℕ) : searchStart s lim n ≤ lim + n - 1 := by
  induction n with
  | zero => exact le_rfl
  | succ n ih =>
      rw [searchStart]
      split <;> omega

theorem searchStart_spec (s : List UInt8) (lim n : ℕ) :
    (∃ b, s[searchStart s lim n]? = some b ∧ runeStart b = true ∧ lim ≤ searchStart s lim n ∧
        ∀ j b, searchStart s lim n < j → j < lim + n → s[j]? = some b → runeStart b = false) ∨
      searchStart s lim n = lim - 1 ∧
        ∀ j b, lim ≤ j → j < lim + n → s[j]? = some b → runeStart b = false := by
  induction n with
  | zero => exact .inr ⟨rfl, fun j b hle hlt => by omega⟩
  | succ n ih =>
      rw [searchStart]
      split
      · rename_i hfound
        obtain ⟨b, hb, hstart⟩ := (Option.any_eq_true _ _).1 hfound
        exact .inl ⟨b, hb, hstart, Nat.le_add_right _ _, fun j c hlt hlt' => by omega⟩
      · rename_i hnone
        have htop : ∀ b, s[lim + n]? = some b → runeStart b = false := by
          intro b hb
          rw [← Bool.not_eq_true]
          exact fun hstart => hnone ((Option.any_eq_true _ _).2 ⟨b, hb, hstart⟩)
        have hstep : ∀ j b, (j < lim + n → s[j]? = some b → runeStart b = false) →
            j < lim + (n + 1) → s[j]? = some b → runeStart b = false := by
          intro j b hbelow hlt hb
          rcases Nat.lt_or_ge j (lim + n) with hlt' | hge
          · exact hbelow hlt' hb
          · obtain rfl : j = lim + n := by omega
            exact htop b hb
        rcases ih with ⟨b, hb, hstart, hle, hafter⟩ | ⟨heq, hafter⟩
        · exact .inl ⟨b, hb, hstart, hle, fun j c hlt => hstep j c fun h hc => hafter j c hlt h hc⟩
        · exact .inr ⟨heq, fun j c hle => hstep j c fun h hc => hafter j c hle h hc⟩

/-- The last code point. -/
theorem getLast_eq_drop {r : List UInt8} {l : List (List UInt8)} (h : runes.pieces s = l ++ [r]) :
    s.drop (s.length - r.length) = r ∧ 0 < r.length ∧ r.length ≤ s.length ∧
      decodeRuneInString r = r.length := by
  have hflatten : l.flatten ++ r = s := by
    rw [← runes.flatten_pieces s, h, List.flatten_append, List.flatten_singleton]
  have hoffset : runes.offset s l.length = s.length - r.length := by
    rw [Cutter.offset, h, List.take_left, ← hflatten, List.length_append, Nat.add_sub_cancel]
  have hr : s.drop (s.length - r.length) = r := by
    rw [← hoffset, runes.drop_offset, h, List.drop_left, List.flatten_singleton]
  have hne : r ≠ [] := runes.ne_nil_of_mem_pieces (s := s) (by simp [h])
  have hlength := congrArg List.length hflatten
  rw [List.length_append] at hlength
  refine ⟨hr, List.length_pos_iff.2 hne, by omega, ?_⟩
  have hpieces := runes.pieces_drop_offset s l.length
  rw [hoffset, hr, h, List.drop_left, runes.pieces_of_ne_nil hne] at hpieces
  have hwhole := List.take_eq_self_iff r |>.1 (List.cons.inj hpieces).1
  exact le_antisymm (decodeRuneInString_le r) hwhole

/-- A code point of several bytes that ends the string is the last one. -/
theorem length_eq_of_decode {r : List UInt8} {l : List (List UInt8)}
    (h : runes.pieces s = l ++ [r]) (hlong : 1 < decodeRuneInString (s.drop i))
    (hend : i + decodeRuneInString (s.drop i) = s.length) :
    decodeRuneInString (s.drop i) = r.length := by
  obtain ⟨b, hb, hsize⟩ := first_of_decode hlong
  rw [List.getElem?_drop, Nat.add_zero] at hb
  obtain ⟨k, hk⟩ := runes.border_of_start inside_not_start hb (runeStart_of_size hsize)
  subst hk
  have hpieces := runes.pieces_eq_concat (s := s) (k := k) (by omega)
    (show decodeRuneInString _ = _ by omega)
  have hlast := congrArg List.getLast? (h.symm.trans hpieces)
  rw [List.getLast?_concat, List.getLast?_concat] at hlast
  rw [Option.some.inj hlast, List.length_drop]
  omega

/-- The search stops at the lead byte of the last code point. -/
theorem searchStart_eq {r : List UInt8} (hr : s.drop (s.length - r.length) = r)
    (hdecode : decodeRuneInString r = r.length) (hle : r.length ≤ s.length) (hlong : 1 < r.length) :
    searchStart s (s.length - 4) (s.length - 1 - (s.length - 4)) = s.length - r.length := by
  have hget : ∀ j, s[s.length - r.length + j]? = r[j]? := by
    intro j
    rw [← List.getElem?_drop, hr]
  obtain ⟨b, hb, hsize⟩ := first_of_decode (s := r) (by omega)
  have hsmall : r.length ≤ 4 := by
    have hbound := (size_bounds b).2
    cases r with
    | nil => simp
    | cons s0 rest =>
        obtain rfl : s0 = b := by simpa using hb
        rcases decodeRuneInString_cons s0 rest with hone | ⟨-, -, heq⟩ <;> omega
  have hlead : s[s.length - r.length]? = some b := by
    rw [← hb, ← hget 0, Nat.add_zero]
  have hinside : ∀ j, s.length - r.length < j → j < s.length → ∀ b, s[j]? = some b →
      runeStart b = false := by
    intro j hlt hlt' b hb
    have hx := hget (j - (s.length - r.length))
    rw [Nat.add_sub_cancel' hlt.le, hb] at hx
    obtain ⟨hlo, hhi⟩ := inside_bounds (by omega) (by omega) hx.symm
    exact not_runeStart_of_mem hlo hhi
  rcases searchStart_spec s (s.length - 4) (s.length - 1 - (s.length - 4)) with
    ⟨c, hc, hstart, hfrom, hafter⟩ | ⟨-, hafter⟩
  · rcases Nat.lt_trichotomy (searchStart s (s.length - 4) (s.length - 1 - (s.length - 4)))
      (s.length - r.length) with hlt | heq | hgt
    · have hnot := hafter _ b hlt (by omega) hlead
      rw [runeStart_of_size hsize] at hnot
      cases hnot
    · exact heq
    · have hnot := hinside _ hgt (List.getElem?_eq_some_iff.1 hc).1 c hc
      rw [hstart] at hnot
      cases hnot
  · have hnot := hafter (s.length - r.length) b (by omega) (by omega) hlead
    rw [runeStart_of_size hsize] at hnot
    cases hnot

/-- Decoding back from the end finds the last code point of the string. -/
theorem decodeLastRuneInString_eq {r : List UInt8} {l : List (List UInt8)}
    (h : runes.pieces s = l ++ [r]) : decodeLastRuneInString s = r.length := by
  obtain ⟨hr, hpos, hle, hdecode⟩ := getLast_eq_drop h
  have hne : s ≠ [] := by
    rintro rfl
    rw [List.length_nil] at hle
    omega
  have hget : ∀ j, s[s.length - r.length + j]? = r[j]? := by
    intro j
    rw [← List.getElem?_drop, hr]
  have hlast : s[s.length - 1]? = some (s.getLast hne) := by
    rw [← List.getLast?_eq_getElem?, List.getLast?_eq_some_getLast hne]
  rw [decodeLastRuneInString, List.getLast?_eq_some_getLast hne]
  simp only
  split
  · -- An ASCII byte is not inside a code point.
    rename_i hascii
    by_contra hne'
    have hx := hget (r.length - 1)
    rw [show s.length - r.length + (r.length - 1) = s.length - 1 by omega, hlast] at hx
    have hbounds := inside_bounds (s := r) (by omega) (by omega) hx.symm
    exact absurd hascii (UInt8.not_lt.2 hbounds.1)
  · by_cases hlong : 1 < r.length
    · simp only [searchStart_eq hr hdecode hle hlong, hr, hdecode]
      rw [if_neg (by omega)]
    · have hone : r.length = 1 := by omega
      split
      · exact hone.symm
      · rename_i hend
        rw [not_not] at hend
        by_contra hne'
        refine hne' (length_eq_of_decode h ?_ hend)
        have hpos' : 0 < decodeRuneInString (s.drop (searchStart s (s.length - 4)
            (s.length - 1 - (s.length - 4)))) := by
          apply decodeRuneInString_pos
          have hbound := searchStart_le s (s.length - 4) (s.length - 1 - (s.length - 4))
          rw [Ne, List.drop_eq_nil_iff]
          omega
        omega

theorem walkBack_step (s : List UInt8) (i k : ℕ) :
    walkBack s (i + 1) (k + 1) =
      walkBack s (i + 1 - decodeLastRuneInString (s.take (i + 1))) k := by
  rw [walkBack]
  split
  · rename_i hascii
    obtain ⟨b, hb, hlt⟩ := (Option.any_eq_true _ _).1 hascii
    have hlast : (s.take (i + 1)).getLast? = some b := by
      rw [List.take_add_one, hb, Option.toList_some, List.getLast?_concat]
    rw [decodeLastRuneInString, hlast]
    simp [of_decide_eq_true hlt]
  · rfl

/-- Walking back from a border. -/
theorem walkBack_eq (s : List UInt8) (hj : j ≤ (runes.pieces s).length) (k : ℕ) :
    walkBack s (runes.offset s j) k = runes.offset s (j - k) := by
  induction k generalizing j with
  | zero => rw [walkBack, Nat.sub_zero]
  | succ k ih =>
      cases j with
      | zero => rw [Nat.zero_sub, Cutter.offset_zero, walkBack]
      | succ j =>
          have hoffset := runes.offset_succ_eq hj
          have hpieces := runes.pieces_take_offset s (j + 1)
          rw [List.take_succ_eq_append_getElem hj] at hpieces
          have hlast := decodeLastRuneInString_eq hpieces
          have hne := runes.ne_nil_of_mem_pieces (List.getElem_mem hj)
          obtain ⟨i, hi⟩ : ∃ i, runes.offset s (j + 1) = i + 1 :=
            ⟨runes.offset s (j + 1) - 1, by have := List.length_pos_iff.2 hne; omega⟩
          rw [hi, walkBack_step, ← hi, hlast, hoffset, Nat.add_sub_cancel, ih (by omega),
            Nat.add_sub_add_right]

theorem runeOffsetFromEnd_eq (s : List UInt8) (k : ℕ) :
    runeOffsetFromEnd s k = runes.offset s ((runes.pieces s).length - k) := by
  rw [← walkBack_eq s le_rfl, runes.offset_of_le le_rfl, runeOffsetFromEnd]

end Sky.StringFast
