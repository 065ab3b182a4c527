import Sky.Model.Hydrate

/-! # Parsed texts

What the HTML parser makes of a valid text is valid, and a node is split at characters. -/

namespace Sky.Hydration

open Library Utf8

/-- The string is a text in UTF-8. -/
def ValidText (s : Bytes) : Prop := ∃ cs : List Char, encode cs = s

/-! ## ASCII bytes -/

/-- An ASCII byte of a character is the whole character. -/
theorem encodeChar_of_mem {c : Char} {b : UInt8} (h : b ∈ String.utf8EncodeChar c)
    (hb : b.toNat < 0x80) : String.utf8EncodeChar c = [b] ∧ c.val.toNat = b.toNat := by
  have hmax : c.val.toNat < 0xD800 ∨ 0xDFFF < c.val.toNat ∧ c.val.toNat < 0x110000 := c.valid
  have hnot : ∀ n, 0x80 ≤ n → n < 256 → b = UInt8.ofNat n → False := by
    intro n hn hn' heq
    rw [heq, toNat_ofNat_of_lt hn'] at hb
    omega
  rcases encodeChar_cases c with ⟨hc, henc⟩ | ⟨hc, hc', henc⟩ | ⟨hc, hc', henc⟩ | ⟨hc, henc⟩
  · rw [henc, List.mem_singleton] at h
    rw [henc, h]
    exact ⟨rfl, (toNat_ofNat_of_lt (by omega)).symm⟩
  all_goals
    rw [henc] at h
    simp only [List.mem_cons, List.not_mem_nil, or_false] at h
  · rcases h with h | h
    · exact (hnot _ (by omega) (by omega) h).elim
    · exact (hnot _ (by omega) (by omega) h).elim
  · rcases h with h | h | h
    · exact (hnot _ (by omega) (by omega) h).elim
    · exact (hnot _ (by omega) (by omega) h).elim
    · exact (hnot _ (by omega) (by omega) h).elim
  · rcases h with h | h | h | h
    · exact (hnot _ (by omega) (by omega) h).elim
    · exact (hnot _ (by omega) (by omega) h).elim
    · exact (hnot _ (by omega) (by omega) h).elim
    · exact (hnot _ (by omega) (by omega) h).elim

theorem encode_cons (c : Char) (cs : List Char) :
    encode (c :: cs) = String.utf8EncodeChar c ++ encode cs := rfl

theorem ValidText.append {s t : Bytes} (hs : ValidText s) (ht : ValidText t) :
    ValidText (s ++ t) := by
  obtain ⟨cs, rfl⟩ := hs
  obtain ⟨ds, rfl⟩ := ht
  exact ⟨cs ++ ds, encode_append cs ds⟩

theorem validText_char (c : Char) : ValidText (String.utf8EncodeChar c) :=
  ⟨[c], by simp [encode]⟩

theorem validText_nil : ValidText [] := ⟨[], rfl⟩

/-! ## Line ends and NULs -/

theorem joinLines_cons {b : UInt8} (s : Bytes) (hb : b ≠ 0x0D) :
    joinLines (b :: s) = b :: joinLines s := by
  rw [joinLines]
  intro t hcr
  exact absurd hcr hb

theorem joinLines_append {bs : Bytes} (s : Bytes) (h : (0x0D : UInt8) ∉ bs) :
    joinLines (bs ++ s) = bs ++ joinLines s := by
  induction bs with
  | nil => rfl
  | cons b bs ih =>
      rw [List.mem_cons, not_or] at h
      rw [List.cons_append, joinLines_cons _ fun heq => h.1 heq.symm, ih h.2, List.cons_append]

theorem joinLines_cr {b : UInt8} (s : Bytes) (hb : b ≠ 0x0A) :
    joinLines (0x0D :: b :: s) = 0x0D :: joinLines (b :: s) := by
  rw [joinLines]
  intro t _ heq
  exact absurd (List.cons.inj heq).1 hb

theorem ValidText.joinLines {s : Bytes} (h : ValidText s) : ValidText (joinLines s) := by
  obtain ⟨cs, rfl⟩ := h
  induction hn : cs.length using Nat.strong_induction_on generalizing cs with
  | _ n ih =>
      cases cs with
      | nil => exact ⟨[], rfl⟩
      | cons c cs =>
          rw [List.length_cons] at hn
          rw [encode_cons]
          by_cases hcr : (0x0D : UInt8) ∈ String.utf8EncodeChar c
          · rw [(encodeChar_of_mem hcr (by decide)).1, List.singleton_append]
            have hcrText : ValidText [0x0D] := ⟨['\r'], rfl⟩
            cases cs with
            | nil => exact hcrText
            | cons d ds =>
                rw [List.length_cons] at hn
                rw [encode_cons]
                by_cases hlf : (0x0A : UInt8) ∈ String.utf8EncodeChar d
                · rw [(encodeChar_of_mem hlf (by decide)).1, List.singleton_append,
                    Hydration.joinLines]
                  exact ValidText.append (s := [0x0A]) ⟨['\n'], rfl⟩ (ih _ (by omega) ds rfl)
                · obtain ⟨b, bs, hb⟩ := List.exists_cons_of_ne_nil
                    (String.utf8EncodeChar_ne_nil (c := d))
                  have hne : b ≠ 0x0A := by
                    intro heq
                    rw [hb, heq] at hlf
                    exact hlf List.mem_cons_self
                  rw [hb, List.cons_append, joinLines_cr _ hne, ← List.cons_append, ← hb]
                  exact hcrText.append (ih _ (by rw [List.length_cons]; omega) (d :: ds) rfl)
          · rw [joinLines_append _ hcr]
            exact (validText_char c).append (ih _ (by omega) cs rfl)

/-- A function of bytes that leaves valid characters valid. -/
theorem ValidText.flatMap {f : UInt8 → Bytes}
    (hf : ∀ c : Char, ValidText ((String.utf8EncodeChar c).flatMap f)) {s : Bytes}
    (h : ValidText s) : ValidText (s.flatMap f) := by
  obtain ⟨cs, rfl⟩ := h
  induction cs with
  | nil => exact validText_nil
  | cons c cs ih =>
      rw [encode_cons, List.flatMap_append]
      exact (hf c).append ih

/-- Such is one that changes a single ASCII byte only. -/
theorem validText_flatMap_char {f : UInt8 → Bytes} {a : UInt8} (ha : a.toNat < 0x80)
    (hfa : ValidText (f a)) (hother : ∀ b, b ≠ a → f b = [b]) (c : Char) :
    ValidText ((String.utf8EncodeChar c).flatMap f) := by
  by_cases hmem : a ∈ String.utf8EncodeChar c
  · rw [(encodeChar_of_mem hmem ha).1, List.flatMap_singleton]
    exact hfa
  · have hid : (String.utf8EncodeChar c).flatMap f = String.utf8EncodeChar c := by
      have hall : ∀ l : Bytes, a ∉ l → l.flatMap f = l := by
        intro l
        induction l with
        | nil => exact fun _ => rfl
        | cons b l ih =>
            intro hl
            rw [List.mem_cons, not_or] at hl
            rw [List.flatMap_cons, hother b fun heq => hl.1 heq.symm, ih hl.2,
              List.singleton_append]
      exact hall _ hmem
    rw [hid]
    exact validText_char c

theorem ValidText.replaceCR {s : Bytes} (h : ValidText s) : ValidText (replaceCR s) := by
  have heq : Hydration.replaceCR s = s.flatMap fun b => [if b = 0x0D then 0x0A else b] := by
    rw [Hydration.replaceCR, List.map_eq_flatMap]
  rw [heq]
  refine h.flatMap (validText_flatMap_char (a := 0x0D) (by decide) ⟨['\n'], rfl⟩ ?_)
  intro b hb
  rw [if_neg hb]

theorem filter_nul_eq (s : Bytes) :
    s.filter (fun b => b ≠ 0x00) = s.flatMap fun b => if b = 0x00 then [] else [b] := by
  induction s with
  | nil => rfl
  | cons b s ih =>
      rw [List.filter_cons, List.flatMap_cons, ih]
      by_cases hb : b = 0x00 <;> simp [hb]

theorem ValidText.parsed {s : Bytes} (tag : Bytes) (h : ValidText s) :
    ValidText (spaParsedText tag s) := by
  have hlines : ValidText (if 0x0D ∈ s then Hydration.replaceCR (Hydration.joinLines s) else s) := by
    split
    · exact h.joinLines.replaceCR
    · exact h
  have hreplacement : ValidText [0xEF, 0xBF, 0xBD] := ⟨['\uFFFD'], by decide⟩
  rw [spaParsedText]
  generalize (if 0x0D ∈ s then Hydration.replaceCR (Hydration.joinLines s) else s) = t at hlines
  split
  · split
    · refine hlines.flatMap (validText_flatMap_char (a := 0x00) (by decide) ?_ ?_)
      · exact hreplacement
      · intro b hb
        rw [if_neg hb]
    · rw [filter_nul_eq]
      refine hlines.flatMap (validText_flatMap_char (a := 0x00) (by decide) ?_ ?_)
      · exact validText_nil
      · intro b hb
        rw [if_neg hb]
  · exact hlines

theorem ValidText.trimNewline {s : Bytes} (h : ValidText s) : ValidText (trimNewline s) := by
  obtain ⟨cs, rfl⟩ := h
  cases cs with
  | nil => exact validText_nil
  | cons c cs =>
      rw [encode_cons]
      by_cases hlf : (0x0A : UInt8) ∈ String.utf8EncodeChar c
      · rw [(encodeChar_of_mem hlf (by decide)).1, List.singleton_append]
        exact ⟨cs, rfl⟩
      · obtain ⟨b, bs, hb⟩ := List.exists_cons_of_ne_nil (String.utf8EncodeChar_ne_nil (c := c))
        have hne : b ≠ 0x0A := by
          intro heq
          rw [hb, heq] at hlf
          exact hlf List.mem_cons_self
        have hkeep : Hydration.trimNewline (b :: bs ++ encode cs) = b :: bs ++ encode cs := by
          rw [List.cons_append, Hydration.trimNewline]
          intro t heq
          exact absurd (List.cons.inj heq).1 hne
        rw [hb, hkeep, ← hb]
        exact ⟨c :: cs, rfl⟩

/-! ## Offsets -/

theorem units_pos (c : Char) : 1 ≤ Dom.units c := by
  rw [Dom.units]
  split <;> omega

theorem foldl_add_units (l : List Bytes) (n : ℕ) :
    l.foldl (fun n c => if rune c ≥ 0x10000 then n + 2 else n + 1) n =
      n + (l.map fun c => if rune c ≥ 0x10000 then 2 else 1).sum := by
  induction l generalizing n with
  | nil => rfl
  | cons c l ih =>
      rw [List.foldl_cons, ih, List.map_cons, List.sum_cons]
      split <;> omega

/-- The length that the client computes is the one that the DOM counts. -/
theorem spaUTF16Len_encode (cs : List Char) :
    spaUTF16Len (encode cs) = (cs.map Dom.units).sum := by
  rw [spaUTF16Len, foldl_add_units, pieces_encode, List.map_map, Nat.zero_add]
  congr 1
  apply List.map_congr_left
  intro c _
  simp only [Function.comp_apply, rune_encodeChar, Dom.units]

theorem cut_units (cs ds : List Char) :
    Dom.cut (cs.map Dom.units).sum (cs ++ ds) = some (cs, ds) := by
  induction cs with
  | nil => cases ds <;> rfl
  | cons c cs ih =>
      have hpos := units_pos c
      obtain ⟨n, hn⟩ : ∃ n, ((c :: cs).map Dom.units).sum = n + 1 := by
        rw [List.map_cons, List.sum_cons]
        exact ⟨Dom.units c + (cs.map Dom.units).sum - 1, by omega⟩
      have hsum : n + 1 = Dom.units c + (cs.map Dom.units).sum := by
        rw [← hn, List.map_cons, List.sum_cons]
      rw [hn, List.cons_append, Dom.cut, if_pos (by omega),
        show n + 1 - Dom.units c = (cs.map Dom.units).sum by omega, ih]
      rfl

end Sky.Hydration
