import Sky.Library.Pieces

/-! # UTF-8 as Go decodes it

The sizes that `unicode/utf8` finds, which are those of `range` over a string: an invalid byte is a
code point of one byte. -/

namespace Sky.Utf8

open Library

def runeSelf : UInt8 := 0x80

/-- `utf8.first` and `utf8.acceptRanges`: how many bytes a lead byte calls for, and the range of
the second one. -/
structure Lead where
  size : ℕ
  lo : UInt8
  hi : UInt8

def first (b : UInt8) : Lead :=
  if b < 0xC2 then ⟨1, 0, 0⟩
  else if b < 0xE0 then ⟨2, 0x80, 0xBF⟩
  else if b = 0xE0 then ⟨3, 0xA0, 0xBF⟩
  else if b = 0xED then ⟨3, 0x80, 0x9F⟩
  else if b < 0xF0 then ⟨3, 0x80, 0xBF⟩
  else if b = 0xF0 then ⟨4, 0x90, 0xBF⟩
  else if b < 0xF4 then ⟨4, 0x80, 0xBF⟩
  else if b = 0xF4 then ⟨4, 0x80, 0x8F⟩
  else ⟨1, 0, 0⟩

def Lead.accepts (x : Lead) : List UInt8 → Bool
  | [] => true
  | s1 :: rest => x.lo ≤ s1 && s1 ≤ x.hi && rest.all fun b => 0x80 ≤ b && b ≤ 0xBF

/-- The size that `utf8.DecodeRuneInString` returns: an invalid byte is one code point. -/
def decodeRuneInString : List UInt8 → ℕ
  | [] => 0
  | s0 :: rest =>
      let x := first s0
      if x.size ≤ rest.length + 1 && x.accepts (rest.take (x.size - 1)) then x.size else 1

/-- `utf8.RuneStart` -/
def runeStart (b : UInt8) : Bool := b &&& 0xC0 != 0x80

/-- The search of `utf8.DecodeLastRuneInString` for a byte that starts a code point, over the
`n` bytes from `lim` on, the last one first. -/
def searchStart (s : List UInt8) (lim : ℕ) : ℕ → ℕ
  | 0 => lim - 1
  | n + 1 => if s[lim + n]?.any runeStart then lim + n else searchStart s lim n

/-- The size that `utf8.DecodeLastRuneInString` returns. -/
def decodeLastRuneInString (s : List UInt8) : ℕ :=
  match s.getLast? with
  | none => 0
  | some r =>
      if r < runeSelf then 1
      else
        let lim := s.length - 4
        let start := searchStart s lim (s.length - 1 - lim)
        let size := decodeRuneInString (s.drop start)
        if start + size ≠ s.length then 1 else size

/-! ## Code points -/

theorem size_bounds (b : UInt8) : 1 ≤ (first b).size ∧ (first b).size ≤ 4 := by
  unfold first
  split_ifs <;> simp

theorem lead_bounds (b : UInt8) (h : 1 < (first b).size) :
    0x80 ≤ (first b).lo ∧ (first b).hi ≤ 0xBF := by
  unfold first at h ⊢
  split_ifs at h ⊢ <;> simp_all

theorem decodeRuneInString_cons (s0 : UInt8) (rest : List UInt8) :
    decodeRuneInString (s0 :: rest) = 1 ∨
      (first s0).size ≤ rest.length + 1 ∧
        (first s0).accepts (rest.take ((first s0).size - 1)) = true ∧
        decodeRuneInString (s0 :: rest) = (first s0).size := by
  rw [decodeRuneInString]
  simp only [Bool.and_eq_true, decide_eq_true_eq]
  split
  · rename_i h
    exact .inr ⟨h.1, h.2, rfl⟩
  · exact .inl rfl

theorem decodeRuneInString_of_accepts {s0 : UInt8} {rest : List UInt8}
    (hsize : (first s0).size ≤ rest.length + 1)
    (haccepts : (first s0).accepts (rest.take ((first s0).size - 1)) = true) :
    decodeRuneInString (s0 :: rest) = (first s0).size := by
  simp [decodeRuneInString, hsize, haccepts]

theorem decodeRuneInString_pos {s : List UInt8} (h : s ≠ []) : 0 < decodeRuneInString s := by
  obtain ⟨s0, rest, rfl⟩ := List.exists_cons_of_ne_nil h
  have hsize := (size_bounds s0).1
  rcases decodeRuneInString_cons s0 rest with hone | ⟨-, -, heq⟩ <;> omega

theorem decodeRuneInString_le (s : List UInt8) : decodeRuneInString s ≤ s.length := by
  cases s with
  | nil => exact le_rfl
  | cons s0 rest =>
      rw [List.length_cons]
      rcases decodeRuneInString_cons s0 rest with hone | ⟨hle, -, heq⟩ <;> omega

/-- The bytes after a code point do not change where it ends. -/
theorem decodeRuneInString_append {a : List UInt8} (b : List UInt8) (ha : a ≠ [])
    (h : decodeRuneInString (a ++ b) ≤ a.length) :
    decodeRuneInString a = decodeRuneInString (a ++ b) := by
  obtain ⟨s0, rest, rfl⟩ := List.exists_cons_of_ne_nil ha
  rw [List.cons_append] at h ⊢
  rw [List.length_cons] at h
  have htake : (first s0).size ≤ rest.length + 1 →
      (rest ++ b).take ((first s0).size - 1) = rest.take ((first s0).size - 1) := by
    intro hle
    exact List.take_append_of_le_length (by omega)
  rcases decodeRuneInString_cons s0 (rest ++ b) with hone | ⟨hlong, haccepts, heq⟩
  · rcases decodeRuneInString_cons s0 rest with hone' | ⟨hle, haccepts, heq⟩
    · rw [hone, hone']
    · rw [heq, decodeRuneInString_of_accepts]
      · rw [List.length_append]
        omega
      · rwa [htake hle]
  · have hle : (first s0).size ≤ rest.length + 1 := by omega
    rw [heq, decodeRuneInString_of_accepts hle]
    rwa [← htake hle]

/-- The code points of a string, invalid bytes included. -/
def runes : Cutter UInt8 where
  width := decodeRuneInString
  pos _ := decodeRuneInString_pos
  le := decodeRuneInString_le
  stable _ b := decodeRuneInString_append b

/-! ## Valid texts -/

/-- The value of a code point: an invalid byte is `utf8.RuneError`. -/
def rune : List UInt8 → ℕ
  | [b0] => if b0 < runeSelf then b0.toNat else 0xFFFD
  | [b0, b1] => b0.toNat % 32 * 64 + b1.toNat % 64
  | [b0, b1, b2] => b0.toNat % 16 * 4096 + b1.toNat % 64 * 64 + b2.toNat % 64
  | [b0, b1, b2, b3] =>
      b0.toNat % 8 * 262144 + b1.toNat % 64 * 4096 + b2.toNat % 64 * 64 + b3.toNat % 64
  | _ => 0xFFFD

/-- A text in UTF-8. -/
def encode (cs : List Char) : List UInt8 := cs.flatMap String.utf8EncodeChar

theorem first_eq {b : UInt8} {n : ℕ} (h : b.toNat = n) : first b =
    if n < 0xC2 then ⟨1, 0, 0⟩
    else if n < 0xE0 then ⟨2, 0x80, 0xBF⟩
    else if n = 0xE0 then ⟨3, 0xA0, 0xBF⟩
    else if n = 0xED then ⟨3, 0x80, 0x9F⟩
    else if n < 0xF0 then ⟨3, 0x80, 0xBF⟩
    else if n = 0xF0 then ⟨4, 0x90, 0xBF⟩
    else if n < 0xF4 then ⟨4, 0x80, 0xBF⟩
    else if n = 0xF4 then ⟨4, 0x80, 0x8F⟩
    else ⟨1, 0, 0⟩ := by
  subst h
  simp only [first, UInt8.lt_iff_toNat_lt, ← UInt8.toNat_inj]
  rfl

theorem encodeChar_cases (c : Char) :
    (c.val.toNat < 0x80 ∧ String.utf8EncodeChar c = [UInt8.ofNat c.val.toNat]) ∨
    (0x80 ≤ c.val.toNat ∧ c.val.toNat < 0x800 ∧ String.utf8EncodeChar c =
      [UInt8.ofNat (c.val.toNat / 64 + 0xC0), UInt8.ofNat (c.val.toNat % 64 + 0x80)]) ∨
    (0x800 ≤ c.val.toNat ∧ c.val.toNat < 0x10000 ∧ String.utf8EncodeChar c =
      [UInt8.ofNat (c.val.toNat / 4096 + 0xE0), UInt8.ofNat (c.val.toNat / 64 % 64 + 0x80),
        UInt8.ofNat (c.val.toNat % 64 + 0x80)]) ∨
    (0x10000 ≤ c.val.toNat ∧ String.utf8EncodeChar c =
      [UInt8.ofNat (c.val.toNat / 262144 + 0xF0), UInt8.ofNat (c.val.toNat / 4096 % 64 + 0x80),
        UInt8.ofNat (c.val.toNat / 64 % 64 + 0x80), UInt8.ofNat (c.val.toNat % 64 + 0x80)]) := by
  have hmax : c.val.toNat < 0x110000 := by
    rcases c.valid with h | h
    · exact lt_trans h (by norm_num)
    · exact h.2
  unfold String.utf8EncodeChar
  by_cases h1 : c.val.toNat ≤ 0x7f
  · exact .inl ⟨by omega, if_pos h1⟩
  · by_cases h2 : c.val.toNat ≤ 0x7ff
    · refine .inr (.inl ⟨by omega, by omega, ?_⟩)
      simp only [if_neg h1, if_pos h2]
      rw [show c.val.toNat / 64 % 0x20 = c.val.toNat / 64 from Nat.mod_eq_of_lt (by omega)]
    · by_cases h3 : c.val.toNat ≤ 0xffff
      · refine .inr (.inr (.inl ⟨by omega, by omega, ?_⟩))
        simp only [if_neg h1, if_neg h2, if_pos h3]
        rw [show c.val.toNat / 4096 % 0x10 = c.val.toNat / 4096 from Nat.mod_eq_of_lt (by omega)]
      · refine .inr (.inr (.inr ⟨by omega, ?_⟩))
        simp only [if_neg h1, if_neg h2, if_neg h3]
        rw [show c.val.toNat / 262144 % 0x08 = c.val.toNat / 262144 from
          Nat.mod_eq_of_lt (by omega)]

theorem toNat_ofNat_of_lt {n : ℕ} (h : n < 256) : (UInt8.ofNat n).toNat = n := by
  rw [UInt8.toNat_ofNat']
  exact Nat.mod_eq_of_lt h

theorem Lead.accepts_cons {x : Lead} {s1 : UInt8} {rest : List UInt8} :
    x.accepts (s1 :: rest) = true ↔
      x.lo ≤ s1 ∧ s1 ≤ x.hi ∧ ∀ b ∈ rest, 0x80 ≤ b ∧ b ≤ 0xBF := by
  simp [Lead.accepts, and_assoc]

theorem decodeRuneInString_of_lead {b0 : UInt8} {tail : List UInt8} (rest : List UInt8)
    (hsize : (first b0).size = tail.length + 1) (haccepts : (first b0).accepts tail = true) :
    decodeRuneInString (b0 :: tail ++ rest) = (b0 :: tail).length := by
  rw [List.cons_append, decodeRuneInString_of_accepts, hsize, List.length_cons]
  · rw [hsize, List.length_append]
    omega
  · rw [hsize, Nat.add_sub_cancel, List.take_left]
    exact haccepts

/-- A byte that goes on, and one within narrower bounds. -/
theorem cont_bounds {n : ℕ} (lo hi : ℕ) (hn : n < 64) (hlo : lo ≤ n + 0x80) (hhi : n + 0x80 ≤ hi)
    (hb : hi < 256) : UInt8.ofNat lo ≤ UInt8.ofNat (n + 0x80) ∧
      UInt8.ofNat (n + 0x80) ≤ UInt8.ofNat hi := by
  rw [UInt8.le_iff_toNat_le, UInt8.le_iff_toNat_le, toNat_ofNat_of_lt (by omega),
    toNat_ofNat_of_lt (by omega), toNat_ofNat_of_lt hb]
  exact ⟨hlo, hhi⟩

/-- A code point of a valid text is read as a whole, whatever follows. -/
theorem decodeRuneInString_encodeChar (c : Char) (rest : List UInt8) :
    decodeRuneInString (String.utf8EncodeChar c ++ rest) = (String.utf8EncodeChar c).length := by
  have hmax : c.val.toNat < 0xD800 ∨ 0xDFFF < c.val.toNat ∧ c.val.toNat < 0x110000 := c.valid
  have hcont : ∀ n, n < 64 → 0x80 ≤ UInt8.ofNat (n + 0x80) ∧ UInt8.ofNat (n + 0x80) ≤ 0xBF :=
    fun n hn => cont_bounds 0x80 0xBF hn (by omega) (by omega) (by norm_num)
  have hlast : ∀ n, 0x80 ≤ UInt8.ofNat (n % 64 + 0x80) ∧ UInt8.ofNat (n % 64 + 0x80) ≤ 0xBF :=
    fun n => hcont _ (Nat.mod_lt _ (by norm_num))
  rcases encodeChar_cases c with ⟨hc, henc⟩ | ⟨hc, hc', henc⟩ | ⟨hc, hc', henc⟩ | ⟨hc, henc⟩
  · rw [henc]
    have hfirst := first_eq (toNat_ofNat_of_lt (n := c.val.toNat) (by omega))
    rw [if_pos (by omega)] at hfirst
    apply decodeRuneInString_of_lead
    · rw [hfirst]
      rfl
    · rfl
  · rw [henc]
    have hfirst := first_eq (toNat_ofNat_of_lt (n := c.val.toNat / 64 + 0xC0) (by omega))
    rw [if_neg (by omega), if_pos (by omega)] at hfirst
    apply decodeRuneInString_of_lead
    · rw [hfirst]
      rfl
    · rw [hfirst, Lead.accepts_cons]
      exact ⟨(hlast _).1, (hlast _).2, by simp⟩
  · rw [henc]
    have hfirst := first_eq (toNat_ofNat_of_lt (n := c.val.toNat / 4096 + 0xE0) (by omega))
    rw [if_neg (by omega), if_neg (by omega)] at hfirst
    have htail : ∀ b ∈ [UInt8.ofNat (c.val.toNat % 64 + 0x80)], 0x80 ≤ b ∧ b ≤ 0xBF := by
      intro b hb
      rw [List.mem_singleton.mp hb]
      exact hlast _
    have hmid : c.val.toNat / 64 % 64 < 64 := Nat.mod_lt _ (by norm_num)
    apply decodeRuneInString_of_lead
    · rw [hfirst]
      split_ifs <;> first | rfl | omega
    · rw [hfirst]
      split_ifs with h1 h2 h3
      · rw [Lead.accepts_cons]
        have hlow := cont_bounds 0xA0 0xBF hmid (by omega) (by omega) (by norm_num)
        exact ⟨hlow.1, hlow.2, htail⟩
      · rw [Lead.accepts_cons]
        have hhigh := cont_bounds 0x80 0x9F hmid (by omega) (by omega) (by norm_num)
        exact ⟨hhigh.1, hhigh.2, htail⟩
      · rw [Lead.accepts_cons]
        exact ⟨(hlast _).1, (hlast _).2, htail⟩
      all_goals omega
  · rw [henc]
    have hfirst := first_eq (toNat_ofNat_of_lt (n := c.val.toNat / 262144 + 0xF0) (by omega))
    rw [if_neg (by omega), if_neg (by omega), if_neg (by omega), if_neg (by omega),
      if_neg (by omega)] at hfirst
    have htail : ∀ b ∈ [UInt8.ofNat (c.val.toNat / 64 % 64 + 0x80),
        UInt8.ofNat (c.val.toNat % 64 + 0x80)], 0x80 ≤ b ∧ b ≤ 0xBF := by
      intro b hb
      rw [List.mem_cons, List.mem_singleton] at hb
      rcases hb with rfl | rfl <;> exact hlast _
    have hmid : c.val.toNat / 4096 % 64 < 64 := Nat.mod_lt _ (by norm_num)
    apply decodeRuneInString_of_lead
    · rw [hfirst]
      split_ifs <;> first | rfl | omega
    · rw [hfirst]
      split_ifs with h1 h2 h3
      · rw [Lead.accepts_cons]
        have hlow := cont_bounds 0x90 0xBF hmid (by omega) (by omega) (by norm_num)
        exact ⟨hlow.1, hlow.2, htail⟩
      · rw [Lead.accepts_cons]
        exact ⟨(hlast _).1, (hlast _).2, htail⟩
      · rw [Lead.accepts_cons]
        have hhigh := cont_bounds 0x80 0x8F hmid (by omega) (by omega) (by norm_num)
        exact ⟨hhigh.1, hhigh.2, htail⟩
      · omega

theorem rune_encodeChar (c : Char) : rune (String.utf8EncodeChar c) = c.val.toNat := by
  have hmax : c.val.toNat < 0xD800 ∨ 0xDFFF < c.val.toNat ∧ c.val.toNat < 0x110000 := c.valid
  have hlow (n : ℕ) : (n % 64 + 0x80) % 64 = n % 64 := by omega
  have htwo : c.val.toNat / 4096 = c.val.toNat / 64 / 64 := (Nat.div_div_eq_div_mul _ 64 64).symm
  have hthree : c.val.toNat / 262144 = c.val.toNat / 64 / 64 / 64 := by
    rw [Nat.div_div_eq_div_mul, Nat.div_div_eq_div_mul]
  have hsum (a b d e : ℕ) :
      a * 262144 + b * 4096 + d * 64 + e = ((a * 64 + b) * 64 + d) * 64 + e := by ring
  rcases encodeChar_cases c with ⟨hc, henc⟩ | ⟨hc, hc', henc⟩ | ⟨hc, hc', henc⟩ | ⟨hc, henc⟩
  · have hascii : UInt8.ofNat c.val.toNat < runeSelf := by
      rw [UInt8.lt_iff_toNat_lt, toNat_ofNat_of_lt (by omega)]
      exact hc
    rw [henc, rune, if_pos hascii, toNat_ofNat_of_lt (by omega)]
  · have hhead : (c.val.toNat / 64 + 0xC0) % 32 = c.val.toNat / 64 := by omega
    rw [henc, rune, toNat_ofNat_of_lt (by omega), toNat_ofNat_of_lt (by omega), hhead, hlow,
      Nat.div_add_mod']
  · have hhead : (c.val.toNat / 64 / 64 + 0xE0) % 16 = c.val.toNat / 64 / 64 := by omega
    have hthree' := hsum 0 (c.val.toNat / 64 / 64) (c.val.toNat / 64 % 64) (c.val.toNat % 64)
    rw [Nat.zero_mul, Nat.zero_add, Nat.zero_add] at hthree'
    rw [henc, rune, toNat_ofNat_of_lt (by omega), toNat_ofNat_of_lt (by omega),
      toNat_ofNat_of_lt (by omega), htwo, hhead, hlow, hlow, hthree', Nat.div_add_mod',
      Nat.div_add_mod']
  · have hhead : (c.val.toNat / 64 / 64 / 64 + 0xF0) % 8 = c.val.toNat / 64 / 64 / 64 := by omega
    rw [henc, rune, toNat_ofNat_of_lt (by omega), toNat_ofNat_of_lt (by omega),
      toNat_ofNat_of_lt (by omega), toNat_ofNat_of_lt (by omega), htwo, hthree, hhead, hlow, hlow,
      hlow, hsum, Nat.div_add_mod', Nat.div_add_mod', Nat.div_add_mod']

/-- The code points of a valid text are its characters. -/
theorem pieces_encode (cs : List Char) : runes.pieces (encode cs) = cs.map String.utf8EncodeChar := by
  induction cs with
  | nil => rfl
  | cons c cs ih =>
      have henc : encode (c :: cs) = String.utf8EncodeChar c ++ encode cs := rfl
      have hwidth : runes.width (encode (c :: cs)) = (String.utf8EncodeChar c).length := by
        rw [henc]
        exact decodeRuneInString_encodeChar c _
      have hne : encode (c :: cs) ≠ [] := by
        rw [henc]
        exact List.append_ne_nil_of_left_ne_nil String.utf8EncodeChar_ne_nil _
      rw [runes.pieces_of_ne_nil hne, hwidth, henc, List.take_left, List.drop_left, ih, List.map_cons]

theorem encode_append (cs ds : List Char) : encode (cs ++ ds) = encode cs ++ encode ds := by
  simp [encode]

theorem encode_injective : Function.Injective encode := by
  intro cs ds h
  have hpieces := congrArg (fun s => (runes.pieces s).map rune) h
  simp only [pieces_encode, List.map_map] at hpieces
  have hrune : ∀ l : List Char, l.map (rune ∘ String.utf8EncodeChar) = l.map fun c => c.val.toNat :=
    fun l => List.map_congr_left fun c _ => rune_encodeChar c
  rw [hrune, hrune] at hpieces
  refine List.map_injective_iff.mpr ?_ hpieces
  intro a b hab
  exact Char.ext (UInt32.toNat.inj hab)

end Sky.Utf8
