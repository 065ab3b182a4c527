import Sky.Model.Identity
import Sky.Verification.Identity.Text

/-! # The key spells a tree

The spelling is a prefix code, and is injective up to the order of unordered entries. -/

namespace Sky.Identity

open Sky.Strconv Sky.Library

/-! ## Trees -/

section

/-- The text of a float that is written as one. -/
structure FloatText where
  text : Bytes
  ends : ch ';' ∉ text

/-- What the walk reads off a value. -/
inductive Tree where
  | deep
  | bool (b : Bool)
  | int (i : ℤ)
  | float (t : FloatText)
  | str (s : Bytes)
  | nil
  | nilSlice
  | list (ts : List Tree)
  | struct (ts : List Tree)
  | map (entries : List (Tree × Tree))
  | set (items : List Tree)
  | union (tag : ℕ) (name : Tree) (ts : List Tree)

/-! ## Reading the tree off a value -/

/-- The float is written as an integer. -/
def Integral (f : GoFloat) : Prop := f.val = ⌊f.val⌋ ∧ -2 ^ 63 ≤ f.val ∧ f.val ≤ 2 ^ 63

theorem exact_format (f : GoFloat) : f.format.round |f.val| = |f.val| := f.exact

theorem ne_zero_of_not_integral {f : GoFloat} (h : ¬Integral f) : f.val ≠ 0 := by
  intro hzero
  exact h (by norm_num [Integral, hzero])

/-- The text of a float that is not written as an integer. -/
def floatText (f : GoFloat) (h : ¬Integral f) : FloatText :=
  ⟨formatFloat f.format f.val, notMem_formatFloat (ne_zero_of_not_integral h) (exact_format f)⟩

open Classical in
/-- The tree of a float. -/
noncomputable def floatTree (overflow : ℤ) (f : GoFloat) : Tree :=
  if h : Integral f then .int (int64Of overflow f.val) else .float (floatText f h)

def strTree (depth : ℕ) (s : Bytes) : Tree :=
  if identityKeyMaxDepth < depth then .deep else .str s

mutual

noncomputable def tree (overflow : ℤ) (depth : ℕ) : GoVal → Tree
  | .bool b => if identityKeyMaxDepth < depth then .deep else .bool b
  | .int i => if identityKeyMaxDepth < depth then .deep else .int i
  | .rune c => if identityKeyMaxDepth < depth then .deep else .int c
  | .float f => if identityKeyMaxDepth < depth then .deep else floatTree overflow f
  | .str s => strTree depth s
  | .nilSlice => if identityKeyMaxDepth < depth then .deep else .nilSlice
  | .slice xs =>
      if identityKeyMaxDepth < depth then .deep else .list (trees overflow (depth + 1) xs)
  | .nilMap => if identityKeyMaxDepth < depth then .deep else .nil
  | .map entries | .dict entries =>
      if identityKeyMaxDepth < depth then .deep
      else .map (entryTrees overflow (depth + 1) entries)
  | .struct _ fields =>
      if identityKeyMaxDepth < depth then .deep else .struct (trees overflow (depth + 1) fields)
  | .set items => if identityKeyMaxDepth < depth then .deep else .set (trees overflow 0 items)
  | .union tag name payload =>
      if identityKeyMaxDepth < depth then .deep
      else .union tag (name.elim .nil (strTree (depth + 1))) (trees overflow (depth + 1) payload)
  | .iface v => if identityKeyMaxDepth < depth then .deep else tree overflow (depth + 1) v

noncomputable def trees (overflow : ℤ) (depth : ℕ) : List GoVal → List Tree
  | [] => []
  | v :: vs => tree overflow depth v :: trees overflow depth vs

noncomputable def entryTrees (overflow : ℤ) (depth : ℕ) :
    List (Bytes × GoVal) → List (Tree × Tree)
  | [] => []
  | (k, v) :: entries => (strTree depth k, tree overflow depth v) :: entryTrees overflow depth entries

end

/-! ## Spelling a tree -/

mutual

def code : Tree → Bytes
  | .deep => [ch '!']
  | .bool b => writeBoolKey b
  | .int i => writeIntKey i
  | .float t => ch 'f' :: (t.text ++ [ch ';'])
  | .str s => stringItem s
  | .nil => [ch 'N']
  | .nilSlice => [ch 'Z']
  | .list ts => counted 'L' (codes ts)
  | .struct ts => counted 'R' (codes ts)
  | .map entries => counted 'M' (sortStrings (pairCodes entries))
  | .set items => counted 'S' ((sortStrings (codes items)).map stringItem)
  | .union tag name ts =>
      ch 'U' :: (formatNat tag ++ ch ';' ::
        (code name ++ (formatNat (codes ts).length ++ ch ';' :: (codes ts).flatten)))

def codes : List Tree → List Bytes
  | [] => []
  | t :: ts => code t :: codes ts

def pairCodes : List (Tree × Tree) → List Bytes
  | [] => []
  | (k, v) :: entries => (code k ++ code v) :: pairCodes entries

end

theorem codes_eq_map (ts : List Tree) : codes ts = ts.map code := by
  induction ts with
  | nil => rfl
  | cons t ts ih => rw [codes, List.map_cons, ih]

theorem pairCodes_eq_map (entries : List (Tree × Tree)) :
    pairCodes entries = entries.map fun p => code p.1 ++ code p.2 := by
  induction entries with
  | nil => rfl
  | cons p entries ih => rw [pairCodes, List.map_cons, ih]

theorem writeStringKey_eq (depth : ℕ) (s : Bytes) : writeStringKey depth s = code (strTree depth s) := by
  unfold writeStringKey strTree
  split <;> rfl

section

variable (overflow : ℤ)

theorem writeFloatKey_eq (f : GoFloat) : writeFloatKey overflow f = code (floatTree overflow f) := by
  unfold writeFloatKey floatTree
  by_cases h : Integral f
  · rw [dif_pos h]
    exact if_pos h
  · rw [dif_neg h]
    exact if_neg h

mutual

/-- The key is the spelling of the value's tree. -/
theorem writeIdentityKey_eq (depth : ℕ) (v : GoVal) :
    writeIdentityKey overflow depth v = code (tree overflow depth v) := by
  cases v with
  | bool b => rw [writeIdentityKey, tree]; split <;> rfl
  | int i => rw [writeIdentityKey, tree]; split <;> rfl
  | rune c => rw [writeIdentityKey, tree]; split <;> rfl
  | float f =>
      rw [writeIdentityKey, tree]
      split
      · rfl
      · exact writeFloatKey_eq overflow f
  | str s =>
      rw [writeIdentityKey, tree]
      exact writeStringKey_eq depth s
  | nilSlice => rw [writeIdentityKey, tree]; split <;> rfl
  | nilMap => rw [writeIdentityKey, tree]; split <;> rfl
  | slice xs =>
      rw [writeIdentityKey, tree]
      split
      · rfl
      · rw [code, identityWords_eq (depth + 1) xs]
  | struct type fields =>
      rw [writeIdentityKey, tree]
      split
      · rfl
      · rw [code, identityWords_eq (depth + 1) fields]
  | map entries =>
      rw [writeIdentityKey, tree]
      split
      · rfl
      · rw [code, pairWords_eq (depth + 1) entries]
  | dict entries =>
      rw [writeIdentityKey, tree]
      split
      · rfl
      · rw [code, pairWords_eq (depth + 1) entries]
  | set items =>
      rw [writeIdentityKey, tree]
      split
      · rfl
      · rw [code, identityWords_eq 0 items]
  | union tag name payload =>
      rw [writeIdentityKey, tree]
      split
      · rfl
      · rw [code, identityWords_eq (depth + 1) payload]
        cases name with
        | none => rfl
        | some n =>
            simp only [Option.elim_some]
            rw [writeStringKey_eq]
  | iface v =>
      rw [writeIdentityKey, tree]
      split
      · rfl
      · exact writeIdentityKey_eq (depth + 1) v

theorem identityWords_eq (depth : ℕ) (vs : List GoVal) :
    identityWords overflow depth vs = codes (trees overflow depth vs) := by
  cases vs with
  | nil => rfl
  | cons v vs =>
      rw [identityWords, trees, codes, writeIdentityKey_eq depth v, identityWords_eq depth vs]

theorem pairWords_eq (depth : ℕ) (entries : List (Bytes × GoVal)) :
    pairWords overflow depth entries = pairCodes (entryTrees overflow depth entries) := by
  cases entries with
  | nil => rfl
  | cons p entries =>
      obtain ⟨k, v⟩ := p
      rw [pairWords, entryTrees, pairCodes, writeIdentityKey_eq depth v, pairWords_eq depth entries,
        writeStringKey_eq]

end

end

end

/-! ## The spelling -/

/-! ## Framed words -/

theorem formatNat_append_inj {c : Byte} {n n' : ℕ} {r r' : Bytes} (hc : NonDigit c)
    (h : formatNat n ++ c :: r = formatNat n' ++ c :: r') : n = n' ∧ r = r' := by
  obtain ⟨hn, hr⟩ := append_cons_inj (notMem_formatNat hc n) (notMem_formatNat hc n') h
  exact ⟨formatNat_inj hn, hr⟩

theorem nonDigit_semicolon : NonDigit (ch ';') := Or.inr (by decide)

theorem nonDigit_colon : NonDigit (ch ':') := Or.inr (by decide)

theorem stringItem_append_inj {s s' r r' : Bytes} (h : stringItem s ++ r = stringItem s' ++ r') :
    s = s' ∧ r = r' := by
  simp only [stringItem, List.cons_append, List.append_assoc, List.cons.injEq, true_and] at h
  obtain ⟨hlen, hrest⟩ := formatNat_append_inj nonDigit_colon h
  exact List.append_inj hrest hlen

theorem stringItem_inj {s s' : Bytes} (h : stringItem s = stringItem s') : s = s' := by
  have happend : stringItem s ++ [] = stringItem s' ++ [] := by rw [h]
  exact (stringItem_append_inj happend).1

theorem splitsOff_stringItem (ss ss' : List Bytes) :
    SplitsOff (ss.map stringItem) (ss'.map stringItem) := by
  intro w hw w' hw' r r' h
  obtain ⟨s, _, rfl⟩ := List.mem_map.mp hw
  obtain ⟨s', _, rfl⟩ := List.mem_map.mp hw'
  rw [(stringItem_append_inj h).1]

theorem counted_append_inj {c : Char} {ws ws' : List Bytes} {r r' : Bytes}
    (hws : SplitsOff ws ws') (h : counted c ws ++ r = counted c ws' ++ r') : ws = ws' ∧ r = r' := by
  simp only [counted, List.cons_append, List.append_assoc, List.cons.injEq, true_and] at h
  obtain ⟨hlen, hrest⟩ := formatNat_append_inj nonDigit_semicolon h
  exact hws.flatten hlen hrest

theorem sortStrings_eq_iff {ws ws' : List Bytes} : sortStrings ws = sortStrings ws' ↔ ws.Perm ws' :=
  insertionSort_eq_iff_perm

theorem splitsOff_sortStrings {ws ws' : List Bytes} (h : SplitsOff ws ws') :
    SplitsOff (sortStrings ws) (sortStrings ws') :=
  h.perm (List.perm_insertionSort _ ws) (List.perm_insertionSort _ ws')

/-! ## The letter of a tree -/

def Tree.letter : Tree → Char
  | .deep => '!'
  | .bool _ => 'b'
  | .int _ => 'i'
  | .float _ => 'f'
  | .str _ => 's'
  | .nil => 'N'
  | .nilSlice => 'Z'
  | .list _ => 'L'
  | .struct _ => 'R'
  | .map _ => 'M'
  | .set _ => 'S'
  | .union _ _ _ => 'U'

theorem code_eq_cons (t : Tree) : ∃ s, code t = ch t.letter :: s := by
  cases t with
  | bool b => cases b <;> exact ⟨_, rfl⟩
  | _ => exact ⟨_, rfl⟩

theorem ch_inj {c c' : Char} (h : c.toNat < 256) (h' : c'.toNat < 256) (heq : ch c = ch c') :
    c = c' := by
  have hval := congrArg Fin.val heq
  simp only [ch, Fin.ofNat, Nat.mod_eq_of_lt h, Nat.mod_eq_of_lt h'] at hval
  exact Char.toNat_inj.mp hval

theorem letter_lt (t : Tree) : t.letter.toNat < 256 := by
  cases t <;> simp [Tree.letter]

theorem letter_eq {t t' : Tree} {r r' : Bytes} (h : code t ++ r = code t' ++ r') :
    t.letter = t'.letter := by
  obtain ⟨s, hs⟩ := code_eq_cons t
  obtain ⟨s', hs'⟩ := code_eq_cons t'
  rw [hs, hs', List.cons_append, List.cons_append] at h
  exact ch_inj (letter_lt t) (letter_lt t') (List.cons.inj h).1

/-! ## Prefix code -/

mutual

/-- A tree's spelling is split off any text it starts. -/
theorem code_append_inj (t t' : Tree) (r r' : Bytes) (h : code t ++ r = code t' ++ r') :
    code t = code t' := by
  have hletter := letter_eq h
  cases t with
  | deep =>
      cases t' with
      | deep => rfl
      | _ => simp [Tree.letter] at hletter
  | bool b =>
      cases t' with
      | bool b' => cases b <;> cases b' <;> simp_all [code, writeBoolKey]
      | _ => simp [Tree.letter] at hletter
  | int i =>
      cases t' with
      | int i' =>
          simp only [code, writeIntKey, List.cons_append, List.append_assoc, List.nil_append,
            List.cons.injEq, true_and] at h
          have hminus : ch ';' ≠ ch '-' := by decide
          have hi := (append_cons_inj (notMem_formatInt nonDigit_semicolon hminus i)
            (notMem_formatInt nonDigit_semicolon hminus i') h).1
          rw [formatInt_inj hi]
      | _ => simp [Tree.letter] at hletter
  | float x =>
      cases t' with
      | float x' =>
          simp only [code, List.cons_append, List.append_assoc, List.nil_append,
            List.cons.injEq, true_and] at h
          rw [code, code, (append_cons_inj x.ends x'.ends h).1]
      | _ => simp [Tree.letter] at hletter
  | str s =>
      cases t' with
      | str s' => rw [code, code, (stringItem_append_inj h).1]
      | _ => simp [Tree.letter] at hletter
  | nil =>
      cases t' with
      | nil => rfl
      | _ => simp [Tree.letter] at hletter
  | nilSlice =>
      cases t' with
      | nilSlice => rfl
      | _ => simp [Tree.letter] at hletter
  | list ts =>
      cases t' with
      | list ts' => rw [code, code, (counted_append_inj (splitsOff_codes ts ts') h).1]
      | _ => simp [Tree.letter] at hletter
  | struct ts =>
      cases t' with
      | struct ts' => rw [code, code, (counted_append_inj (splitsOff_codes ts ts') h).1]
      | _ => simp [Tree.letter] at hletter
  | map entries =>
      cases t' with
      | map entries' =>
          have hsplit := splitsOff_sortStrings (splitsOff_pairCodes entries entries')
          rw [code, code, (counted_append_inj hsplit h).1]
      | _ => simp [Tree.letter] at hletter
  | set items =>
      cases t' with
      | set items' => rw [code, code, (counted_append_inj (splitsOff_stringItem _ _) h).1]
      | _ => simp [Tree.letter] at hletter
  | union tag name ts =>
      cases t' with
      | union tag' name' ts' =>
          simp only [code, List.cons_append, List.append_assoc, List.cons.injEq, true_and] at h
          obtain ⟨rfl, hname⟩ := formatNat_append_inj nonDigit_semicolon h
          have heq := code_append_inj name name' _ _ hname
          rw [heq, List.append_cancel_left_eq] at hname
          obtain ⟨hlen, hrest⟩ := formatNat_append_inj nonDigit_semicolon hname
          rw [code, code, heq, ((splitsOff_codes ts ts').flatten hlen hrest).1]
      | _ => simp [Tree.letter] at hletter

theorem splitsOff_codes (ts ts' : List Tree) : SplitsOff (codes ts) (codes ts') := by
  cases ts with
  | nil => simp [SplitsOff, codes]
  | cons t ts =>
      intro w hw w' hw' r r' h
      rcases List.mem_cons.mp hw with rfl | hw
      · rw [codes_eq_map] at hw'
        obtain ⟨t', _, rfl⟩ := List.mem_map.mp hw'
        exact code_append_inj t t' r r' h
      · exact splitsOff_codes ts ts' w hw w' hw' r r' h

theorem splitsOff_pairCodes (es es' : List (Tree × Tree)) :
    SplitsOff (pairCodes es) (pairCodes es') := by
  cases es with
  | nil => simp [SplitsOff, pairCodes]
  | cons p es =>
      obtain ⟨k, v⟩ := p
      intro w hw w' hw' r r' h
      rcases List.mem_cons.mp hw with rfl | hw
      · rw [pairCodes_eq_map] at hw'
        obtain ⟨⟨k', v'⟩, _, rfl⟩ := List.mem_map.mp hw'
        simp only [List.append_assoc] at h
        have hk := code_append_inj k k' _ _ h
        rw [hk, List.append_cancel_left_eq] at h
        rw [hk, code_append_inj v v' r r' h]
      · exact splitsOff_pairCodes es es' w hw w' hw' r r' h

end

/-! ## Trees alike up to order -/

/-- The same tree, entries of maps and items of sets in any order. -/
inductive Alike : Tree → Tree → Prop where
  | deep : Alike .deep .deep
  | bool b : Alike (.bool b) (.bool b)
  | int i : Alike (.int i) (.int i)
  | float {t t'} : t.text = t'.text → Alike (.float t) (.float t')
  | str s : Alike (.str s) (.str s)
  | nil : Alike .nil .nil
  | nilSlice : Alike .nilSlice .nilSlice
  | list {ts ts'} : List.Forall₂ Alike ts ts' → Alike (.list ts) (.list ts')
  | struct {ts ts'} : List.Forall₂ Alike ts ts' → Alike (.struct ts) (.struct ts')
  | map {es es₁ es'} : es.Perm es₁ → List.Forall₂ Alike (es₁.map (·.1)) (es'.map (·.1)) →
      List.Forall₂ Alike (es₁.map (·.2)) (es'.map (·.2)) → Alike (.map es) (.map es')
  | set {items items₁ items'} : items.Perm items₁ → List.Forall₂ Alike items₁ items' →
      Alike (.set items) (.set items')
  | union tag {name name' ts ts'} : Alike name name' → List.Forall₂ Alike ts ts' →
      Alike (.union tag name ts) (.union tag name' ts')

theorem forall₂_iff_of_mem {α β : Type*} {P Q : α → β → Prop} {l : List α} {l' : List β}
    (h : ∀ a ∈ l, ∀ b, P a b ↔ Q a b) : List.Forall₂ P l l' ↔ List.Forall₂ Q l l' := by
  induction l generalizing l' with
  | nil => simp
  | cons a l ih =>
      cases l' with
      | nil => simp
      | cons b l' =>
          rw [List.forall₂_cons, List.forall₂_cons, h a (by simp) b,
            ih fun x hx => h x (List.mem_cons_of_mem _ hx)]

theorem forall₂_and {α β : Type*} {P Q : α → β → Prop} {l : List α} {l' : List β} :
    List.Forall₂ (fun a b => P a b ∧ Q a b) l l' ↔ List.Forall₂ P l l' ∧ List.Forall₂ Q l l' := by
  induction l generalizing l' with
  | nil => simp
  | cons a l ih =>
      cases l' with
      | nil => simp
      | cons b l' =>
          simp only [List.forall₂_cons, ih]
          tauto

theorem codes_eq_iff {ts ts' : List Tree} :
    codes ts = codes ts' ↔ List.Forall₂ (fun t t' => code t = code t') ts ts' := by
  rw [codes_eq_map, codes_eq_map, ← List.forall₂_eq_eq_eq, List.forall₂_map_left_iff,
    List.forall₂_map_right_iff]

theorem pair_code_eq_iff {p p' : Tree × Tree} :
    code p.1 ++ code p.2 = code p'.1 ++ code p'.2 ↔ code p.1 = code p'.1 ∧ code p.2 = code p'.2 := by
  constructor
  · intro h
    have hfst := code_append_inj _ _ _ _ h
    rw [hfst, List.append_cancel_left_eq] at h
    exact ⟨hfst, h⟩
  · intro h
    rw [h.1, h.2]

theorem counted_eq_iff {c : Char} {ws ws' : List Bytes} (h : SplitsOff ws ws') :
    counted c ws = counted c ws' ↔ ws = ws' := by
  constructor
  · intro heq
    have happend : counted c ws ++ [] = counted c ws' ++ [] := by rw [heq]
    exact (counted_append_inj h happend).1
  · intro heq
    rw [heq]

theorem perm_map_iff {α γ : Type*} {f : α → γ} {l l' : List α} :
    (l.map f).Perm (l'.map f) ↔ ∃ l₁, l.Perm l₁ ∧ List.Forall₂ (fun a b => f a = f b) l₁ l' := by
  constructor
  · exact exists_perm_of_map_perm
  · rintro ⟨l₁, hperm, hall⟩
    have hmap : l₁.map f = l'.map f := by
      rw [← List.forall₂_eq_eq_eq, List.forall₂_map_left_iff, List.forall₂_map_right_iff]
      exact hall
    exact (hperm.map f).trans (List.Perm.of_eq hmap)

theorem set_code_eq_iff {items items' : List Tree} :
    code (.set items) = code (.set items') ↔
      ∃ items₁, items.Perm items₁ ∧ List.Forall₂ (fun t t' => code t = code t') items₁ items' := by
  have hinj : Function.Injective (List.map stringItem) :=
    List.map_injective_iff.mpr fun _ _ => stringItem_inj
  rw [code, code, counted_eq_iff (splitsOff_stringItem _ _), hinj.eq_iff, sortStrings_eq_iff,
    codes_eq_map, codes_eq_map, perm_map_iff]

theorem map_code_eq_iff {es es' : List (Tree × Tree)} :
    code (.map es) = code (.map es') ↔
      ∃ es₁, es.Perm es₁ ∧
        List.Forall₂ (fun p p' => code p.1 = code p'.1 ∧ code p.2 = code p'.2) es₁ es' := by
  rw [code, code, counted_eq_iff (splitsOff_sortStrings (splitsOff_pairCodes _ _)),
    sortStrings_eq_iff, pairCodes_eq_map, pairCodes_eq_map, perm_map_iff]
  simp only [pair_code_eq_iff]

theorem alike_map_iff {es es' : List (Tree × Tree)} :
    Alike (.map es) (.map es') ↔
      ∃ es₁, es.Perm es₁ ∧
        List.Forall₂ (fun p p' => Alike p.1 p'.1 ∧ Alike p.2 p'.2) es₁ es' := by
  constructor
  · intro h
    cases h with
    | map hperm hfst hsnd =>
        refine ⟨_, hperm, ?_⟩
        rw [List.forall₂_map_left_iff, List.forall₂_map_right_iff] at hfst hsnd
        exact forall₂_and.mpr ⟨hfst, hsnd⟩
  · rintro ⟨es₁, hperm, hall⟩
    obtain ⟨hfst, hsnd⟩ := forall₂_and.mp hall
    refine .map hperm ?_ ?_
    · rw [List.forall₂_map_left_iff, List.forall₂_map_right_iff]
      exact hfst
    · rw [List.forall₂_map_left_iff, List.forall₂_map_right_iff]
      exact hsnd

theorem alike_set_iff {items items' : List Tree} :
    Alike (.set items) (.set items') ↔
      ∃ items₁, items.Perm items₁ ∧ List.Forall₂ Alike items₁ items' := by
  constructor
  · intro h
    cases h with
    | set hperm hall => exact ⟨_, hperm, hall⟩
  · rintro ⟨items₁, hperm, hall⟩
    exact .set hperm hall

/-- Trees with different letters are spelled differently. -/
theorem code_ne_of_letter {t t' : Tree} (h : t.letter ≠ t'.letter) : code t ≠ code t' := by
  intro heq
  have happend : code t ++ [] = code t' ++ [] := by rw [heq]
  exact h (letter_eq happend)

theorem code_int_eq_iff {i i' : ℤ} : code (.int i) = code (.int i') ↔ i = i' := by
  constructor
  · intro h
    simp only [code, writeIntKey, List.cons.injEq, true_and, List.append_cancel_right_eq] at h
    exact formatInt_inj h
  · rintro rfl
    rfl

theorem code_bool_eq_iff {b b' : Bool} : code (.bool b) = code (.bool b') ↔ b = b' := by
  cases b <;> cases b' <;> decide

mutual

/-- Two trees are spelled alike exactly when they are alike. -/
theorem code_eq_iff (t t' : Tree) : code t = code t' ↔ Alike t t' := by
  by_cases hletter : t.letter = t'.letter
  swap
  · refine iff_of_false (code_ne_of_letter hletter) ?_
    intro h
    exact hletter (by cases h <;> rfl)
  cases t with
  | deep =>
      cases t' with
      | deep => exact iff_of_true rfl .deep
      | _ => simp [Tree.letter] at hletter
  | bool b =>
      cases t' with
      | bool b' =>
          rw [code_bool_eq_iff]
          constructor
          · rintro rfl
            exact .bool b
          · rintro ⟨⟩
            rfl
      | _ => simp [Tree.letter] at hletter
  | int i =>
      cases t' with
      | int i' =>
          rw [code_int_eq_iff]
          constructor
          · rintro rfl
            exact .int i
          · rintro ⟨⟩
            rfl
      | _ => simp [Tree.letter] at hletter
  | float x =>
      cases t' with
      | float x' =>
          constructor
          · intro h
            exact .float (by simpa [code] using h)
          · intro h
            cases h with
            | float htext => rw [code, code, htext]
      | _ => simp [Tree.letter] at hletter
  | str s =>
      cases t' with
      | str s' =>
          constructor
          · intro h
            rw [stringItem_inj h]
            exact .str s'
          · rintro ⟨⟩
            rfl
      | _ => simp [Tree.letter] at hletter
  | nil =>
      cases t' with
      | nil => exact iff_of_true rfl .nil
      | _ => simp [Tree.letter] at hletter
  | nilSlice =>
      cases t' with
      | nilSlice => exact iff_of_true rfl .nilSlice
      | _ => simp [Tree.letter] at hletter
  | list ts =>
      cases t' with
      | list ts' =>
          rw [code, code, counted_eq_iff (splitsOff_codes ts ts'), codes_eq_iff,
            forall₂_iff_of_mem (codes_mem_iff ts)]
          constructor
          · exact .list
          · intro h
            cases h with
            | list hts => exact hts
      | _ => simp [Tree.letter] at hletter
  | struct ts =>
      cases t' with
      | struct ts' =>
          rw [code, code, counted_eq_iff (splitsOff_codes ts ts'), codes_eq_iff,
            forall₂_iff_of_mem (codes_mem_iff ts)]
          constructor
          · exact .struct
          · intro h
            cases h with
            | struct hts => exact hts
      | _ => simp [Tree.letter] at hletter
  | set items =>
      cases t' with
      | set items' =>
          have hmem := codes_mem_iff items
          rw [set_code_eq_iff, alike_set_iff]
          refine exists_congr fun items₁ => and_congr_right fun hperm => ?_
          exact forall₂_iff_of_mem fun t ht => hmem t (hperm.mem_iff.mpr ht)
      | _ => simp [Tree.letter] at hletter
  | map es =>
      cases t' with
      | map es' =>
          have hmem := pairCodes_mem_iff es
          rw [map_code_eq_iff, alike_map_iff]
          refine exists_congr fun es₁ => and_congr_right fun hperm => ?_
          refine forall₂_iff_of_mem fun p hp p' => ?_
          have := hmem p (hperm.mem_iff.mpr hp)
          rw [this.1 p'.1, this.2 p'.2]
      | _ => simp [Tree.letter] at hletter
  | union tag name ts =>
      cases t' with
      | union tag' name' ts' =>
          have hname := code_eq_iff name name'
          have hmem := codes_mem_iff ts
          constructor
          · intro h
            simp only [code, List.cons.injEq, true_and] at h
            obtain ⟨rfl, hrest⟩ := formatNat_append_inj nonDigit_semicolon h
            have heq := code_append_inj name name' _ _ hrest
            rw [heq, List.append_cancel_left_eq] at hrest
            obtain ⟨hlen, hflat⟩ := formatNat_append_inj nonDigit_semicolon hrest
            have happend : (codes ts).flatten ++ [] = (codes ts').flatten ++ [] := by rw [hflat]
            have hcodes := ((splitsOff_codes ts ts').flatten hlen happend).1
            rw [codes_eq_iff, forall₂_iff_of_mem hmem] at hcodes
            exact .union tag (hname.mp heq) hcodes
          · intro h
            cases h with
            | union _ halike hts =>
                rw [← forall₂_iff_of_mem hmem, ← codes_eq_iff] at hts
                rw [code, code, hts, hname.mpr halike]
      | _ => simp [Tree.letter] at hletter

theorem codes_mem_iff (ts : List Tree) : ∀ t ∈ ts, ∀ t', code t = code t' ↔ Alike t t' := by
  cases ts with
  | nil => simp
  | cons t ts =>
      intro x hx t'
      rcases List.mem_cons.mp hx with heq | hx
      · rw [heq]
        exact code_eq_iff t t'
      · exact codes_mem_iff ts x hx t'

theorem pairCodes_mem_iff (es : List (Tree × Tree)) : ∀ p ∈ es,
    (∀ t', code p.1 = code t' ↔ Alike p.1 t') ∧ (∀ t', code p.2 = code t' ↔ Alike p.2 t') := by
  cases es with
  | nil => simp
  | cons p es =>
      obtain ⟨k, v⟩ := p
      intro x hx
      rcases List.mem_cons.mp hx with heq | hx
      · rw [heq]
        exact ⟨fun t' => code_eq_iff k t', fun t' => code_eq_iff v t'⟩
      · exact pairCodes_mem_iff es x hx

end

/-- Two values have one key exactly when the walk reads trees off them that are alike. -/
theorem identityKey_eq_iff (overflow : ℤ) (v v' : GoVal) :
    identityKey overflow v = identityKey overflow v' ↔
      Alike (tree overflow 0 v) (tree overflow 0 v') := by
  rw [identityKey, identityKey, writeIdentityKey_eq, writeIdentityKey_eq, code_eq_iff]

end Sky.Identity
