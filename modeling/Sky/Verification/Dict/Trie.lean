import Mathlib
import Sky.Model.Dict

/-! # The shape of the trie

The entries below a slot, the shape that routes every key to its place, and what
the trie walk finds in it. -/

namespace Sky.Dict

open Sky.Library

variable {V : Type*} {hash : Key → BitVec 64} {k : Key} {v : V} {left shift : ℕ}

/-! ## Entries -/

mutual

/-- The entries below a slot, in the order of the child arrays. -/
def DSlot.entries : DSlot V → List (Key × V)
  | .leaf key val => [(key, val)]
  | .bucket entries => entries
  | .branch _ kids => kidsEntries kids

def kidsEntries : List (DSlot V) → List (Key × V)
  | [] => []
  | c :: kids => c.entries ++ kidsEntries kids

end

theorem kidsEntries_eq_flatMap (kids : List (DSlot V)) :
    kidsEntries kids = kids.flatMap DSlot.entries := by
  induction kids with
  | nil => rfl
  | cons c kids ih => rw [kidsEntries, ih, List.flatMap_cons]

/-- The entries of children that stand at known positions. -/
def placedEntries (ps : List (ℕ × DSlot V)) : List (Key × V) := ps.flatMap fun p => p.2.entries

@[simp] theorem placedEntries_append (ps qs : List (ℕ × DSlot V)) :
    placedEntries (ps ++ qs) = placedEntries ps ++ placedEntries qs :=
  List.flatMap_append

@[simp] theorem placedEntries_cons (p : ℕ × DSlot V) (ps : List (ℕ × DSlot V)) :
    placedEntries (p :: ps) = p.2.entries ++ placedEntries ps :=
  List.flatMap_cons

theorem entries_branch {bm : BitVec 32} {kids : List (DSlot V)}
    (h : kids.length = Bitmap.onesCount bm) :
    (DSlot.branch bm kids).entries = placedEntries (Bitmap.bindings bm kids) := by
  conv_lhs => rw [DSlot.entries, kidsEntries_eq_flatMap, ← Bitmap.map_snd_bindings h]
  rw [placedEntries, List.flatMap_map]

/-- The entries with any key but `k`. -/
def without (k : Key) (es : List (Key × V)) : List (Key × V) := es.filter fun e => e.1 ≠ k

@[simp] theorem without_append (es fs : List (Key × V)) :
    without k (es ++ fs) = without k es ++ without k fs :=
  List.filter_append _ _

theorem mem_without {es : List (Key × V)} {e : Key × V} :
    e ∈ without k es ↔ e ∈ es ∧ e.1 ≠ k := by
  simp [without]

theorem without_eq_self {es : List (Key × V)} (h : ∀ e ∈ es, e.1 ≠ k) : without k es = es :=
  List.filter_eq_self.mpr fun e he => decide_eq_true (h e he)

/-! ## Shape -/

/-- Every entry of a child hashes to the position of the child. -/
def Routed (hash : Key → BitVec 64) (shift : ℕ) (p : ℕ × DSlot V) : Prop :=
  ∀ e ∈ p.2.entries, nibble (hash e.1) shift = p.1

/-- A slot with `left` levels below it: buckets hold different keys, and the
children of a branch stand where their entries hash to. -/
def Good (hash : Key → BitVec 64) : ℕ → ℕ → DSlot V → Prop
  | _, _, .leaf _ _ => True
  | _, _, .bucket es => 2 ≤ es.length ∧ (es.map Prod.fst).Nodup
  | 0, _, .branch _ _ => False
  | left + 1, shift, .branch bm kids =>
      kids ≠ [] ∧ kids.length = Bitmap.onesCount bm ∧
        ∀ p ∈ Bitmap.bindings bm kids,
          Good hash left (shift + dictBits) p.2 ∧ Routed hash shift p

theorem good_leaf (key : Key) (val : V) : Good hash left shift (.leaf key val) := by
  cases left <;> trivial

theorem good_bucket {es : List (Key × V)} :
    Good hash left shift (.bucket es) ↔ 2 ≤ es.length ∧ (es.map Prod.fst).Nodup := by
  cases left <;> rfl

theorem good_branch {bm : BitVec 32} {kids : List (DSlot V)} :
    Good hash (left + 1) shift (.branch bm kids) ↔
      kids ≠ [] ∧ kids.length = Bitmap.onesCount bm ∧
        ∀ p ∈ Bitmap.bindings bm kids,
          Good hash left (shift + dictBits) p.2 ∧ Routed hash shift p := by
  rfl

theorem nibble_lt_16 (h : BitVec 64) (shift : ℕ) : nibble h shift < 16 := by
  have : ((h >>> shift) &&& dictMask).toNat ≤ 15 := by
    rw [BitVec.toNat_and]
    exact Nat.and_le_right
  exact Nat.lt_succ_of_le this

theorem nibble_lt (h : BitVec 64) (shift : ℕ) : nibble h shift < 32 :=
  Nat.lt_trans (nibble_lt_16 h shift) (by decide)

/-- A key is only below the child that its hash selects. -/
theorem ne_of_mem_placedEntries {ps : List (ℕ × DSlot V)} (hrouted : ∀ p ∈ ps, Routed hash shift p)
    (hne : ∀ p ∈ ps, p.1 ≠ nibble (hash k) shift) : ∀ e ∈ placedEntries ps, e.1 ≠ k := by
  rintro e he rfl
  obtain ⟨p, hp, hep⟩ := List.mem_flatMap.mp he
  exact hne p hp (hrouted p hp e hep).symm

/-- The children around the one that a hash selects. -/
structure Selected (hash : Key → BitVec 64) (left shift : ℕ) (k : Key) (bm : BitVec 32)
    (kids : List (DSlot V)) (c : DSlot V) (front back : List (ℕ × DSlot V)) : Prop where
  split : Bitmap.SplitAt bm (nibble (hash k) shift) kids c front back
  length : kids.length = Bitmap.onesCount bm
  child : Good hash left (shift + dictBits) c
  routed : Routed hash shift (nibble (hash k) shift, c)
  others : ∀ p ∈ front ++ back, Good hash left (shift + dictBits) p.2 ∧ Routed hash shift p
  front_ne : ∀ e ∈ placedEntries front, e.1 ≠ k
  back_ne : ∀ e ∈ placedEntries back, e.1 ≠ k

/-- The children around the position that a hash selects and that holds none. -/
structure Vacant (hash : Key → BitVec 64) (left shift : ℕ) (k : Key) (bm : BitVec 32)
    (kids : List (DSlot V)) (front back : List (ℕ × DSlot V)) : Prop where
  gap : Bitmap.GapAt bm (nibble (hash k) shift) kids front back
  length : kids.length = Bitmap.onesCount bm
  others : ∀ p ∈ front ++ back, Good hash left (shift + dictBits) p.2 ∧ Routed hash shift p
  front_ne : ∀ e ∈ placedEntries front, e.1 ≠ k
  back_ne : ∀ e ∈ placedEntries back, e.1 ≠ k

section Branch

variable {bm : BitVec 32} {kids : List (DSlot V)}

theorem exists_selected (h : Good hash (left + 1) shift (.branch bm kids)) (k : Key)
    (hbit : bm.getLsbD (nibble (hash k) shift) = true) :
    ∃ c front back, Selected hash left shift k bm kids c front back := by
  obtain ⟨-, hlen, hkids⟩ := good_branch.mp h
  obtain ⟨c, front, back, hs⟩ := Bitmap.exists_splitAt (nibble_lt _ _) hlen hbit
  have hothers : ∀ p ∈ front ++ back,
      Good hash left (shift + dictBits) p.2 ∧ Routed hash shift p := by
    intro p hp
    refine hkids p ?_
    rw [hs.bindings]
    exact (List.mem_append.mp hp).elim (List.mem_append_left _)
      fun h => List.mem_append_right _ (List.mem_cons_of_mem _ h)
  have hc := hkids (nibble (hash k) shift, c) (by rw [hs.bindings]; simp)
  refine ⟨c, front, back, hs, hlen, hc.1, hc.2, hothers, ?_, ?_⟩
  · exact ne_of_mem_placedEntries (fun p hp => (hothers p (List.mem_append_left _ hp)).2)
      fun p hp => Nat.ne_of_lt (hs.front_lt p hp)
  · exact ne_of_mem_placedEntries (fun p hp => (hothers p (List.mem_append_right _ hp)).2)
      fun p hp => Nat.ne_of_gt (hs.back_gt p hp)

theorem exists_vacant (h : Good hash (left + 1) shift (.branch bm kids)) (k : Key)
    (hbit : bm.getLsbD (nibble (hash k) shift) = false) :
    ∃ front back, Vacant hash left shift k bm kids front back := by
  obtain ⟨-, hlen, hkids⟩ := good_branch.mp h
  obtain ⟨front, back, hs⟩ := Bitmap.exists_gapAt (nibble_lt _ _) hlen hbit
  rw [hs.bindings] at hkids
  refine ⟨front, back, hs, hlen, hkids, ?_, ?_⟩
  · exact ne_of_mem_placedEntries (fun p hp => (hkids p (List.mem_append_left _ hp)).2)
      fun p hp => Nat.ne_of_lt (hs.front_lt p hp)
  · exact ne_of_mem_placedEntries (fun p hp => (hkids p (List.mem_append_right _ hp)).2)
      fun p hp => Nat.ne_of_gt (hs.back_gt p hp)

variable {c : DSlot V} {front back : List (ℕ × DSlot V)}

theorem Selected.entries (h : Selected hash left shift k bm kids c front back) :
    (DSlot.branch bm kids).entries = placedEntries front ++ (c.entries ++ placedEntries back) := by
  rw [entries_branch h.length, h.split.bindings, placedEntries_append, placedEntries_cons]

theorem Vacant.entries (h : Vacant hash left shift k bm kids front back) :
    (DSlot.branch bm kids).entries = placedEntries front ++ placedEntries back := by
  rw [entries_branch h.length, h.gap.bindings, placedEntries_append]

/-- The array index that the code computes is that of the selected child. -/
theorem Selected.pos_eq (h : Selected hash left shift k bm kids c front back) :
    Bitmap.onesCount (bm &&& (Bitmap.bit 32 (nibble (hash k) shift) - 1#32)) =
      (front.map Prod.snd).length := by
  rw [List.length_map, h.split.length_front (nibble_lt _ _), Bitmap.rank]

theorem bit_ne_zero (hbit : bm.getLsbD (nibble (hash k) shift) = true) :
    bm &&& Bitmap.bit 32 (nibble (hash k) shift) ≠ 0#32 := by
  rw [ne_eq, Bitmap.and_bit_eq_zero (nibble_lt _ _), hbit]
  exact Bool.noConfusion

theorem Selected.getElem? (h : Selected hash left shift k bm kids c front back) :
    kids[Bitmap.onesCount (bm &&& (Bitmap.bit 32 (nibble (hash k) shift) - 1#32))]? = some c := by
  rw [h.pos_eq, h.split.array, List.getElem?_append_right le_rfl, Nat.sub_self,
    List.getElem?_cons_zero]

theorem Selected.mem_entries (h : Selected hash left shift k bm kids c front back) :
    (k, v) ∈ (DSlot.branch bm kids).entries ↔ (k, v) ∈ c.entries := by
  rw [h.entries, List.mem_append, List.mem_append]
  constructor
  · rintro (he | he | he)
    · exact (h.front_ne _ he rfl).elim
    · exact he
    · exact (h.back_ne _ he rfl).elim
  · exact fun he => .inr (.inl he)

theorem Vacant.ne_of_mem (h : Vacant hash left shift k bm kids front back) :
    ∀ e ∈ (DSlot.branch bm kids).entries, e.1 ≠ k := by
  intro e he
  rw [h.entries] at he
  exact (List.mem_append.mp he).elim (h.front_ne e) (h.back_ne e)

end Branch

/-! ## Entries are never empty and have different keys -/

theorem nodup_placedEntries {ps : List (ℕ × DSlot V)} (hpos : (ps.map Prod.fst).Nodup)
    (hrouted : ∀ p ∈ ps, Routed hash shift p)
    (hnd : ∀ p ∈ ps, (p.2.entries.map Prod.fst).Nodup) :
    ((placedEntries ps).map Prod.fst).Nodup := by
  induction ps with
  | nil => exact List.nodup_nil
  | cons p ps ih =>
      obtain ⟨hp, hps⟩ := List.nodup_cons.mp hpos
      rw [placedEntries_cons, List.map_append]
      refine (hnd p List.mem_cons_self).append (ih hps ?_ ?_) ?_
      · exact fun q hq => hrouted q (List.mem_cons_of_mem _ hq)
      · exact fun q hq => hnd q (List.mem_cons_of_mem _ hq)
      · -- a key of the first child and of a later one would stand at both positions
        intro key hkey hkey'
        obtain ⟨e, he, rfl⟩ := List.mem_map.mp hkey
        have hself := hrouted p List.mem_cons_self e he
        obtain ⟨e', he', heq⟩ := List.mem_map.mp hkey'
        refine ne_of_mem_placedEntries (fun q hq => hrouted q (List.mem_cons_of_mem _ hq)) ?_ e' he'
          heq
        intro q hq hqp
        exact hp (List.mem_map.mpr ⟨q, hq, hqp.trans hself⟩)

theorem nodup_ones {w : ℕ} (bm : BitVec w) : (Bitmap.ones bm).Nodup :=
  List.nodup_range.filter _

theorem Good.nodup {s : DSlot V} (h : Good hash left shift s) :
    (s.entries.map Prod.fst).Nodup := by
  induction left generalizing shift s with
  | zero =>
      cases s with
      | leaf => simp [DSlot.entries]
      | bucket es => exact (good_bucket.mp h).2
      | branch => exact h.elim
  | succ left ih =>
      cases s with
      | leaf => simp [DSlot.entries]
      | bucket es => exact (good_bucket.mp h).2
      | branch bm kids =>
          obtain ⟨-, hlen, hkids⟩ := good_branch.mp h
          rw [entries_branch hlen]
          refine nodup_placedEntries ?_ (fun p hp => (hkids p hp).2) fun p hp => ih (hkids p hp).1
          rw [Bitmap.bindings, List.map_fst_zip (Nat.le_of_eq hlen.symm)]
          exact nodup_ones bm

/-! ## The walk -/

theorem scan_eq_some {es : List (Key × V)} (hnd : (es.map Prod.fst).Nodup) :
    scan es k = some v ↔ (k, v) ∈ es := by
  induction es with
  | nil => simp [scan]
  | cons e es ih =>
      obtain ⟨hne, hnd⟩ := List.nodup_cons.mp hnd
      by_cases he : e.1 = k
      · subst he
        rw [scan, List.find?_cons_of_pos (by simp), Option.map_some, Option.some_inj,
          List.mem_cons]
        constructor
        · rintro rfl
          exact .inl rfl
        · rintro (heq | hmem)
          · rw [← heq]
          · exact (hne (List.mem_map.mpr ⟨_, hmem, rfl⟩)).elim
      · rw [scan, List.find?_cons_of_neg (by simpa using he), ← scan, ih hnd, List.mem_cons]
        refine ⟨.inr, ?_⟩
        rintro (rfl | hmem)
        · exact (he rfl).elim
        · exact hmem

theorem lookupFrom_eq_some {bm : BitVec 32} {kids : List (DSlot V)}
    (hshift : shift + dictBits * left = 64) (h : Good hash left shift (.branch bm kids)) :
    lookupFrom k (hash k) shift bm kids = some v ↔ (k, v) ∈ (DSlot.branch bm kids).entries := by
  induction left generalizing shift bm kids with
  | zero => exact h.elim
  | succ left ih =>
      have hlt : shift < 64 := by simp only [dictBits] at hshift; omega
      rw [lookupFrom, if_pos hlt]
      simp only []
      cases hbit : bm.getLsbD (nibble (hash k) shift) with
      | false =>
          obtain ⟨front, back, hv⟩ := exists_vacant h k hbit
          rw [if_pos ((Bitmap.and_bit_eq_zero (nibble_lt _ _)).mpr hbit)]
          constructor
          · intro hnone
            cases hnone
          · intro he
            exact (hv.ne_of_mem _ he rfl).elim
      | true =>
          obtain ⟨c, front, back, hs⟩ := exists_selected h k hbit
          rw [if_neg (bit_ne_zero hbit), hs.getElem?, hs.mem_entries]
          cases c with
          | leaf key val =>
              simp only [DSlot.entries, List.mem_singleton, Prod.mk.injEq]
              split_ifs with hkey
              · simp [hkey, eq_comm]
              · simp [Ne.symm hkey]
          | bucket es => exact scan_eq_some (good_bucket.mp hs.child).2
          | branch bm' kids' =>
              refine ih ?_ hs.child
              simp only [dictBits] at hshift ⊢
              omega

end Sky.Dict
