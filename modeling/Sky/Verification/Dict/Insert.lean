import Sky.Verification.Dict.Trie

/-! # Insertion into the trie

What `dictMerge` and `dictInsertSlot` make of the entries and the shape. -/

namespace Sky.Dict

open Sky.Library

variable {V : Type*} {hash : Key → BitVec 64} {k : Key} {v : V} {left shift : ℕ}

/-! ## Entries with one key replaced -/

/-- `k` is bound to `v` and the other entries stay. -/
def Bound (k : Key) (v : V) (before after : List (Key × V)) : Prop :=
  after.Perm ((k, v) :: without k before)

theorem Bound.append {front back before after : List (Key × V)} (h : Bound k v before after)
    (hfront : ∀ e ∈ front, e.1 ≠ k) (hback : ∀ e ∈ back, e.1 ≠ k) :
    Bound k v (front ++ (before ++ back)) (front ++ (after ++ back)) := by
  rw [Bound, without_append, without_append, without_eq_self hfront, without_eq_self hback]
  calc
    List.Perm (front ++ (after ++ back)) (front ++ ((k, v) :: without k before ++ back)) :=
      (List.Perm.append_right back h).append_left front
    List.Perm _ ((k, v) :: (front ++ (without k before ++ back))) := List.perm_middle

theorem Bound.of_absent {front back : List (Key × V)}
    (hfront : ∀ e ∈ front, e.1 ≠ k) (hback : ∀ e ∈ back, e.1 ≠ k) :
    Bound k v (front ++ back) (front ++ (k, v) :: back) := by
  rw [Bound, without_append, without_eq_self hfront, without_eq_self hback]
  exact List.perm_middle

theorem Bound.nodup {before after : List (Key × V)} (h : Bound k v before after)
    (hnd : (before.map Prod.fst).Nodup) : (after.map Prod.fst).Nodup := by
  rw [(h.map Prod.fst).nodup_iff, List.map_cons, List.nodup_cons]
  refine ⟨?_, hnd.sublist (List.filter_sublist.map _)⟩
  intro hk
  obtain ⟨e, he, heq⟩ := List.mem_map.mp hk
  exact (mem_without.mp he).2 heq

theorem Bound.mem {before after : List (Key × V)} (h : Bound k v before after) {e : Key × V} :
    e ∈ after ↔ e = (k, v) ∨ e ∈ before ∧ e.1 ≠ k := by
  rw [h.mem_iff, List.mem_cons, mem_without]

/-- An array of entries with the value of an occurring key replaced. -/
theorem bound_modify {es : List (Key × V)} {i : ℕ} (hnd : (es.map Prod.fst).Nodup)
    (hi : (es[i]?).map Prod.fst = some k) : Bound k v es (es.modify i fun e => (e.1, v)) := by
  induction es generalizing i with
  | nil => simp at hi
  | cons e es ih =>
      obtain ⟨hne, hnd⟩ := List.nodup_cons.mp hnd
      cases i with
      | zero =>
          obtain rfl : e.1 = k := by simpa using hi
          have hrest : without e.1 es = es :=
            without_eq_self fun e' he' heq => hne (List.mem_map.mpr ⟨e', he', heq⟩)
          rw [Bound, without, List.filter_cons_of_neg (by simp), ← without, hrest]
          rfl
      | succ i =>
          have hk : e.1 ≠ k := by
            rintro rfl
            obtain ⟨e', he', heq⟩ := Option.map_eq_some_iff.mp hi
            exact hne (List.mem_map.mpr ⟨e', List.mem_of_getElem? he', heq⟩)
          rw [Bound, without, List.filter_cons_of_pos (by simpa using hk), ← without,
            List.modify_succ_cons]
          exact ((ih hnd hi).cons e).trans (.swap _ _ _)

/-- The scan of a bucket finds the entry of `k` or shows that there is none. -/
theorem findIdx?_key (es : List (Key × V)) (k : Key) :
    (∃ i, es.findIdx? (fun e => e.1 = k) = some i ∧ (es[i]?).map Prod.fst = some k) ∨
      es.findIdx? (fun e => e.1 = k) = none ∧ ∀ e ∈ es, e.1 ≠ k := by
  cases h : es.findIdx? (fun e => e.1 = k) with
  | none =>
      refine .inr ⟨rfl, fun e he => ?_⟩
      simpa using List.findIdx?_eq_none_iff.mp h e he
  | some i =>
      obtain ⟨hi, hk, -⟩ := List.findIdx?_eq_some_iff_getElem.mp h
      refine .inl ⟨i, rfl, ?_⟩
      rw [List.getElem?_eq_getElem hi, Option.map_some, of_decide_eq_true hk]

/-! ## The contract -/

/-- What an insertion makes of a slot. -/
structure InsertSpec (hash : Key → BitVec 64) (left shift : ℕ) (k : Key) (v : V) (s : DSlot V)
    (out : DSlot V × Bool) : Prop where
  good : Good hash left shift out.1
  entries : Bound k v s.entries out.1.entries
  added : out.2 = true ↔ ∀ e ∈ s.entries, e.1 ≠ k
  isBranch : (∃ bm kids, s = .branch bm kids) → ∃ bm kids, out.1 = .branch bm kids

theorem bucketInsert_spec {es : List (Key × V)} (h : Good hash left shift (.bucket es)) :
    InsertSpec hash left shift k v (.bucket es)
      (.bucket (bucketInsert es k v).1, (bucketInsert es k v).2) := by
  obtain ⟨hlen, hnd⟩ := good_bucket.mp h
  rcases findIdx?_key es k with ⟨i, hfind, hi⟩ | ⟨hfind, hnone⟩
  · have hbound : Bound k v es (es.modify i fun e => (e.1, v)) := bound_modify hnd hi
    simp only [bucketInsert, hfind]
    refine ⟨good_bucket.mpr ⟨?_, hbound.nodup hnd⟩, hbound, ?_, nofun⟩
    · rwa [List.length_modify]
    · obtain ⟨e, he, heq⟩ := Option.map_eq_some_iff.mp hi
      exact ⟨nofun, fun h => (h e (List.mem_of_getElem? he) heq).elim⟩
  · have hbound : Bound k v es (es ++ [(k, v)]) := by
      have : Bound k v (es ++ []) (es ++ [(k, v)]) := Bound.of_absent hnone (by simp)
      rwa [List.append_nil] at this
    simp only [bucketInsert, hfind]
    refine ⟨good_bucket.mpr ⟨?_, hbound.nodup hnd⟩, hbound, ⟨fun _ => hnone, fun _ => rfl⟩,
      nofun⟩
    rw [List.length_append]
    omega

/-! ## Merging two entries -/

theorem good_leaf_pair {k₁ k₂ : Key} {v₁ v₂ : V}
    (h : nibble (hash k₁) shift < nibble (hash k₂) shift) :
    Good hash (left + 1) shift (.branch
      (Bitmap.bit 32 (nibble (hash k₁) shift) ||| Bitmap.bit 32 (nibble (hash k₂) shift))
      [.leaf k₁ v₁, .leaf k₂ v₂]) := by
  have hones := Bitmap.ones_bit_or_bit h (nibble_lt (hash k₂) shift)
  refine good_branch.mpr ⟨List.cons_ne_nil _ _, ?_, ?_⟩
  · rw [Bitmap.onesCount, hones]
    rfl
  · rw [Bitmap.bindings, hones]
    simp [good_leaf, Routed, DSlot.entries]

theorem dictMerge_spec {k₁ k₂ : Key} (v₁ v₂ : V) (hshift : shift + dictBits * left = 64)
    (hne : k₁ ≠ k₂) :
    Good hash left shift (dictMerge shift k₁ v₁ (hash k₁) k₂ v₂ (hash k₂)) ∧
      (dictMerge shift k₁ v₁ (hash k₁) k₂ v₂ (hash k₂)).entries.Perm [(k₁, v₁), (k₂, v₂)] ∧
      (dictMerge shift k₁ v₁ (hash k₁) k₂ v₂ (hash k₂)).isLeaf = false := by
  induction left generalizing shift with
  | zero =>
      rw [dictMerge, if_pos (by omega)]
      exact ⟨good_bucket.mpr ⟨le_rfl, by simpa using hne⟩, .refl _, rfl⟩
  | succ left ih =>
      have hstep : shift + dictBits + dictBits * left = 64 := by
        simp only [dictBits] at hshift ⊢
        omega
      rw [dictMerge, if_neg (by simp only [dictBits] at hshift; omega)]
      simp only []
      split_ifs with heq hlt
      · obtain ⟨hgood, hperm, -⟩ := ih hstep
        have hones := Bitmap.ones_bit (nibble_lt (hash k₁) shift)
        refine ⟨good_branch.mpr ⟨List.cons_ne_nil _ _, ?_, ?_⟩, ?_, rfl⟩
        · rw [Bitmap.onesCount, hones]
          rfl
        · rw [Bitmap.bindings, hones]
          simp only [List.zip_cons_cons, List.zip_nil_left, List.mem_singleton, forall_eq]
          refine ⟨hgood, fun e he => ?_⟩
          rcases List.mem_pair.mp (hperm.mem_iff.mp he) with rfl | rfl
          · rfl
          · exact heq.symm
        · rw [DSlot.entries, kidsEntries, kidsEntries, List.append_nil]
          exact hperm
      · rw [BitVec.or_comm]
        exact ⟨good_leaf_pair hlt, .swap _ _ _, rfl⟩
      · exact ⟨good_leaf_pair (by omega), .refl _, rfl⟩

/-! ## Inserting below a branch -/

/-- What the loop of `dictInsertSlot` makes of the child at its position. -/
def insertChild (hash : Key → BitVec 64) (k : Key) (v : V) (c : DSlot V) (shift : ℕ) :
    DSlot V × Bool :=
  match c with
  | .leaf key val =>
      if key = k then (.leaf key v, false)
      else (dictMerge (shift + dictBits) key val (hash key) k v (hash k), true)
  | c => dictInsertSlot hash k v c (shift + dictBits)

theorem dictInsertKid_append (front : List (DSlot V)) (c : DSlot V) (back : List (DSlot V))
    (shift : ℕ) :
    dictInsertKid hash k v (front ++ c :: back) front.length shift =
      (front ++ (insertChild hash k v c shift).1 :: back, (insertChild hash k v c shift).2) := by
  induction front with
  | nil =>
      cases c with
      | leaf key val =>
          simp only [List.nil_append, List.length_nil, dictInsertKid, insertChild]
          split_ifs <;> rfl
      | branch | bucket => rfl
  | cons s front ih =>
      rw [List.cons_append, List.length_cons, dictInsertKid, ih]
      rfl

theorem insertChild_spec {c : DSlot V} (hshift : shift + dictBits + dictBits * left = 64)
    (h : Good hash left (shift + dictBits) c)
    (hslot : c.isLeaf = false →
      InsertSpec hash left (shift + dictBits) k v c
        (dictInsertSlot hash k v c (shift + dictBits))) :
    InsertSpec hash left (shift + dictBits) k v c (insertChild hash k v c shift) := by
  cases c with
  | branch | bucket => exact hslot rfl
  | leaf key val =>
      rw [insertChild]
      split_ifs with hkey
      · subst hkey
        refine ⟨good_leaf _ _, ?_, ⟨nofun, fun h => ?_⟩, nofun⟩
        · simp [Bound, DSlot.entries, without]
        · exact (h (key, val) (List.mem_singleton_self _) rfl).elim
      · obtain ⟨hgood, hperm, -⟩ := dictMerge_spec val v hshift hkey
        refine ⟨hgood, ?_, ⟨fun _ e he => ?_, fun _ => rfl⟩, nofun⟩
        · have hkeep : without k [(key, val)] = [(key, val)] :=
            without_eq_self fun e he => List.mem_singleton.mp he ▸ hkey
          rw [Bound, DSlot.entries, hkeep]
          exact hperm.trans (.swap _ _ _)
        · exact List.mem_singleton.mp he ▸ hkey

/-- The branch with the selected child replaced. -/
theorem Selected.replace {bm : BitVec 32} {kids : List (DSlot V)} {c c' : DSlot V}
    {front back : List (ℕ × DSlot V)} (h : Selected hash left shift k bm kids c front back)
    (hbit : bm.getLsbD (nibble (hash k) shift) = true)
    (hgood : Good hash left (shift + dictBits) c')
    (hrouted : Routed hash shift (nibble (hash k) shift, c')) :
    Selected hash left shift k bm (front.map Prod.snd ++ c' :: back.map Prod.snd) c' front back ∧
      Good hash (left + 1) shift
        (.branch bm (front.map Prod.snd ++ c' :: back.map Prod.snd)) := by
  have hsplit := h.split.set c' (nibble_lt _ _) hbit
  have hlen : (front.map Prod.snd ++ c' :: back.map Prod.snd).length = Bitmap.onesCount bm := by
    rw [← h.length, h.split.array]
    simp
  refine ⟨⟨hsplit, hlen, hgood, hrouted, h.others, h.front_ne, h.back_ne⟩, good_branch.mpr ?_⟩
  refine ⟨by simp, hlen, fun p hp => ?_⟩
  rw [hsplit.bindings, List.mem_append, List.mem_cons] at hp
  rcases hp with hp | rfl | hp
  · exact h.others p (List.mem_append_left _ hp)
  · exact ⟨hgood, hrouted⟩
  · exact h.others p (List.mem_append_right _ hp)

theorem Bound.routed {before after : List (Key × V)} {c c' : DSlot V}
    (h : Bound k v before after) (hc : c.entries = before) (hc' : c'.entries = after)
    (hrouted : Routed hash shift (nibble (hash k) shift, c)) :
    Routed hash shift (nibble (hash k) shift, c') := by
  intro e he
  rcases h.mem.mp (hc' ▸ he) with rfl | ⟨he, -⟩
  · rfl
  · exact hrouted e (hc ▸ he)

/-- The branch with a new leaf at a vacant position. -/
theorem Vacant.insert_spec {bm : BitVec 32} {kids : List (DSlot V)}
    {front back : List (ℕ × DSlot V)} (h : Vacant hash left shift k bm kids front back) (v : V) :
    InsertSpec hash (left + 1) shift k v (.branch bm kids)
      (.branch (bm ||| Bitmap.bit 32 (nibble (hash k) shift))
        (kids.take (Bitmap.onesCount (bm &&& (Bitmap.bit 32 (nibble (hash k) shift) - 1#32))) ++
          .leaf k v ::
            kids.drop (Bitmap.onesCount (bm &&& (Bitmap.bit 32 (nibble (hash k) shift) - 1#32)))),
        true) := by
  have hpos : Bitmap.onesCount (bm &&& (Bitmap.bit 32 (nibble (hash k) shift) - 1#32)) =
      (front.map Prod.snd).length := by
    rw [List.length_map, h.gap.length_front (nibble_lt _ _), Bitmap.rank]
  have hkids : kids.take (front.map Prod.snd).length ++
      DSlot.leaf k v :: kids.drop (front.map Prod.snd).length =
        front.map Prod.snd ++ .leaf k v :: back.map Prod.snd := by
    rw [h.gap.array, List.take_left, List.drop_left]
  rw [hpos, hkids]
  have hbind := h.gap.insert (.leaf k v) (nibble_lt _ _)
  have hlen : (front.map Prod.snd ++ DSlot.leaf k v :: back.map Prod.snd).length =
      Bitmap.onesCount (bm ||| Bitmap.bit 32 (nibble (hash k) shift)) := by
    rw [h.gap.onesCount_insert (nibble_lt _ _)]
    simp
  refine ⟨good_branch.mpr ⟨by simp, hlen, fun p hp => ?_⟩, ?_, ⟨fun _ => h.ne_of_mem, fun _ => rfl⟩,
    fun _ => ⟨_, _, rfl⟩⟩
  · rw [hbind, List.mem_append, List.mem_cons] at hp
    rcases hp with hp | rfl | hp
    · exact h.others p (List.mem_append_left _ hp)
    · refine ⟨good_leaf _ _, fun e he => ?_⟩
      obtain rfl := List.mem_singleton.mp he
      rfl
    · exact h.others p (List.mem_append_right _ hp)
  · rw [h.entries, entries_branch hlen, hbind, placedEntries_append, placedEntries_cons]
    exact Bound.of_absent h.front_ne h.back_ne

theorem dictInsertSlot_spec {s : DSlot V} (hshift : shift + dictBits * left = 64)
    (h : Good hash left shift s) (hleaf : s.isLeaf = false) :
    InsertSpec hash left shift k v s (dictInsertSlot hash k v s shift) := by
  induction left generalizing shift s with
  | zero =>
      cases s with
      | leaf => cases hleaf
      | bucket es => exact bucketInsert_spec h
      | branch => exact h.elim
  | succ left ih =>
      have hstep : shift + dictBits + dictBits * left = 64 := by
        simp only [dictBits] at hshift ⊢
        omega
      cases s with
      | leaf => cases hleaf
      | bucket es => exact bucketInsert_spec h
      | branch bm kids =>
          rw [dictInsertSlot]
          simp only []
          cases hbit : bm.getLsbD (nibble (hash k) shift) with
          | false =>
              obtain ⟨front, back, hv⟩ := exists_vacant h k hbit
              rw [if_pos ((Bitmap.and_bit_eq_zero (nibble_lt _ _)).mpr hbit)]
              exact hv.insert_spec v
          | true =>
              obtain ⟨c, front, back, hs⟩ := exists_selected h k hbit
              have hchild : InsertSpec hash left (shift + dictBits) k v c
                  (insertChild hash k v c shift) :=
                insertChild_spec hstep hs.child fun hleaf => ih hstep hs.child hleaf
              have hkid : dictInsertKid hash k v kids (front.map Prod.snd).length shift =
                  (front.map Prod.snd ++ (insertChild hash k v c shift).1 :: back.map Prod.snd,
                    (insertChild hash k v c shift).2) := by
                rw [hs.split.array, dictInsertKid_append]
              rw [if_neg (bit_ne_zero hbit), hs.pos_eq, hkid]
              obtain ⟨hs', hgood⟩ := hs.replace hbit hchild.good
                (hchild.entries.routed rfl rfl hs.routed)
              refine ⟨hgood, ?_, ?_, fun _ => ⟨_, _, rfl⟩⟩
              · rw [hs.entries, hs'.entries]
                exact hchild.entries.append hs.front_ne hs.back_ne
              · rw [hchild.added, hs.entries]
                constructor
                · intro hnone e he
                  rcases List.mem_append.mp he with he | he
                  · exact hs.front_ne e he
                  · exact (List.mem_append.mp he).elim (hnone e) (hs.back_ne e)
                · exact fun hnone e he =>
                    hnone e (List.mem_append_right _ (List.mem_append_left _ he))

end Sky.Dict
