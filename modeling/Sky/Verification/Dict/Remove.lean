import Sky.Verification.Dict.Insert

/-! # Removal from the trie

What `dictRemoveSlot` makes of the entries and the shape, with the branches that
collapse into their last leaf. -/

namespace Sky.Dict

open Sky.Library

variable {V : Type*} {hash : Key → BitVec 64} {k : Key} {left shift : ℕ}

/-! ## Arrays of entries -/

theorem eraseIdx_eq_without {es : List (Key × V)} {i : ℕ} (hnd : (es.map Prod.fst).Nodup)
    (hi : (es[i]?).map Prod.fst = some k) : es.eraseIdx i = without k es := by
  induction es generalizing i with
  | nil => simp at hi
  | cons e es ih =>
      obtain ⟨hne, hnd⟩ := List.nodup_cons.mp hnd
      cases i with
      | zero =>
          obtain rfl : e.1 = k := by simpa using hi
          rw [without, List.filter_cons_of_neg (by simp), ← without]
          exact (without_eq_self fun e' he' heq => hne (List.mem_map.mpr ⟨e', he', heq⟩)).symm
      | succ i =>
          have hk : e.1 ≠ k := by
            rintro rfl
            obtain ⟨e', he', heq⟩ := Option.map_eq_some_iff.mp hi
            exact hne (List.mem_map.mpr ⟨e', List.mem_of_getElem? he', heq⟩)
          rw [without, List.filter_cons_of_pos (by simpa using hk), ← without,
            List.eraseIdx_cons_succ, ih hnd hi]

theorem length_without_of_mem {es : List (Key × V)} (hnd : (es.map Prod.fst).Nodup) {e : Key × V}
    (he : e ∈ es) (hk : e.1 = k) : (without k es).length + 1 = es.length := by
  obtain ⟨i, hi, rfl⟩ := List.mem_iff_getElem.mp he
  rw [← eraseIdx_eq_without hnd (by rw [List.getElem?_eq_getElem hi, Option.map_some, hk]),
    List.length_eraseIdx_of_lt hi]
  omega

/-! ## The contract -/

/-- What a removal makes of a slot. -/
def RemoveSpec (hash : Key → BitVec 64) (left shift : ℕ) (k : Key) (s : DSlot V) (isRoot : Bool) :
    DictRemoved V → Prop
  | .unchanged => ∀ e ∈ s.entries, e.1 ≠ k
  | .deleted => ∃ v, s.entries = [(k, v)]
  | .replaced s' => Good hash left shift s' ∧ (∃ e ∈ s.entries, e.1 = k) ∧
      s'.entries = without k s.entries ∧ (isRoot = true → ∃ bm kids, s' = .branch bm kids)

theorem bucketRemove_spec {es : List (Key × V)} (h : Good hash left shift (.bucket es)) :
    RemoveSpec hash left shift k (.bucket es) false (bucketRemove es k) := by
  obtain ⟨hlen, hnd⟩ := good_bucket.mp h
  rcases findIdx?_key es k with ⟨i, hfind, hi⟩ | ⟨hfind, hnone⟩
  · have hmem : ∃ e ∈ es, e.1 = k := by
      obtain ⟨e, he, heq⟩ := Option.map_eq_some_iff.mp hi
      exact ⟨e, List.mem_of_getElem? he, heq⟩
    have herase := eraseIdx_eq_without hnd hi
    simp only [bucketRemove, hfind]
    split_ifs with htwo
    · -- the other entry becomes a leaf
      obtain ⟨e₀, e₁, rfl⟩ := List.length_eq_two.mp htwo
      obtain rfl | rfl : i = 0 ∨ i = 1 := by
        obtain ⟨e, he, -⟩ := Option.map_eq_some_iff.mp hi
        have := (List.getElem?_eq_some_iff.mp he).1
        simp only [List.length_cons, List.length_nil] at this
        omega
      · exact ⟨good_leaf _ _, hmem, herase, nofun⟩
      · exact ⟨good_leaf _ _, hmem, herase, nofun⟩
    · have hi' : i < es.length := by
        obtain ⟨e, he, -⟩ := Option.map_eq_some_iff.mp hi
        exact (List.getElem?_eq_some_iff.mp he).1
      refine ⟨good_bucket.mpr ⟨?_, ?_⟩, hmem, herase, nofun⟩
      · rw [List.length_eraseIdx_of_lt hi']
        omega
      · exact hnd.sublist ((List.eraseIdx_sublist es i).map _)
  · simp only [bucketRemove, hfind]
    exact hnone

/-! ## Removing below a branch -/

/-- What the loop of `dictRemoveSlot` makes of the child at its position. -/
def removeChild (hash : Key → BitVec 64) (k : Key) (c : DSlot V) (shift : ℕ) : DictRemoved V :=
  match c with
  | .leaf key _ => if key = k then .deleted else .unchanged
  | c => dictRemoveSlot hash k c (shift + dictBits) false

theorem dictRemoveKid_append (front : List (DSlot V)) (c : DSlot V) (back : List (DSlot V))
    (shift : ℕ) :
    dictRemoveKid hash k (front ++ c :: back) front.length shift = removeChild hash k c shift := by
  induction front with
  | nil => cases c <;> rfl
  | cons s front ih =>
      rw [List.cons_append, List.length_cons, dictRemoveKid, ih]

theorem removeChild_spec {c : DSlot V}
    (hslot : c.isLeaf = false →
      RemoveSpec hash left (shift + dictBits) k c false
        (dictRemoveSlot hash k c (shift + dictBits) false)) :
    RemoveSpec hash left (shift + dictBits) k c false (removeChild hash k c shift) := by
  cases c with
  | branch | bucket => exact hslot rfl
  | leaf key val =>
      rw [removeChild]
      split_ifs with hkey
      · subst hkey
        exact ⟨val, rfl⟩
      · exact fun e he => List.mem_singleton.mp he ▸ hkey

section Branch

variable {bm : BitVec 32} {kids : List (DSlot V)} {c : DSlot V} {front back : List (ℕ × DSlot V)}
  {isRoot : Bool}

theorem Selected.without (h : Selected hash left shift k bm kids c front back) :
    without k (DSlot.branch bm kids).entries =
      placedEntries front ++ (Dict.without k c.entries ++ placedEntries back) := by
  rw [h.entries, without_append, without_append, without_eq_self h.front_ne,
    without_eq_self h.back_ne]

theorem Selected.exists_key (h : Selected hash left shift k bm kids c front back)
    (hc : ∃ e ∈ c.entries, e.1 = k) : ∃ e ∈ (DSlot.branch bm kids).entries, e.1 = k := by
  obtain ⟨⟨key, val⟩, he, rfl⟩ := hc
  exact ⟨_, h.mem_entries.mpr he, rfl⟩

theorem Selected.length_kids (h : Selected hash left shift k bm kids c front back) :
    kids.length = front.length + (back.length + 1) := by
  rw [h.split.array]
  simp

/-- A leaf that a branch holds may stand in the place of the branch. -/
theorem branchDelete_spec (h : Selected hash left shift k bm kids c front back) {v : V}
    (hc : c.entries = [(k, v)]) :
    RemoveSpec hash (left + 1) shift k (.branch bm kids) isRoot
      (branchDelete bm (Bitmap.bit 32 (nibble (hash k) shift)) kids (front.map Prod.snd).length
        isRoot) := by
  have hkey := h.exists_key ⟨(k, v), by rw [hc]; exact List.mem_singleton_self _, rfl⟩
  have hwithout := h.without
  rw [hc, show Dict.without k [(k, v)] = [] by simp [Dict.without], List.nil_append] at hwithout
  have hlen := h.length_kids
  have hshrunk : kids.length ≠ 1 → RemoveSpec hash (left + 1) shift k (.branch bm kids) isRoot
      (.replaced (.branch (bm &&& ~~~Bitmap.bit 32 (nibble (hash k) shift))
        (kids.eraseIdx (front.map Prod.snd).length))) := by
    intro hone
    have herase : kids.eraseIdx (front.map Prod.snd).length =
        front.map Prod.snd ++ back.map Prod.snd := by
      rw [h.split.array, List.eraseIdx_append_of_length_le le_rfl, Nat.sub_self,
        List.eraseIdx_cons_zero]
    have hbind := h.split.erase (nibble_lt _ _)
    have hcount : (front.map Prod.snd ++ back.map Prod.snd).length =
        Bitmap.onesCount (bm &&& ~~~Bitmap.bit 32 (nibble (hash k) shift)) := by
      rw [h.split.onesCount_erase (nibble_lt _ _)]
      simp
    rw [herase]
    refine ⟨good_branch.mpr ⟨?_, hcount, ?_⟩, hkey, ?_, fun _ => ⟨_, _, rfl⟩⟩
    · refine List.ne_nil_of_length_pos ?_
      simp only [List.length_append, List.length_map]
      omega
    · rw [hbind]
      exact h.others
    · rw [entries_branch hcount, hbind, placedEntries_append, hwithout]
  simp only [branchDelete]
  split_ifs with hone htwo
  · obtain rfl := List.eq_nil_of_length_eq_zero (show front.length = 0 by omega)
    obtain rfl := List.eq_nil_of_length_eq_zero (show back.length = 0 by omega)
    exact ⟨v, by rw [h.entries, hc]; rfl⟩
  · split
    · next key val hother =>
      refine ⟨good_leaf _ _, hkey, ?_, fun hroot => (htwo.2 hroot).elim⟩
      rw [hwithout]
      rcases Nat.eq_zero_or_pos front.length with hfront | hfront
      · obtain rfl := List.eq_nil_of_length_eq_zero hfront
        obtain ⟨p, rfl⟩ := List.length_eq_one_iff.mp (show back.length = 1 by omega)
        rw [h.split.array] at hother
        have hp : p.2 = .leaf key val := Option.some.inj hother
        simp [placedEntries, hp]
      · obtain ⟨p, rfl⟩ := List.length_eq_one_iff.mp (show front.length = 1 by omega)
        obtain rfl := List.eq_nil_of_length_eq_zero (show back.length = 0 by
          simp only [List.length_singleton] at hlen; omega)
        rw [h.split.array] at hother
        have hp : p.2 = .leaf key val := Option.some.inj hother
        simp [placedEntries, hp]
    · exact hshrunk hone
  · exact hshrunk hone

theorem branchReplace_spec (h : Selected hash left shift k bm kids c front back)
    (hbit : bm.getLsbD (nibble (hash k) shift) = true) {repl : DSlot V}
    (hgood : Good hash left (shift + dictBits) repl) (hkey : ∃ e ∈ c.entries, e.1 = k)
    (hentries : repl.entries = Dict.without k c.entries) :
    RemoveSpec hash (left + 1) shift k (.branch bm kids) isRoot
      (branchReplace bm kids (front.map Prod.snd).length repl isRoot) := by
  have hkey' := h.exists_key hkey
  have hlen := h.length_kids
  rw [branchReplace]
  split_ifs with hup
  · obtain rfl := List.eq_nil_of_length_eq_zero (show front.length = 0 by omega)
    obtain rfl := List.eq_nil_of_length_eq_zero (show back.length = 0 by omega)
    refine ⟨?_, hkey', ?_, fun hroot => (hup.2.1 hroot).elim⟩
    · cases repl with
      | leaf => exact good_leaf _ _
      | branch | bucket => exact absurd hup.2.2 Bool.false_ne_true
    · rw [h.without, ← hentries]
      exact (List.append_nil _).symm
  · have hset : kids.set (front.map Prod.snd).length repl =
        front.map Prod.snd ++ repl :: back.map Prod.snd := by
      rw [h.split.array, List.set_append_right _ _ le_rfl, Nat.sub_self, List.set_cons_zero]
    have hrouted : Routed hash shift (nibble (hash k) shift, repl) := by
      intro e he
      rw [hentries] at he
      exact h.routed e (mem_without.mp he).1
    obtain ⟨h', hgood'⟩ := h.replace hbit hgood hrouted
    rw [hset]
    refine ⟨hgood', hkey', ?_, fun _ => ⟨_, _, rfl⟩⟩
    rw [h'.entries, h.without, hentries]

end Branch

theorem dictRemoveSlot_spec {s : DSlot V} {isRoot : Bool} (h : Good hash left shift s)
    (hleaf : s.isLeaf = false) (hroot : isRoot = true → ∃ bm kids, s = .branch bm kids) :
    RemoveSpec hash left shift k s isRoot (dictRemoveSlot hash k s shift isRoot) := by
  induction left generalizing shift s isRoot with
  | zero =>
      cases s with
      | leaf => cases hleaf
      | bucket es =>
          obtain rfl : isRoot = false := Bool.eq_false_iff.mpr fun hr => by
            obtain ⟨_, _, hs⟩ := hroot hr
            cases hs
          exact bucketRemove_spec h
      | branch => exact h.elim
  | succ left ih =>
      cases s with
      | leaf => cases hleaf
      | bucket es =>
          obtain rfl : isRoot = false := Bool.eq_false_iff.mpr fun hr => by
            obtain ⟨_, _, hs⟩ := hroot hr
            cases hs
          exact bucketRemove_spec h
      | branch bm kids =>
          rw [dictRemoveSlot]
          cases hbit : bm.getLsbD (nibble (hash k) shift) with
          | false =>
              obtain ⟨front, back, hv⟩ := exists_vacant h k hbit
              rw [if_pos ((Bitmap.and_bit_eq_zero (nibble_lt _ _)).mpr hbit)]
              exact hv.ne_of_mem
          | true =>
              obtain ⟨c, front, back, hs⟩ := exists_selected h k hbit
              have hchild : RemoveSpec hash left (shift + dictBits) k c false
                  (removeChild hash k c shift) :=
                removeChild_spec fun hleaf => ih hs.child hleaf nofun
              have hkid : dictRemoveKid hash k kids (front.map Prod.snd).length shift =
                  removeChild hash k c shift := by
                rw [hs.split.array, dictRemoveKid_append]
              rw [if_neg (bit_ne_zero hbit), hs.pos_eq, hkid]
              cases hout : removeChild hash k c shift with
              | unchanged =>
                  rw [hout] at hchild
                  intro e he
                  rw [hs.entries] at he
                  rcases List.mem_append.mp he with he | he
                  · exact hs.front_ne e he
                  · exact (List.mem_append.mp he).elim (hchild e) (hs.back_ne e)
              | deleted =>
                  rw [hout] at hchild
                  obtain ⟨v, hc⟩ := hchild
                  exact branchDelete_spec hs hc
              | replaced repl =>
                  rw [hout] at hchild
                  obtain ⟨hgood, hkey, hentries, -⟩ := hchild
                  exact branchReplace_spec hs hbit hgood hkey hentries

end Sky.Dict
