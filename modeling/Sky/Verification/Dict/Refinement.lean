import Sky.Verification.Dict.Insert
import Mathlib
import Sky.Library.Run
import Sky.Verification.Dict.Remove

/-! # The Dict refines a finite map -/

namespace Sky.Dict

open Sky.Library

/-! ## Building a trie in one pass -/

section

variable {V : Type*} {hash : Key → BitVec 64} {left shift : ℕ}

/-! ## Bitmap and children of a node -/

theorem getLsbD_foldl_bit (cs : List (ℕ × ℕ)) (bm : BitVec 32) (hcs : ∀ c ∈ cs, c.2 < 32) (j : ℕ) :
    (cs.foldl (fun bm c => if 0 < c.1 then bm ||| Bitmap.bit 32 c.2 else bm) bm).getLsbD j =
      (bm.getLsbD j || cs.any fun c => decide (0 < c.1) && decide (c.2 = j)) := by
  induction cs generalizing bm with
  | nil => simp
  | cons c cs ih =>
      have hc := hcs c List.mem_cons_self
      rw [List.foldl_cons, ih _ fun c' hc' => hcs c' (List.mem_cons_of_mem _ hc'), List.any_cons]
      by_cases hpos : 0 < c.1
      · rw [if_pos hpos, BitVec.getLsbD_or, Bitmap.getLsbD_bit, decide_eq_true hc,
          decide_eq_true hpos, Bool.true_and, Bool.or_assoc]
      · rw [if_neg hpos, decide_eq_false hpos, Bool.false_and, Bool.false_or]

theorem zip_filterMap {α β : Type*} (f : α → Option β) (xs : List α) :
    (xs.filter fun x => (f x).isSome).zip (xs.filterMap f) =
      xs.filterMap fun x => (f x).map fun y => (x, y) := by
  induction xs with
  | nil => rfl
  | cons x xs ih =>
      cases h : f x with
      | none => simp [h, ih]
      | some y => simp [h, ih]

theorem length_filterMap {α β : Type*} (f : α → Option β) (xs : List α) :
    (xs.filterMap f).length = (xs.filter fun x => (f x).isSome).length := by
  induction xs with
  | nil => rfl
  | cons x xs ih =>
      cases h : f x with
      | none => simp [h, ih]
      | some y => simp [h, ih]

/-- The child that `dictBuildNode` makes of the entries with one nibble. -/
def buildChild (hash : Key → BitVec 64) (shift : ℕ) : List (Key × V) → Option (DSlot V)
  | [] => none
  | [(k, v)] => some (.leaf k v)
  | group => some (dictBuildNode hash group (shift + dictBits))

/-- The entries that hash to one position. -/
def group (hash : Key → BitVec 64) (entries : List (Key × V)) (shift b : ℕ) : List (Key × V) :=
  entries.filter fun e => nibble (hash e.1) shift = b

theorem zipIdx_histogram (entries : List (Key × V)) :
    (CountingSort.histogram (fun e : Key × V => nibble (hash e.1) shift) 16 entries).zipIdx =
      (List.range 16).map fun b => ((group hash entries shift b).length, b) := by
  refine List.ext_getElem? fun b => ?_
  rw [List.getElem?_zipIdx, List.getElem?_map, Nat.zero_add]
  rcases Nat.lt_or_ge b 16 with hb | hb
  · rw [CountingSort.getElem?_histogram hb, List.getElem?_range hb, List.countP_eq_length_filter]
    rfl
  · rw [List.getElem?_eq_none (by rwa [CountingSort.length_histogram]),
      List.getElem?_eq_none (by rwa [List.length_range])]
    rfl

/-- One step of `dictBuildNode` in terms of the groups. -/
theorem dictBuildNode_branch (hash : Key → BitVec 64) (entries : List (Key × V))
    (hshift : shift < 64) :
    ∃ bm, dictBuildNode hash entries shift =
        .branch bm ((List.range 16).filterMap fun b =>
          buildChild hash shift (group hash entries shift b)) ∧
      Bitmap.ones bm = (List.range 16).filter fun b =>
        (buildChild hash shift (group hash entries shift b)).isSome := by
  have hsome : ∀ es : List (Key × V),
      (buildChild hash shift es).isSome = decide (0 < es.length) := by
    intro es
    match es with
    | [] => rfl
    | [e] => rfl
    | e :: e' :: es => rfl
  rw [dictBuildNode, if_pos hshift]
  simp only [zipIdx_histogram]
  refine ⟨_, congrArg (DSlot.branch _) ?_, ?_⟩
  · rw [List.filterMap_map]
    refine List.filterMap_congr fun b hb => ?_
    have hb := List.mem_range.mp hb
    simp only [Function.comp]
    rw [CountingSort.bucket_eq_filter (fun e _ => nibble_lt_16 _ _) hb, ← group]
    match group hash entries shift b with
    | [] => rfl
    | [e] => rfl
    | e :: e' :: es => rfl
  · have hbit : ∀ j, ((List.map (fun b => ((group hash entries shift b).length, b))
        (List.range 16)).foldl (fun bm c => if 0 < c.1 then bm ||| Bitmap.bit 32 c.2 else bm)
          0#32).getLsbD j =
        (decide (j < 16) && decide (0 < (group hash entries shift j).length)) := by
      intro j
      rw [getLsbD_foldl_bit _ _ (by
        intro c hc
        obtain ⟨b, hb, rfl⟩ := List.mem_map.mp hc
        exact Nat.lt_trans (List.mem_range.mp hb) (by decide)) j]
      rw [BitVec.getLsbD_zero, Bool.false_or, List.any_map, Bool.eq_iff_iff]
      simp only [List.any_eq_true, List.mem_range, Function.comp, Bool.and_eq_true,
        decide_eq_true_eq]
      constructor
      · rintro ⟨b, hb, hpos, rfl⟩
        exact ⟨hb, hpos⟩
      · rintro ⟨hj, hpos⟩
        exact ⟨j, hj, hpos, rfl⟩
    have hrange : List.range 32 = List.range 16 ++ (List.range 16).map (16 + ·) := rfl
    rw [Bitmap.ones, hrange, List.filter_append]
    have hhigh : ((List.range 16).map (16 + ·)).filter (fun j =>
        ((List.map (fun b => ((group hash entries shift b).length, b))
          (List.range 16)).foldl (fun bm c => if 0 < c.1 then bm ||| Bitmap.bit 32 c.2 else bm)
            0#32).getLsbD j) = [] := by
      refine List.filter_eq_nil_iff.mpr fun j hj => ?_
      obtain ⟨i, -, rfl⟩ := List.mem_map.mp hj
      rw [hbit, decide_eq_false (by omega)]
      exact Bool.false_ne_true
    rw [hhigh, List.append_nil]
    refine List.filter_congr fun j hj => ?_
    rw [hbit, decide_eq_true (List.mem_range.mp hj), Bool.true_and, hsome]

/-! ## The contract -/

/-- A slot built from entries holds just these. -/
structure BuildSpec (hash : Key → BitVec 64) (left shift : ℕ) (entries : List (Key × V))
    (s : DSlot V) : Prop where
  good : Good hash left shift s
  entries : s.entries.Perm entries

theorem buildChild_spec {es : List (Key × V)} {c : DSlot V}
    (hnode : 2 ≤ es.length →
      BuildSpec hash left (shift + dictBits) es (dictBuildNode hash es (shift + dictBits)))
    (hc : buildChild hash shift es = some c) : BuildSpec hash left (shift + dictBits) es c := by
  match es with
  | [] => cases hc
  | [(k, v)] =>
      obtain rfl := Option.some.inj hc
      exact ⟨good_leaf _ _, .refl _⟩
  | e :: e' :: es =>
      obtain rfl := Option.some.inj hc
      refine hnode ?_
      simp only [List.length_cons]
      omega

/-- The children of a node together hold the groups. -/
theorem placedEntries_filterMap_perm {entries : List (Key × V)}
    (h : ∀ b c, buildChild hash shift (group hash entries shift b) = some c →
      BuildSpec hash left (shift + dictBits) (group hash entries shift b) c) (bs : List ℕ) :
    (placedEntries (bs.filterMap fun b =>
      (buildChild hash shift (group hash entries shift b)).map fun c => (b, c))).Perm
      (bs.flatMap fun b => group hash entries shift b) := by
  induction bs with
  | nil => exact .nil
  | cons b bs ih =>
      rw [List.flatMap_cons]
      cases hc : buildChild hash shift (group hash entries shift b) with
      | none =>
          have hnil : group hash entries shift b = [] := by
            match hg : group hash entries shift b with
            | [] => rfl
            | [e] => rw [hg] at hc; cases hc
            | e :: e' :: es => rw [hg] at hc; cases hc
          rw [List.filterMap_cons, hc, hnil, List.nil_append]
          exact ih
      | some c =>
          rw [List.filterMap_cons, hc]
          exact (h b c hc).entries.append ih

theorem dictBuildNode_spec {entries : List (Key × V)} (hshift : shift + dictBits * left = 64)
    (hnd : (entries.map Prod.fst).Nodup) (hlen : 2 ≤ entries.length) :
    BuildSpec hash left shift entries (dictBuildNode hash entries shift) ∧
      (dictBuildNode hash entries shift).isLeaf = false := by
  induction left generalizing shift entries with
  | zero =>
      rw [dictBuildNode, if_neg (by omega)]
      exact ⟨⟨good_bucket.mpr ⟨hlen, hnd⟩, .refl _⟩, rfl⟩
  | succ left ih =>
      have hlt : shift < 64 := by simp only [dictBits] at hshift; omega
      have hstep : shift + dictBits + dictBits * left = 64 := by
        simp only [dictBits] at hshift ⊢
        omega
      obtain ⟨bm, hnode, hones⟩ := dictBuildNode_branch hash entries hlt
      rw [hnode]
      have hchild : ∀ b c, buildChild hash shift (group hash entries shift b) = some c →
          BuildSpec hash left (shift + dictBits) (group hash entries shift b) c := by
        intro b c hc
        refine buildChild_spec (fun hlen => (ih hstep ?_ hlen).1) hc
        exact hnd.sublist (List.filter_sublist.map _)
      have hcount : ((List.range 16).filterMap fun b =>
          buildChild hash shift (group hash entries shift b)).length = Bitmap.onesCount bm := by
        rw [Bitmap.onesCount, hones, length_filterMap]
      have hbind := zip_filterMap (fun b => buildChild hash shift (group hash entries shift b))
        (List.range 16)
      rw [← hones] at hbind
      have hperm : (DSlot.branch bm ((List.range 16).filterMap fun b =>
          buildChild hash shift (group hash entries shift b))).entries.Perm entries := by
        rw [entries_branch hcount, Bitmap.bindings, hbind]
        refine List.Perm.trans ?_ (CountingSort.flatMap_filter_perm (m := 16)
          fun e _ => nibble_lt_16 (hash e.1) shift)
        exact placedEntries_filterMap_perm hchild _
      refine ⟨⟨good_branch.mpr ⟨?_, hcount, ?_⟩, hperm⟩, rfl⟩
      · intro hnil
        rw [hnil] at hperm
        have := hperm.length_eq
        simp only [DSlot.entries, kidsEntries, List.length_nil] at this
        omega
      · intro p hp
        rw [Bitmap.bindings, hbind] at hp
        obtain ⟨b, -, hb⟩ := List.mem_filterMap.mp hp
        obtain ⟨c, hc, rfl⟩ := Option.map_eq_some_iff.mp hb
        have hspec := hchild b c hc
        refine ⟨hspec.good, fun e he => ?_⟩
        exact of_decide_eq_true (List.mem_filter.mp (hspec.entries.mem_iff.mp he)).2

end

/-! ## The Dict as a map -/

variable {V : Type*} {hash : Key → BitVec 64} {k : Key} {v : V}

/-! ## The flat array -/

/-- The prefilter of the scan rejects no entry with the key. -/
theorem flatFind_eq_findIdx? (es : List (Key × V)) (k : Key) :
    flatFind es k = es.findIdx? fun e => e.1 = k := by
  rw [flatFind]
  cases hlast : k.getLast? with
  | none =>
      obtain rfl := List.getLast?_eq_none_iff.mp hlast
      simp only [List.length_eq_zero_iff]
  | some last =>
      simp only []
      congr 1
      funext e
      refine decide_eq_decide.mpr ⟨fun h => h.2.2, fun h => ?_⟩
      rw [h]
      exact ⟨rfl, by rwa [← List.getLast?_eq_getElem?], rfl⟩

theorem flat_lookup {es : List (Key × V)} (hnd : (es.map Prod.fst).Nodup) :
    ((flatFind es k).bind fun i => es[i]?.map Prod.snd) = some v ↔ (k, v) ∈ es := by
  have hscan : ((es.findIdx? fun e => e.1 = k).bind fun i => es[i]?.map Prod.snd) = scan es k := by
    rw [scan, List.find?_eq_bind_findIdx?_getElem?, Option.map_bind]
    rfl
  rw [flatFind_eq_findIdx?, hscan, scan_eq_some hnd]

/-! ## Range -/

theorem rangeEntries_append {σ : Type*} (fn : Key → V → σ → Bool × σ) (es fs : List (Key × V))
    (st : σ) : rangeEntries fn (es ++ fs) st =
      match rangeEntries fn es st with
      | (true, st) => rangeEntries fn fs st
      | (false, st) => (false, st) := by
  induction es generalizing st with
  | nil => rfl
  | cons e es ih =>
      obtain ⟨key, val⟩ := e
      rw [List.cons_append, rangeEntries, rangeEntries]
      split
      · exact ih _
      · rfl

mutual

theorem dictRangeSlot_eq {σ : Type*} (fn : Key → V → σ → Bool × σ) (s : DSlot V)
    (hleaf : s.isLeaf = false) (st : σ) :
    dictRangeSlot fn s st = rangeEntries fn s.entries st := by
  cases s with
  | leaf => cases hleaf
  | bucket es => rfl
  | branch bm kids =>
      rw [dictRangeSlot, DSlot.entries]
      exact dictRangeKids_eq fn kids st

theorem dictRangeKids_eq {σ : Type*} (fn : Key → V → σ → Bool × σ) (kids : List (DSlot V))
    (st : σ) :
    dictRangeKids fn kids st = rangeEntries fn (kidsEntries kids) st := by
  cases kids with
  | nil => rfl
  | cons c kids =>
      rw [kidsEntries, rangeEntries_append]
      cases c with
      | leaf key val =>
          rw [dictRangeKids, DSlot.entries, rangeEntries]
          split
          · exact dictRangeKids_eq fn kids _
          · rfl
      | branch bm ks =>
          rw [dictRangeKids, ← dictRangeSlot_eq fn (.branch bm ks) rfl]
          obtain ⟨_ | _, st'⟩ := dictRangeSlot fn (.branch bm ks) st
          · rfl
          · exact dictRangeKids_eq fn kids st'
      | bucket es =>
          rw [dictRangeKids, ← dictRangeSlot_eq fn (.bucket es) rfl]
          obtain ⟨_ | _, st'⟩ := dictRangeSlot fn (.bucket es) st
          · rfl
          · exact dictRangeKids_eq fn kids st'

end

namespace SkyDict

/-! ## Versions -/

/-- The entries of a Dict in the order of its Range. -/
def entries : SkyDict V → List (Key × V)
  | flat entries _ => entries
  | trie bm kids _ _ => (DSlot.branch bm kids).entries

/-- A Dict that the operations can reach. -/
def Good (hash : Key → BitVec 64) : SkyDict V → Prop
  | flat entries _ => (entries.map Prod.fst).Nodup
  | trie bm kids n _ =>
      Dict.Good hash 16 0 (.branch bm kids) ∧ n = (DSlot.branch bm kids).entries.length

/-- The callback's view of a Range that never stops. -/
def visited (d : SkyDict V) : List (Key × V) := d.Range (fun k v es => (true, es ++ [(k, v)])) []

variable {d : SkyDict V}

theorem Good.nodup (h : Good hash d) : (d.entries.map Prod.fst).Nodup := by
  cases d with
  | flat es => exact h
  | trie => exact Dict.Good.nodup h.1

theorem Good.lookup (h : Good hash d) : d.Lookup hash k = some v ↔ (k, v) ∈ d.entries := by
  cases d with
  | flat es => exact flat_lookup h
  | trie => exact lookupFrom_eq_some rfl h.1

theorem Good.len (h : Good hash d) : d.Len = d.entries.length := by
  cases d with
  | flat es => rfl
  | trie => exact h.2

/-- Range runs the callback on the entries one after another. -/
theorem range_eq {σ : Type*} (fn : Key → V → σ → Bool × σ) (d : SkyDict V) (st : σ) :
    d.Range fn st = (rangeEntries fn d.entries st).2 := by
  cases d with
  | flat es => rfl
  | trie bm kids => rw [Range, dictRangeSlot_eq fn _ rfl, entries]

theorem visited_eq (d : SkyDict V) : d.visited = d.entries := by
  have h : ∀ es fs : List (Key × V),
      (rangeEntries (fun k v es => (true, es ++ [(k, v)])) es fs).2 = fs ++ es := by
    intro es
    induction es with
    | nil => exact fun fs => (List.append_nil fs).symm
    | cons e es ih =>
        intro fs
        rw [rangeEntries, ih, List.append_assoc]
        rfl
  rw [visited, range_eq, h, List.nil_append]

/-! ## Operations -/

theorem dictBuild_good (hash : Key → BitVec 64) {es : List (Key × V)}
    (hnd : (es.map Prod.fst).Nodup) (foreign : Bool) :
    Good hash (dictBuild hash es foreign) ∧ (dictBuild hash es foreign).entries.Perm es := by
  rw [dictBuild]
  split_ifs with hlen
  · exact ⟨hnd, .refl _⟩
  · have htwo : 2 ≤ es.length := by
      simp only [dictFlatMax] at hlen
      omega
    obtain ⟨bm, hnode, -⟩ := dictBuildNode_branch hash es (Nat.zero_lt_succ 63)
    obtain ⟨hspec, -⟩ := dictBuildNode_spec (show 0 + dictBits * 16 = 64 from rfl) hnd htwo
    rw [hnode] at hspec ⊢
    exact ⟨⟨hspec.good, hspec.entries.length_eq.symm⟩, hspec.entries⟩

theorem insert_good (h : Good hash d) (k : Key) (v : V) :
    Good hash (d.Insert hash k v) ∧ Bound k v d.entries (d.Insert hash k v).entries := by
  cases d with
  | flat es foreign =>
      have hnd : (es.map Prod.fst).Nodup := h
      rw [Insert, flatFind_eq_findIdx?]
      rcases findIdx?_key es k with ⟨i, hfind, hi⟩ | ⟨hfind, hnone⟩
      · have hbound : Bound k v es (es.modify i fun e => (e.1, v)) := bound_modify hnd hi
        rw [hfind]
        exact ⟨hbound.nodup hnd, hbound⟩
      · have hbound : Bound k v es (es ++ [(k, v)]) := by
          have : Bound k v (es ++ []) (es ++ [(k, v)]) := Bound.of_absent hnone (by simp)
          rwa [List.append_nil] at this
        rw [hfind]
        simp only []
        split_ifs
        · exact ⟨hbound.nodup hnd, hbound⟩
        · obtain ⟨hgood, hperm⟩ := dictBuild_good hash (hbound.nodup hnd) foreign
          exact ⟨hgood, hperm.trans hbound⟩
  | trie bm kids n foreign =>
      obtain ⟨hgood, rfl⟩ := h
      have hspec : InsertSpec hash 16 0 k v (.branch bm kids)
          (dictInsertSlot hash k v (.branch bm kids) 0) := dictInsertSlot_spec rfl hgood rfl
      rw [Insert]
      generalize dictInsertSlot hash k v (.branch bm kids) 0 = out at hspec ⊢
      obtain ⟨nr, added⟩ := out
      obtain ⟨bm', kids', rfl⟩ : ∃ bm' kids', nr = .branch bm' kids' :=
        hspec.isBranch ⟨bm, kids, rfl⟩
      refine ⟨⟨hspec.good, ?_⟩, hspec.entries⟩
      have hlen := hspec.entries.length_eq
      rw [List.length_cons] at hlen
      refine Eq.trans ?_ hlen.symm
      split_ifs with hadded
      · rw [without_eq_self (hspec.added.mp hadded)]
      · obtain ⟨e, he, hk⟩ : ∃ e ∈ (DSlot.branch bm kids).entries, e.1 = k := by
          by_contra hnone
          exact hadded (hspec.added.mpr fun e he hk => hnone ⟨e, he, hk⟩)
        exact (length_without_of_mem hgood.nodup he hk).symm

theorem remove_good (h : Good hash d) (k : Key) :
    Good hash (d.Remove hash k) ∧ (d.Remove hash k).entries = without k d.entries := by
  cases d with
  | flat es foreign =>
      have hnd : (es.map Prod.fst).Nodup := h
      rw [Remove, flatFind_eq_findIdx?]
      rcases findIdx?_key es k with ⟨i, hfind, hi⟩ | ⟨hfind, hnone⟩
      · have herase := eraseIdx_eq_without hnd hi
        rw [hfind]
        exact ⟨hnd.sublist ((List.eraseIdx_sublist es i).map _), herase⟩
      · rw [hfind]
        exact ⟨hnd, (without_eq_self hnone).symm⟩
  | trie bm kids n foreign =>
      obtain ⟨hgood, rfl⟩ := h
      have hspec : RemoveSpec hash 16 0 k (.branch bm kids) true
          (dictRemoveSlot hash k (.branch bm kids) 0 true) :=
        dictRemoveSlot_spec hgood rfl fun _ => ⟨bm, kids, rfl⟩
      rw [Remove]
      cases hout : dictRemoveSlot hash k (.branch bm kids) 0 true with
      | unchanged =>
          rw [hout] at hspec
          exact ⟨⟨hgood, rfl⟩, (without_eq_self hspec).symm⟩
      | deleted =>
          rw [hout] at hspec
          obtain ⟨v, hv⟩ := hspec
          refine ⟨List.nodup_nil, ?_⟩
          simp [entries, hv, without]
      | replaced s' =>
          rw [hout] at hspec
          obtain ⟨hgood', ⟨e, he, hk⟩, hentries, hroot⟩ := hspec
          obtain ⟨bm', kids', rfl⟩ := hroot rfl
          refine ⟨⟨hgood', ?_⟩, hentries⟩
          have := length_without_of_mem hgood.nodup he hk
          simp only [DSlot.bm, DSlot.kids]
          rw [hentries]
          omega

end SkyDict

/-! ## The finite map -/

/-- A finite map from encoded keys to values. -/
abbrev KeyMap (V : Type*) := Finmap fun _ : Key => V

/-- The Dict answers as the finite map does: the same bindings, as many as `Len`
says, each one visited once. -/
structure Refines (hash : Key → BitVec 64) (d : SkyDict V) (m : KeyMap V) : Prop where
  lookup : ∀ k, d.Lookup hash k = m.lookup k
  len : d.Len = m.keys.card
  once : (d.visited.map Prod.fst).Nodup
  range : ∀ k v, (k, v) ∈ d.visited ↔ m.lookup k = some v

/-- A list of entries with different keys that are the bindings of a map. -/
def Lists (es : List (Key × V)) (m : KeyMap V) : Prop := ∀ k v, (k, v) ∈ es ↔ m.lookup k = some v

theorem Lists.refines {d : SkyDict V} {m : KeyMap V} (hgood : d.Good hash)
    (h : Lists d.entries m) : Refines hash d m := by
  refine ⟨fun k => Option.ext fun v => ?_, ?_, ?_, ?_⟩
  · rw [hgood.lookup, h]
  · have hkeys : (d.entries.map Prod.fst).toFinset = m.keys := by
      ext k
      rw [List.mem_toFinset, Finmap.mem_keys, Finmap.mem_iff, List.mem_map]
      constructor
      · rintro ⟨⟨k, v⟩, he, rfl⟩
        exact ⟨v, (h k v).mp he⟩
      · rintro ⟨v, hv⟩
        exact ⟨(k, v), (h k v).mpr hv, rfl⟩
    rw [hgood.len, ← hkeys, List.toFinset_card_of_nodup hgood.nodup, List.length_map]
  · rw [SkyDict.visited_eq]
    exact hgood.nodup
  · rw [SkyDict.visited_eq]
    exact h

theorem Lists.insert {es fs : List (Key × V)} {m : KeyMap V} (h : Lists es m)
    (hbound : Bound k v es fs) : Lists fs (m.insert k v) := by
  intro k' v'
  rw [hbound.mem, h]
  by_cases hk : k' = k
  · subst hk
    simp [eq_comm]
  · simp [hk, Finmap.lookup_insert_of_ne]

theorem Lists.erase {es : List (Key × V)} {m : KeyMap V} (h : Lists es m) (k : Key) :
    Lists (without k es) (m.erase k) := by
  intro k' v'
  rw [mem_without, h]
  by_cases hk : k' = k
  · subst hk
    simp
  · simp [hk, Finmap.lookup_erase_ne]

/-- The finite map of a list of entries. -/
def toKeyMap (es : List (Key × V)) : KeyMap V :=
  (es.map fun e => (⟨e.1, e.2⟩ : Sigma fun _ : Key => V)).toFinmap

theorem Lists.toKeyMap {es : List (Key × V)} (hnd : (es.map Prod.fst).Nodup) :
    Lists es (toKeyMap es) := by
  intro k v
  rw [Dict.toKeyMap, Finmap.dlookup_list_toFinmap]
  induction es with
  | nil => simp
  | cons e es ih =>
      obtain ⟨hne, hnd⟩ := List.nodup_cons.mp hnd
      rw [List.map_cons, List.mem_cons]
      by_cases hk : e.1 = k
      · subst hk
        rw [List.dlookup_cons_eq]
        constructor
        · rintro (h | h)
          · rw [← h]
          · exact (hne (List.mem_map.mpr ⟨_, h, rfl⟩)).elim
        · rintro h
          rw [← Option.some.inj h]
          exact .inl rfl
      · rw [List.dlookup_cons_ne _ _ (Ne.symm hk), ← ih hnd]
        refine ⟨fun h => h.resolve_left ?_, .inr⟩
        rintro rfl
        exact hk rfl

/-! ## Sequences of operations on versions -/

/-- An operation on any of the versions obtained so far, or a new Dict built from
entries. -/
inductive DictOp (V : Type*) where
  | insert (version : ℕ) (k : Key) (v : V)
  | remove (version : ℕ) (k : Key)
  | build (entries : List (Key × V)) (foreign : Bool)

/-- One operation adds one version. `dictBuild` is called with distinct keys. -/
def DictOp.apply (hash : Key → BitVec 64) (versions : List (SkyDict V)) :
    DictOp V → Option (List (SkyDict V))
  | .insert i k v => versions[i]?.map fun d => versions ++ [d.Insert hash k v]
  | .remove i k => versions[i]?.map fun d => versions ++ [d.Remove hash k]
  | .build entries foreign =>
      if (entries.map Prod.fst).Nodup then some (versions ++ [dictBuild hash entries foreign])
      else none

/-- The same operation on finite maps. -/
def DictOp.applyMap (maps : List (KeyMap V)) : DictOp V → Option (List (KeyMap V))
  | .insert i k v => maps[i]?.map fun m => maps ++ [m.insert k v]
  | .remove i k => maps[i]?.map fun m => maps ++ [m.erase k]
  | .build entries _ => some (maps ++ [toKeyMap entries])

/-- The version and the map with the same number agree. -/
def Agree (hash : Key → BitVec 64) (versions : List (SkyDict V)) (maps : List (KeyMap V)) : Prop :=
  List.Forall₂ (fun d m => d.Good hash ∧ Lists d.entries m) versions maps

theorem Agree.snoc {versions : List (SkyDict V)} {maps : List (KeyMap V)} {d : SkyDict V}
    {m : KeyMap V} (h : Agree hash versions maps) (hd : d.Good hash) (hm : Lists d.entries m) :
    Agree hash (versions ++ [d]) (maps ++ [m]) :=
  List.rel_append h (.cons ⟨hd, hm⟩ .nil)

theorem Agree.getElem? {versions : List (SkyDict V)} {maps : List (KeyMap V)} {i : ℕ}
    {d : SkyDict V} (h : Agree hash versions maps) (hd : versions[i]? = some d) :
    ∃ m, maps[i]? = some m ∧ d.Good hash ∧ Lists d.entries m := by
  induction h generalizing i with
  | nil => simp at hd
  | @cons d' m versions maps hdm _ ih =>
      cases i with
      | zero =>
          obtain rfl := Option.some.inj hd
          exact ⟨m, rfl, hdm⟩
      | succ i => exact ih hd

theorem Agree.step {versions versions' : List (SkyDict V)} {maps : List (KeyMap V)} {op : DictOp V}
    (h : Agree hash versions maps) (hop : op.apply hash versions = some versions') :
    ∃ maps', op.applyMap maps = some maps' ∧ Agree hash versions' maps' := by
  cases op with
  | insert i k v =>
      obtain ⟨d, hd, rfl⟩ := Option.map_eq_some_iff.mp hop
      obtain ⟨m, hm, hgood, hlists⟩ := h.getElem? hd
      obtain ⟨hgood', hbound⟩ := SkyDict.insert_good hgood k v
      exact ⟨_, by rw [DictOp.applyMap, hm]; rfl, h.snoc hgood' (hlists.insert hbound)⟩
  | remove i k =>
      obtain ⟨d, hd, rfl⟩ := Option.map_eq_some_iff.mp hop
      obtain ⟨m, hm, hgood, hlists⟩ := h.getElem? hd
      obtain ⟨hgood', hentries⟩ := SkyDict.remove_good hgood k
      exact ⟨_, by rw [DictOp.applyMap, hm]; rfl, h.snoc hgood' (hentries ▸ hlists.erase k)⟩
  | build entries foreign =>
      simp only [DictOp.apply] at hop
      split_ifs at hop with hnd
      obtain rfl := Option.some.inj hop
      obtain ⟨hgood, hperm⟩ := SkyDict.dictBuild_good hash hnd foreign
      refine ⟨_, rfl, h.snoc hgood fun k v => ?_⟩
      rw [hperm.mem_iff]
      exact Lists.toKeyMap hnd k v

/-- A step adds a version at the end and touches no earlier one. -/
theorem DictOp.prefix_of_apply {versions versions' : List (SkyDict V)} {op : DictOp V}
    (hop : op.apply hash versions = some versions') : versions <+: versions' := by
  cases op with
  | insert i k v =>
      obtain ⟨d, -, rfl⟩ := Option.map_eq_some_iff.mp hop
      exact List.prefix_append _ _
  | remove i k =>
      obtain ⟨d, -, rfl⟩ := Option.map_eq_some_iff.mp hop
      exact List.prefix_append _ _
  | build entries foreign =>
      simp only [DictOp.apply] at hop
      split_ifs at hop
      obtain rfl := Option.some.inj hop
      exact List.prefix_append _ _

/-- For every hash function and every sequence of operations on any versions, the
same operations on finite maps succeed, every version answers as its map does, and
all versions of an earlier moment are still there unchanged. -/
theorem dict_refines_map (hash : Key → BitVec 64) {ops : List (DictOp V)}
    {versions : List (SkyDict V)}
    (h : Run (fun vs op vs' => DictOp.apply hash vs op = some vs') [.flat [] false] ops versions) :
    ∃ maps, Run (fun ms op ms' => DictOp.applyMap ms op = some ms') [∅] ops maps ∧
      List.Forall₂ (Refines hash) versions maps ∧
      ∀ ops' versions', Run (fun vs op vs' => DictOp.apply hash vs op = some vs')
        versions ops' versions' → versions <+: versions' := by
  have hinit : Agree hash [SkyDict.flat ([] : List (Key × V)) false] [∅] :=
    .cons ⟨List.nodup_nil, fun k v => by simp [SkyDict.entries]⟩ .nil
  obtain ⟨maps, hmaps, hagree⟩ := h.simulates (fun _ _ _ _ ha hop => ha.step hop) hinit
  refine ⟨maps, hmaps, hagree.imp fun _ _ hdm => hdm.2.refines hdm.1, fun ops' versions' h' => ?_⟩
  exact h'.relates List.prefix_refl (fun _ _ _ => List.IsPrefix.trans)
    fun _ _ _ => DictOp.prefix_of_apply

/-- More entries than the flat array takes. -/
def seventeen : List (Key × ℕ) := (List.range 17).map fun n => ([UInt8.ofNat n], n)

/-- A trie, one more key in it, and one key out of the older version, under a hash
function that sends all keys to one word. -/
def collidingOps : List (DictOp ℕ) :=
  [.build seventeen false, .insert 1 [17] 17, .remove 1 [3]]

theorem dict_refines_map_collidingOps :
    ∃ versions maps, versions.length = 4 ∧
      Run (fun ms op ms' => DictOp.applyMap ms op = some ms') [∅] collidingOps maps ∧
      List.Forall₂ (Refines fun _ => 0#64) versions maps := by
  have hbuild : DictOp.apply (fun _ => 0#64) [.flat [] false] (.build seventeen false) =
      some [.flat [] false, dictBuild (fun _ => 0#64) seventeen false] := by
    rw [DictOp.apply, if_pos (by decide)]
    rfl
  obtain ⟨versions, hrun, hlen⟩ : ∃ versions,
      Run (fun vs op vs' => DictOp.apply (fun _ => 0#64) vs op = some vs') [.flat [] false]
        collidingOps versions ∧ versions.length = 4 :=
    ⟨_, .cons hbuild (.cons rfl (.cons rfl (.nil _))), rfl⟩
  obtain ⟨maps, hmaps, hall, -⟩ := dict_refines_map (fun _ => 0#64) hrun
  exact ⟨versions, maps, hlen, hmaps, hall⟩

end Sky.Dict
