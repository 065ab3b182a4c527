import Mathlib
import Sky.Model.Diff

/-! # Matched children

`alignChildren` matches elements to elements, and no old child twice. -/

namespace Sky.Live

variable {Msg : Type*} {ocs ncs : List (VNode Msg)} {m : List (Option ℕ)} {i j : ℕ}

/-- The children at two slots are elements. -/
structure Fits (ocs ncs : List (VNode Msg)) (i j : ℕ) : Prop where
  old : ∃ o, ocs[j]? = some o ∧ o.isElement = true
  new : ∃ c, ncs[i]? = some c ∧ c.isElement = true

/-- A match of new children to old ones. -/
structure Aligned (ocs ncs : List (VNode Msg)) (m : List (Option ℕ)) : Prop where
  length : m.length = ncs.length
  fits : ∀ i j : ℕ, m[i]? = some (some j) → Fits ocs ncs i j
  inj : ∀ i i' j : ℕ, m[i]? = some (some j) → m[i']? = some (some j) → i = i'

theorem Aligned.set (h : Aligned ocs ncs m) (hfits : Fits ocs ncs i j) (hj : some j ∉ m) :
    Aligned ocs ncs (m.set i (some j)) := by
  have hfree : ∀ k : ℕ, m[k]? ≠ some (some j) := fun k hk => hj (List.mem_of_getElem? hk)
  have hset : ∀ k l : ℕ, (m.set i (some j))[k]? = some (some l) →
      (k = i ∧ l = j) ∨ m[k]? = some (some l) := by
    intro k l hk
    rw [List.getElem?_set] at hk
    split_ifs at hk with hik
    · exact .inl ⟨hik.symm, (Option.some.inj (Option.some.inj hk)).symm⟩
    · exact .inr hk
  refine ⟨by rw [List.length_set, h.length], fun k l hk => ?_, fun k k' l hk hk' => ?_⟩
  · rcases hset k l hk with ⟨rfl, rfl⟩ | hk
    · exact hfits
    · exact h.fits k l hk
  · rcases hset k l hk with ⟨rfl, rfl⟩ | hold <;> rcases hset k' l hk' with ⟨rfl, hl⟩ | hold'
    · rfl
    · exact (hfree k' hold').elim
    · exact (hfree k (hl ▸ hold)).elim
    · exact h.inj k k' l hold hold'

/-! ## Index-free ids -/

theorem lookup_indexByID {pid s : SkyID} (h : (indexByID pid ocs).lookup s = some j) :
    ∃ o, ocs[j]? = some o ∧ o.isElement = true ∧ o.skyID.drop pid.length = s := by
  have hfold : ∀ (l : List (VNode Msg × ℕ)) (out : AList fun _ : SkyID => ℕ),
      (l.foldl (fun m cj => if keyedUnder pid cj.1 then
        m.insert (cj.1.skyID.drop pid.length) cj.2 else m) out).lookup s = some j →
      out.lookup s = some j ∨
        ∃ o, (o, j) ∈ l ∧ keyedUnder pid o = true ∧ o.skyID.drop pid.length = s := by
    intro l
    induction l with
    | nil => exact fun out hout => .inl hout
    | cons cj l ih =>
        intro out hout
        rcases ih _ hout with hnext | ⟨o, ho, hkey, hs⟩
        · simp only at hnext
          split_ifs at hnext with hkey
          · by_cases hs : s = cj.1.skyID.drop pid.length
            · subst hs
              rw [AList.lookup_insert] at hnext
              obtain rfl := Option.some.inj hnext
              exact .inr ⟨cj.1, List.mem_cons_self .., hkey, rfl⟩
            · rw [AList.lookup_insert_ne hs] at hnext
              exact .inl hnext
          · exact .inl hnext
        · exact .inr ⟨o, List.mem_cons_of_mem _ ho, hkey, hs⟩
  rcases hfold _ _ h with hempty | ⟨o, ho, hkey, hs⟩
  · simp at hempty
  · rw [List.mem_zipIdx_iff_getElem?] at ho
    rw [keyedUnder, Bool.and_eq_true] at hkey
    exact ⟨o, ho, hkey.1, hs⟩

theorem eq_append_drop {parentID childID : SkyID} (h : skyIDIsIndexFree parentID childID = true) :
    childID = parentID ++ childID.drop parentID.length := by
  rw [skyIDIsIndexFree, Bool.and_eq_true, decide_eq_true_iff] at h
  obtain ⟨w, rfl⟩ := h.1
  rw [List.drop_left]

/-- The elements among the children have different ids. -/
def Distinct (cs : List (VNode Msg)) : Prop :=
  ∀ (i i' : ℕ) c c', cs[i]? = some c → cs[i']? = some c' → c.isElement = true → c'.isElement = true →
    c.skyID = c'.skyID → i = i'

theorem getElem?_matchKeyed {oldID newID : SkyID}
    (h : (matchKeyed oldID newID ocs ncs)[i]? = some (some j)) :
    ∃ c, ncs[i]? = some c ∧ keyedUnder newID c = true ∧
      (indexByID oldID ocs).lookup (c.skyID.drop newID.length) = some j := by
  rw [matchKeyed, List.getElem?_map, Option.map_eq_some_iff] at h
  obtain ⟨c, hc, h⟩ := h
  split_ifs at h with hkey
  exact ⟨c, hc, hkey, (Option.filter_eq_some_iff.mp h).1⟩

theorem aligned_matchKeyed (oldID newID : SkyID) (hncs : Distinct ncs) :
    Aligned ocs ncs (matchKeyed oldID newID ocs ncs) := by
  refine ⟨by rw [matchKeyed, List.length_map], fun i j h => ?_, fun i i' j h h' => ?_⟩
  · obtain ⟨c, hc, hkey, hlookup⟩ := getElem?_matchKeyed h
    obtain ⟨o, ho, helem, -⟩ := lookup_indexByID hlookup
    rw [keyedUnder, Bool.and_eq_true] at hkey
    exact ⟨⟨o, ho, helem⟩, c, hc, hkey.1⟩
  · obtain ⟨c, hc, hkey, hlookup⟩ := getElem?_matchKeyed h
    obtain ⟨c', hc', hkey', hlookup'⟩ := getElem?_matchKeyed h'
    obtain ⟨o, ho, -, hs⟩ := lookup_indexByID hlookup
    obtain ⟨o', ho', -, hs'⟩ := lookup_indexByID hlookup'
    obtain rfl := Option.some.inj (ho.symm.trans ho')
    rw [keyedUnder, Bool.and_eq_true] at hkey hkey'
    refine hncs i i' c c' hc hc' hkey.1 hkey'.1 ?_
    rw [eq_append_drop hkey.2, eq_append_drop hkey'.2, ← hs, hs']

/-! ## Shapes -/

/-- Pairs that use slots of two lists, the old ones at most once. -/
structure Pairs (as bs : List (ℕ × String)) (ps : List (ℕ × ℕ)) : Prop where
  old : (ps.map Prod.snd).Subperm (as.map Prod.fst)
  new : ∀ p ∈ ps, p.1 ∈ bs.map Prod.fst

variable {as bs : List (ℕ × String)}

theorem matchPrefix_spec (as bs : List (ℕ × String)) :
    (matchPrefix as bs).1.map Prod.snd ++ (matchPrefix as bs).2.1.map Prod.fst =
        as.map Prod.fst ∧
      (matchPrefix as bs).1.map Prod.fst ++ (matchPrefix as bs).2.2.map Prod.fst =
        bs.map Prod.fst := by
  induction as generalizing bs with
  | nil => cases bs <;> exact ⟨rfl, rfl⟩
  | cons a as ih =>
      cases bs with
      | nil => exact ⟨rfl, rfl⟩
      | cons b bs =>
          rw [matchPrefix]
          split_ifs
          · exact ⟨congrArg (a.1 :: ·) (ih bs).1, congrArg (b.1 :: ·) (ih bs).2⟩
          · exact ⟨rfl, rfl⟩

theorem lcsWalk_spec (dp : ℕ → ℕ → ℕ) (x y : ℕ) (as bs : List (ℕ × String)) :
    ((lcsWalk dp x y as bs).map Prod.snd).Sublist (as.map Prod.fst) ∧
      ((lcsWalk dp x y as bs).map Prod.fst).Sublist (bs.map Prod.fst) := by
  induction x, y, as, bs using lcsWalk.induct dp with
  | case1 x y j as i b bs ih =>
      rw [lcsWalk, if_pos rfl]
      exact ⟨ih.1.cons_cons j, ih.2.cons_cons i⟩
  | case2 x y j a as i b bs hab hle ih =>
      rw [lcsWalk, if_neg hab, if_pos hle]
      exact ⟨ih.1.cons j, ih.2⟩
  | case3 x y j a as i b bs hab hle ih =>
      rw [lcsWalk, if_neg hab, if_neg hle]
      exact ⟨ih.1, ih.2.cons i⟩
  | case4 x y as bs h =>
      rw [lcsWalk]
      · exact ⟨List.nil_sublist _, List.nil_sublist _⟩
      · exact h

theorem matchGreedy_spec (as bs : List (ℕ × String)) :
    ((matchGreedy as bs).map Prod.snd).Sublist (as.map Prod.fst) ∧
      ((matchGreedy as bs).map Prod.fst).Sublist (bs.map Prod.fst) := by
  induction bs generalizing as with
  | nil => cases as <;> exact ⟨List.nil_sublist _, List.nil_sublist _⟩
  | cons b bs ih =>
      have hsub := List.dropWhile_sublist (fun a : ℕ × String => decide (a.2 ≠ b.2)) (l := as)
      rw [matchGreedy]
      cases hdrop : as.dropWhile fun a => decide (a.2 ≠ b.2) with
      | nil => exact ⟨(ih as).1, (ih as).2.cons b.1⟩
      | cons a rest =>
          rw [hdrop] at hsub
          exact ⟨((ih rest).1.cons_cons a.1).trans (hsub.map Prod.fst), (ih rest).2.cons_cons b.1⟩

theorem matchShapes_spec (as bs : List (ℕ × String)) : Pairs as bs (matchShapes as bs) := by
  obtain ⟨hfold, hfnew⟩ := matchPrefix_spec as bs
  obtain ⟨hbold, hbnew⟩ :=
    matchPrefix_spec (matchPrefix as bs).2.1.reverse (matchPrefix as bs).2.2.reverse
  rw [matchShapes]
  generalize matchPrefix as bs = front at hfold hfnew hbold hbnew ⊢
  generalize matchPrefix front.2.1.reverse front.2.2.reverse = back at hbold hbnew ⊢
  have hrest : ∀ qs : List (ℕ × ℕ),
      (qs.map Prod.snd).Sublist (back.2.1.reverse.map Prod.fst) →
      (qs.map Prod.fst).Sublist (back.2.2.reverse.map Prod.fst) →
      Pairs as bs (front.1 ++ back.1 ++ qs) := by
    intro qs hqold hqnew
    constructor
    · have hperm : (front.1.map Prod.snd ++ (back.1.map Prod.snd ++ back.2.1.map Prod.fst)).Perm
          (as.map Prod.fst) := by
        rw [hbold, ← hfold, List.map_reverse]
        exact (List.reverse_perm _).append_left _
      have hback : (qs.map Prod.snd).Subperm (back.2.1.map Prod.fst) := by
        rw [List.map_reverse] at hqold
        exact hqold.subperm.trans (List.reverse_perm _).subperm
      rw [List.map_append, List.map_append, List.append_assoc]
      refine List.Subperm.trans ?_ hperm.subperm
      exact (List.subperm_append_left _).mpr ((List.subperm_append_left _).mpr hback)
    · have hmiddle : ∀ i ∈ front.2.2.map Prod.fst, i ∈ bs.map Prod.fst := by
        intro i hi
        rw [← hfnew]
        exact List.mem_append_right _ hi
      have hboth : ∀ i, i ∈ back.1.map Prod.fst ∨ i ∈ back.2.2.map Prod.fst →
          i ∈ bs.map Prod.fst := by
        intro i hi
        have hmem := List.mem_append.mpr hi
        rw [hbnew, List.map_reverse, List.mem_reverse] at hmem
        exact hmiddle i hmem
      intro p hp
      rcases List.mem_append.mp hp with hp | hp
      · rcases List.mem_append.mp hp with hp | hp
        · rw [← hfnew]
          exact List.mem_append_left _ (List.mem_map_of_mem hp)
        · exact hboth p.1 (.inl (List.mem_map_of_mem hp))
      · have hmem := hqnew.subset (List.mem_map_of_mem hp)
        rw [List.map_reverse, List.mem_reverse] at hmem
        exact hboth p.1 (.inr hmem)
  split_ifs
  · exact hrest [] (List.nil_sublist _) (List.nil_sublist _)
  · obtain ⟨hold, hnew⟩ := lcsWalk_spec _ 0 0 back.2.1.reverse back.2.2.reverse
    exact hrest _ hold hnew
  · obtain ⟨hold, hnew⟩ := matchGreedy_spec back.2.1.reverse back.2.2.reverse
    exact hrest _ hold hnew

theorem Aligned.assign {ps : List (ℕ × ℕ)} (h : Aligned ocs ncs m)
    (hfits : ∀ p ∈ ps, Fits ocs ncs p.1 p.2) (hnd : (ps.map Prod.snd).Nodup)
    (hfree : ∀ p ∈ ps, some p.2 ∉ m) :
    Aligned ocs ncs (ps.foldl (fun m p => m.set p.1 (some p.2)) m) := by
  induction ps generalizing m with
  | nil => exact h
  | cons p ps ih =>
      obtain ⟨hp, hnd⟩ := List.nodup_cons.mp hnd
      have hset := h.set (hfits p (List.mem_cons_self ..)) (hfree p (List.mem_cons_self ..))
      refine ih hset (fun q hq => hfits q (List.mem_cons_of_mem _ hq)) hnd fun q hq hmem => ?_
      rcases List.mem_or_eq_of_mem_set hmem with hmem | heq
      · exact hfree q (List.mem_cons_of_mem _ hq) hmem
      · refine hp ?_
        rw [← Option.some.inj heq]
        exact List.mem_map_of_mem hq

/-! ## Leftovers -/

section Leftovers

variable {eligible : ℕ → Bool} {fits : ℕ → ℕ → Bool} {hi : ℕ}

theorem Aligned.pairRun (hok : ∀ k j, eligible k = true → fits k j = true → Fits ocs ncs k j)
    (ks : List ℕ) (j : ℕ) (h : Aligned ocs ncs m) :
    Aligned ocs ncs (pairRun eligible fits hi ks j m) := by
  induction ks generalizing j m with
  | nil => exact h
  | cons k ks ih =>
      rw [Live.pairRun]
      split_ifs with hk
      · cases hfind : (List.range' j (hi - j)).find? fun j => decide (some j ∉ m) && fits k j with
        | none => exact ih _ h
        | some l =>
            have hl := List.find?_some hfind
            rw [Bool.and_eq_true, decide_eq_true_iff] at hl
            exact ih _ (h.set (hok k l hk hl.2) hl.1)
      · exact ih _ h

theorem Aligned.pairLeftovers (hok : ∀ k j, eligible k = true → fits k j = true → Fits ocs ncs k j)
    (olds news i lo : ℕ) (h : Aligned ocs ncs m) :
    Aligned ocs ncs (pairLeftovers eligible fits olds news i lo m) := by
  induction i, lo, m using Live.pairLeftovers.induct eligible fits olds news with
  | case1 i lo m hi j hj ih =>
      rw [Live.pairLeftovers, if_pos hi, hj]
      exact ih h
  | case2 i lo m hi hj e hi' ih =>
      rw [Live.pairLeftovers, if_pos hi, hj]
      exact ih (h.pairRun hok _ _)
  | case3 i lo m hi =>
      rwa [Live.pairLeftovers, if_neg hi]

end Leftovers

theorem map_fst_filterMap_sublist {α β : Type*} (f : α × ℕ → Option (ℕ × β)) (l : List (α × ℕ))
    (hf : ∀ x y, f x = some y → y.1 = x.2) :
    ((l.filterMap f).map Prod.fst).Sublist (l.map Prod.snd) := by
  induction l with
  | nil => exact List.nil_sublist _
  | cons x l ih =>
      cases hx : f x with
      | none =>
          rw [List.filterMap_cons_none hx]
          exact ih.cons x.2
      | some y =>
          rw [List.filterMap_cons_some hx, List.map_cons, List.map_cons, hf x y hx]
          exact ih.cons_cons x.2

theorem of_mem_oldShapes {oldID : SkyID} (h : j ∈ (oldShapes oldID ocs m).map Prod.fst) :
    (∃ o, ocs[j]? = some o ∧ o.isElement = true) ∧ some j ∉ m := by
  obtain ⟨a, ha, rfl⟩ := List.mem_map.mp h
  obtain ⟨⟨o, l⟩, hol, hsome⟩ := List.mem_filterMap.mp ha
  split_ifs at hsome with hcond
  obtain rfl := Option.some.inj hsome
  rw [Bool.and_eq_true, Bool.and_eq_true, decide_eq_true_iff] at hcond
  exact ⟨⟨o, List.mem_zipIdx_iff_getElem?.mp hol, hcond.1.1⟩, hcond.1.2⟩

theorem of_mem_newShapes {newID : SkyID} (h : i ∈ (newShapes newID ncs m).map Prod.fst) :
    ∃ c, ncs[i]? = some c ∧ c.isElement = true := by
  obtain ⟨b, hb, rfl⟩ := List.mem_map.mp h
  obtain ⟨⟨⟨c, l⟩, o⟩, hcl, hsome⟩ := List.mem_filterMap.mp hb
  split_ifs at hsome with hcond
  obtain rfl := Option.some.inj hsome
  rw [Bool.and_eq_true, Bool.and_eq_true] at hcond
  exact ⟨c, List.mem_zipIdx_iff_getElem?.mp (List.of_mem_zip hcl).1, hcond.1.1⟩

theorem nodup_oldShapes (oldID : SkyID) (ocs : List (VNode Msg)) (m : List (Option ℕ)) :
    ((oldShapes oldID ocs m).map Prod.fst).Nodup := by
  have hsub : ((oldShapes oldID ocs m).map Prod.fst).Sublist (ocs.zipIdx.map Prod.snd) := by
    refine map_fst_filterMap_sublist _ _ fun x y hxy => ?_
    split_ifs at hxy
    rw [← Option.some.inj hxy]
  refine List.Nodup.sublist hsub ?_
  rw [List.zipIdx_map_snd]
  exact List.nodup_range'

theorem aligned_alignChildren (oldID newID : SkyID) (hncs : Distinct ncs) :
    Aligned ocs ncs (alignChildren oldID newID ocs ncs) := by
  have hkeyed : Aligned ocs ncs (matchKeyed oldID newID ocs ncs) :=
    aligned_matchKeyed oldID newID hncs
  rw [alignChildren]
  generalize matchKeyed oldID newID ocs ncs = m at hkeyed ⊢
  have hpairs := matchShapes_spec (oldShapes oldID ocs m) (newShapes newID ncs m)
  have hmem : ∀ p ∈ matchShapes (oldShapes oldID ocs m) (newShapes newID ncs m),
      p.2 ∈ (oldShapes oldID ocs m).map Prod.fst :=
    fun p hp => hpairs.old.subset (List.mem_map_of_mem hp)
  obtain ⟨l, hperm, hsub⟩ := hpairs.old
  refine Aligned.pairLeftovers (fun k j hk hj => ?_) _ _ _ _ (hkeyed.assign (fun p hp => ?_) ?_ ?_)
  · obtain ⟨c, hc, hcelem⟩ := (Option.any_eq_true _ _).mp hk
    obtain ⟨o, ho, hoelem⟩ := (Option.any_eq_true _ _).mp hj
    rw [Bool.and_eq_true] at hcelem
    rw [Bool.and_eq_true, Bool.and_eq_true] at hoelem
    exact ⟨⟨o, ho, hoelem.1.1⟩, c, hc, hcelem.1⟩
  · exact ⟨(of_mem_oldShapes (hmem p hp)).1, of_mem_newShapes (hpairs.new p hp)⟩
  · exact hperm.nodup_iff.mp ((nodup_oldShapes oldID ocs m).sublist hsub)
  · exact fun p hp => (of_mem_oldShapes (hmem p hp)).2

end Sky.Live
