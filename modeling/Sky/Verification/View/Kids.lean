import Mathlib
import Sky.Verification.View.Align
import Sky.Verification.View.Descent

/-! # The children of an element

What each of the two ways to keep children leaves to the descent: the same slots, and
a kids patch. -/

namespace Sky.Live

open Sky.Library DottedPath

variable {Msg : Type*} {browser : Browser Msg} {cs : ClientState} {ocs ncs : List (VNode Msg)}

/-! ## The same slots -/

theorem eq_of_childrenSameSlots {ocs ncs : List (VNode Msg)} (h : childrenSameSlots ocs ncs = true)
    (hocs : ∀ c ∈ ocs, c.isElement = false) : ocs = ncs := by
  induction ocs, ncs using childrenSameSlots.induct with
  | case1 => rfl
  | case2 s os t ns ih =>
      simp only [childrenSameSlots, Bool.and_eq_true, decide_eq_true_eq] at h
      rw [h.1, ih h.2 fun c hc => hocs c (List.mem_cons_of_mem _ hc)]
  | case3 s os t ns ih =>
      simp only [childrenSameSlots, Bool.and_eq_true, decide_eq_true_eq] at h
      rw [h.1, ih h.2 fun c hc => hocs c (List.mem_cons_of_mem _ hc)]
  | case4 => cases hocs _ (List.mem_cons_self ..)
  | case5 => simp_all [childrenSameSlots]

theorem pendingAll_of_sameSlots {ocs ncs : List (VNode Msg)}
    (h : childrenSameSlots ocs ncs = true) :
    pendingAll browser (ocs.map fun o => if o.isElement then some (cs, o) else none) ncs =
      domAll browser ocs := by
  induction ocs, ncs using childrenSameSlots.induct with
  | case1 => rfl
  | case2 s os t ns ih =>
      simp only [childrenSameSlots, Bool.and_eq_true, decide_eq_true_eq] at h
      rw [List.map_cons, pendingAll, domAll, List.tail_cons, ih h.2, h.1]
      rfl
  | case3 s os t ns ih =>
      simp only [childrenSameSlots, Bool.and_eq_true, decide_eq_true_eq] at h
      rw [List.map_cons, pendingAll, domAll, List.tail_cons, ih h.2, h.1]
      rfl
  | case4 otag oattrs oevents ocs oid os ntag nattrs nevents ncs nid ns ih =>
      simp only [childrenSameSlots, Bool.and_eq_true, decide_eq_true_eq] at h
      rw [List.map_cons, pendingAll, domAll, List.tail_cons, ih h.2]
      rfl
  | case5 => simp_all [childrenSameSlots]

theorem AllComparable.cons {x : Option (ClientState × VNode Msg)}
    {olds : List (Option (ClientState × VNode Msg))} {c : VNode Msg} {ncs : List (VNode Msg)}
    (hhead : ∀ cs o, x = some (cs, o) → Comparable browser o c)
    (htail : AllComparable browser olds ncs) : AllComparable browser (x :: olds) (c :: ncs) := by
  intro i cs o d ho hd
  cases i with
  | zero =>
      obtain rfl := Option.some.inj hd
      exact hhead cs o ho
  | succ i => exact htail i cs o d ho hd

theorem allComparable_of_sameSlots {ocs ncs : List (VNode Msg)}
    (h : childrenSameSlots ocs ncs = true) (hocs : ∀ c ∈ ocs, View browser c)
    (hncs : ∀ c ∈ ncs, View browser c) :
    AllComparable browser (ocs.map fun o => if o.isElement then some (cs, o) else none) ncs := by
  induction ocs, ncs using childrenSameSlots.induct with
  | case1 => exact fun i cs o c _ hc => by simp at hc
  | case2 s os t ns ih =>
      simp only [childrenSameSlots, Bool.and_eq_true, decide_eq_true_eq] at h
      refine AllComparable.cons (fun cs o ho => ?_) (ih h.2
        (fun c hc => hocs c (List.mem_cons_of_mem _ hc))
        fun c hc => hncs c (List.mem_cons_of_mem _ hc))
      simp [VNode.isElement] at ho
  | case3 s os t ns ih =>
      simp only [childrenSameSlots, Bool.and_eq_true, decide_eq_true_eq] at h
      refine AllComparable.cons (fun cs o ho => ?_) (ih h.2
        (fun c hc => hocs c (List.mem_cons_of_mem _ hc))
        fun c hc => hncs c (List.mem_cons_of_mem _ hc))
      simp [VNode.isElement] at ho
  | case4 otag oattrs oevents ocs oid os ntag nattrs nevents ncs nid ns ih =>
      simp only [childrenSameSlots, Bool.and_eq_true, decide_eq_true_eq] at h
      refine AllComparable.cons (fun cs o ho => ?_) (ih h.2
        (fun c hc => hocs c (List.mem_cons_of_mem _ hc))
        fun c hc => hncs c (List.mem_cons_of_mem _ hc))
      obtain ⟨-, rfl⟩ := Prod.mk.inj (Option.some.inj ho)
      exact ⟨hocs _ (List.mem_cons_self ..), hncs _ (List.mem_cons_self ..), rfl, rfl, h.1.2⟩
  | case5 => simp_all [childrenSameSlots]

/-! ## A kids patch -/

theorem find?_eraseP_of_ne {a b : SkyID} (h : a ≠ b) (ds : List DNode) :
    (ds.eraseP fun d => d.skyID = some a).find? (fun d => d.skyID = some b) =
      ds.find? fun d => d.skyID = some b := by
  induction ds with
  | nil => rfl
  | cons d ds ih =>
      by_cases ha : d.skyID = some a
      · have hb : ¬ d.skyID = some b := by
          rw [ha]
          exact fun heq => h (Option.some.inj heq)
        rw [List.eraseP_cons_of_pos (by simpa using ha), List.find?_cons_of_neg (by simpa using hb)]
      · rw [List.eraseP_cons_of_neg (by simpa using ha), List.find?_cons, List.find?_cons, ih]

theorem Aligned.tail {ocs ncs : List (VNode Msg)} {c : VNode Msg} {x : Option ℕ}
    {m : List (Option ℕ)} (h : Aligned ocs (c :: ncs) (x :: m)) : Aligned ocs ncs m where
  length := Nat.succ.inj h.length
  fits i j hj := by
    obtain ⟨hold, hnew⟩ := h.fits (i + 1) j hj
    exact ⟨hold, hnew⟩
  inj i i' j hi hi' := Nat.succ.inj (h.inj (i + 1) (i' + 1) j hi hi')

theorem skyID_mem_ids {n : VNode Msg} (h : n.isElement = true) : n.skyID ∈ n.ids := by
  cases n with
  | text s => cases h
  | raw s => cases h
  | element => exact List.mem_cons_self ..

theorem distinct_of_nodup {cs : List (VNode Msg)} (h : (idsAll cs).Nodup) : Distinct cs := by
  rw [idsAll_eq, List.nodup_flatMap] at h
  have hpair := List.pairwise_iff_getElem.mp h.2
  have hlt : ∀ (i i' : ℕ) c c', cs[i]? = some c → cs[i']? = some c' → c.isElement = true →
      c'.isElement = true → c.skyID = c'.skyID → ¬ i < i' := by
    intro i i' c c' hc hc' helem helem' hid hii
    obtain ⟨hi, rfl⟩ := List.getElem?_eq_some_iff.mp hc
    obtain ⟨hi', rfl⟩ := List.getElem?_eq_some_iff.mp hc'
    have hmem' := skyID_mem_ids helem'
    rw [← hid] at hmem'
    exact hpair i i' hi hi' hii (skyID_mem_ids helem) hmem'
  intro i i' c c' hc hc' helem helem' hid
  rcases lt_trichotomy i i' with hii | rfl | hii
  · exact (hlt i i' c c' hc hc' helem helem' hid hii).elim
  · rfl
  · exact (hlt i' i c' c hc' hc helem' helem hid.symm hii).elim

theorem find?_skyID_eq_none {id : SkyID} {ds : List DNode} (h : id ∉ domIds ds) :
    ds.find? (fun d => d.skyID = some id) = none := by
  rw [List.find?_eq_none]
  intro d hd hid
  rw [decide_eq_true_iff] at hid
  refine h ?_
  induction ds with
  | nil => cases hd
  | cons e ds ih =>
      rw [domIds]
      rcases List.mem_cons.mp hd with rfl | hd
      · refine List.mem_append_left _ ?_
        cases d with
        | text s => cases hid
        | value s => cases hid
        | element tag skyID kids =>
            rw [DNode.skyID] at hid
            rw [DNode.ids, hid]
            exact List.mem_cons_self ..
      · refine List.mem_append_right _ (ih (fun hmem => h ?_) hd)
        rw [domIds]
        exact List.mem_append_right _ hmem

/-- An old child of the page, found by its id. -/
def Available (browser : Browser Msg) (kids : List DNode) (o : VNode Msg) : Prop :=
  ∃ d, kids.find? (fun d => d.skyID = some o.skyID) = some d ∧
    canon [d] = canon (domOf browser o)

theorem available_of_canon {kids : List DNode} (hkids : canon kids = canon (domAll browser ocs))
    (hview : ∀ o ∈ ocs, View browser o) (hnodup : (idsAll ocs).Nodup) {o : VNode Msg}
    (ho : o ∈ ocs) (helem : o.isElement = true) : Available browser kids o := by
  obtain ⟨front, back, rfl⟩ := List.append_of_mem ho
  obtain ⟨tag, okids, hdom⟩ := (hview o ho).domOf_eq helem
  rw [domAll_append, domAll, hdom, List.singleton_append, canon_append_element] at hkids
  obtain ⟨left, okids', right, rfl, hleft, hokids, -⟩ := canon_split hkids
  have hfront : domIds (domAll browser front) ⊆ idsAll front :=
    domIds_domAll_subset fun c hc =>
      (hview c (List.mem_append_left _ hc)).addressable.domIds_subset
        (hview c (List.mem_append_left _ hc)).named
  have hfree : o.skyID ∉ domIds left := by
    intro hmem
    rw [domIds_congr hleft] at hmem
    rw [idsAll_append, idsAll] at hnodup
    exact (List.nodup_append.mp hnodup).2.2 _ (hfront hmem) _
      (List.mem_append_left _ (skyID_mem_ids helem)) rfl
  refine ⟨.element tag (some o.skyID) okids', ?_, ?_⟩
  · rw [List.find?_append, find?_skyID_eq_none hfree, Option.none_or]
    exact List.find?_cons_of_pos (decide_eq_true rfl)
  · rw [hdom, canon_element, canon_element, hokids]

/-- The page node of a kept child, renamed when the slot has another id. -/
theorem canon_keptNode {o : VNode Msg} (hview : View browser o) {d : DNode} {q : SkyID}
    (hq : q ≠ []) (hd : canon [d] = canon (domOf browser o)) :
    canon [d.renameSubtree o.skyID q] = canon (domOf browser (renameSubtreeIDs o.skyID q o)) := by
  have hrename := canon_renameSubtreeAll (p := o.skyID) (q := q) [d]
  rw [renameSubtreeAll, renameSubtreeAll] at hrename
  rw [hview.addressable.domOf_renameSubtreeIDs hq hview.named, canon_renameSubtreeAll, hrename, hd]

theorem applyKids_spec {m : List (Option ℕ)} (hal : Aligned ocs ncs m)
    (hocs : ∀ o ∈ ocs, View browser o) (hold : Distinct ocs)
    (hncs : ∀ c ∈ ncs, c.isElement = true → c.skyID ≠ []) {kids : List DNode}
    (havail : ∀ (j : ℕ) o, some j ∈ m → ocs[j]? = some o → Available browser kids o) :
    ∃ kids', applyKids browser kids (List.zipWith (kidOp ocs) m ncs) = some kids' ∧
      canon kids' =
        canon (pendingAll browser (List.zipWith (keptChild cs ocs) m ncs) ncs) := by
  induction m generalizing ncs kids with
  | nil =>
      obtain rfl := List.length_eq_zero_iff.mp hal.length.symm
      exact ⟨[], by rw [List.zipWith_nil_left, applyKids], rfl⟩
  | cons x m ih =>
      cases ncs with
      | nil => cases hal.length
      | cons c ncs =>
          have hncs' : ∀ d ∈ ncs, d.isElement = true → d.skyID ≠ [] :=
            fun d hd => hncs d (List.mem_cons_of_mem _ hd)
          rw [List.zipWith_cons_cons, List.zipWith_cons_cons, pendingAll, List.head?_cons,
            List.tail_cons]
          cases x with
          | none =>
              obtain ⟨rest, hrest, hcanon⟩ := ih hal.tail hncs' fun j o hj =>
                havail j o (List.mem_cons_of_mem _ hj)
              refine ⟨domOf browser c ++ rest, ?_, canon_append_congr rfl hcanon⟩
              simp only [kidOp, Option.bind_none, applyKids, ne_eq, not_true_eq_false, if_false,
                hrest, Option.map_some, Option.getD_some]
          | some j =>
              obtain ⟨⟨o, ho, hoelem⟩, e, he, helem⟩ := hal.fits 0 j rfl
              obtain rfl := Option.some.inj he
              have hview := hocs o (List.mem_of_getElem? ho)
              have hkeep := hview.named _ (skyID_mem_ids hoelem)
              have hid := hncs c (List.mem_cons_self ..) helem
              obtain ⟨d, hfind, hd⟩ := havail j o (List.mem_cons_self ..) ho
              have hrest : ∀ (j' : ℕ) o', some j' ∈ m → ocs[j']? = some o' →
                  Available browser (kids.eraseP fun d => d.skyID = some o.skyID) o' := by
                intro j' o' hj' ho'
                obtain ⟨d', hfind', hd'⟩ := havail j' o' (List.mem_cons_of_mem _ hj') ho'
                refine ⟨d', ?_, hd'⟩
                rw [find?_eraseP_of_ne, hfind']
                intro heq
                obtain ⟨i, hi⟩ := List.getElem?_of_mem hj'
                obtain ⟨⟨o'', ho'', helem''⟩, -⟩ := hal.fits (i + 1) j' hi
                obtain rfl := Option.some.inj (ho'.symm.trans ho'')
                obtain rfl := hold j j' o o' ho ho' hoelem helem'' heq
                cases hal.inj 0 (i + 1) j rfl hi
              obtain ⟨rest, happly, hcanon⟩ := ih hal.tail hncs' hrest
              rw [kidOp, keptChild, Option.bind_some, ho, applyKids, if_pos hkeep, hfind,
                Option.bind_some, happly, Option.map_some]
              refine ⟨_, rfl, ?_⟩
              rw [← List.singleton_append]
              refine canon_append_congr ?_ hcanon
              by_cases hsame : o.skyID = c.skyID
              · simpa [hsame] using hd
              · have hne : ¬ c.skyID = o.skyID := fun h => hsame h.symm
                simpa [hsame, hne, hid] using canon_keptNode hview hid hd

theorem rename_self (p q : SkyID) : DottedPath.rename '.' p q p = q := by
  rw [DottedPath.rename, if_pos rfl]

theorem allComparable_of_aligned {m : List (Option ℕ)} (hal : Aligned ocs ncs m)
    (hocs : ∀ o ∈ ocs, View browser o) (hncs : ∀ c ∈ ncs, View browser c) :
    AllComparable browser (List.zipWith (keptChild cs ocs) m ncs) ncs := by
  intro i cs' o' c hkept hc
  rw [List.getElem?_zipWith, hc] at hkept
  cases hm : m[i]? with
  | none =>
      rw [hm] at hkept
      cases hkept
  | some x =>
      cases x with
      | none =>
          rw [hm] at hkept
          cases hkept
      | some j =>
          obtain ⟨⟨o, ho, hoelem⟩, d, hd, hcelem⟩ := hal.fits i j hm
          obtain rfl := Option.some.inj (hc.symm.trans hd)
          have hview := hocs o (List.mem_of_getElem? ho)
          have hcview := hncs c (List.mem_of_getElem? hc)
          have hid := hcview.named _ (skyID_mem_ids hcelem)
          rw [hm] at hkept
          simp only [keptChild, Option.bind_some, ho, Option.map_some, Option.join_some] at hkept
          split_ifs at hkept with hsame
          · obtain ⟨-, rfl⟩ := Prod.mk.inj (Option.some.inj hkept)
            refine ⟨hview.renameSubtreeIDs hid, hcview, ?_, hcelem, ?_⟩
            · rw [isElement_renameSubtreeIDs, hoelem]
            · cases o with
              | text s => cases hoelem
              | raw s => cases hoelem
              | element => exact rename_self _ _
          · obtain ⟨-, rfl⟩ := Prod.mk.inj (Option.some.inj hkept)
            exact ⟨hview, hcview, hoelem, hcelem, not_not.mp hsame⟩

end Sky.Live
