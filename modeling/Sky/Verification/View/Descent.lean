import Mathlib
import Sky.Verification.View.Addressable

/-! # The descent

The patches below the children of an element, slot after slot, and the patch for the
attributes of one element. -/

namespace Sky.Live

open Sky.Library DottedPath

variable {Msg : Type*} {browser : Browser Msg} {names : EventNames Msg} {cs : ClientState}

/-! ## Attribute patches keep the sky-id -/

theorem lookup_foldl {β : Type*} {l : List β} {step : Attrs → β → Attrs} {k : String}
    (hstep : ∀ out, ∀ x ∈ l, out.lookup k = none → (step out x).lookup k = none) {out : Attrs}
    (h : out.lookup k = none) : (l.foldl step out).lookup k = none := by
  induction l generalizing out with
  | nil => exact h
  | cons x l ih =>
      exact ih (fun out y hy => hstep out y (List.mem_cons_of_mem _ hy))
        (hstep out x (List.mem_cons_self ..) h)

theorem lookup_insert_none {out : Attrs} {k k' v : String} (hk : k ≠ k')
    (h : out.lookup k = none) : (out.insert k' v).lookup k = none := by
  rwa [AList.lookup_insert_ne hk]

theorem ne_of_mem_keys {β : Type*} {m : AList fun _ : String => β} {k k' : String}
    (h : m.lookup k = none) (hk : k' ∈ m.keys) : k ≠ k' := by
  rintro rfl
  exact AList.lookup_eq_none.mp h hk

theorem ne_of_mem_entries {β : Type*} {m : AList fun _ : String => β} {k : String}
    {e : Sigma fun _ : String => β} (h : m.lookup k = none) (he : e ∈ m.entries) : k ≠ e.1 :=
  ne_of_mem_keys h (List.mem_map_of_mem he)

theorem attrChanges_skyID {client : Option String} {old new : Attrs}
    (hold : old.lookup "sky-id" = none) (hnew : new.lookup "sky-id" = none) :
    (attrChanges client old new).lookup "sky-id" = none := by
  rw [attrChanges]
  refine lookup_foldl (fun out k hk hout => ?_) (lookup_foldl (fun out e he hout => ?_) rfl)
  · split_ifs
    · exact hout
    · exact lookup_insert_none (ne_of_mem_keys hold hk) hout
  · split_ifs
    · exact hout
    · exact hout
    · exact lookup_insert_none (ne_of_mem_entries hnew he) hout

theorem eventAttrName_ne {ev : String} (h : "id" ≠ ev) : "sky-id" ≠ eventAttrName ev := by
  intro heq
  have hlist := congrArg String.toList heq
  rw [eventAttrName] at hlist
  split_ifs at hlist
  · rw [String.toList_append] at hlist
    exact absurd (List.cons.inj hlist).1 (by decide)
  · rw [String.toList_append, show "sky-id".toList = "sky-".toList ++ "id".toList by decide] at hlist
    exact h (String.toList_injective (List.append_cancel_left hlist))

theorem eventChanges_skyID {old new : AList fun _ : String => Msg} (hold : old.lookup "id" = none)
    (hnew : new.lookup "id" = none) :
    (eventChanges names old new).lookup "sky-id" = none := by
  rw [eventChanges]
  refine lookup_foldl (fun out ev hev hout => ?_) (lookup_foldl (fun out e he hout => ?_) rfl)
  · split_ifs
    · exact hout
    · exact lookup_insert_none (eventAttrName_ne (ne_of_mem_keys hold hev)) hout
  · split_ifs
    · exact hout
    · exact lookup_insert_none (eventAttrName_ne (ne_of_mem_entries hnew he)) hout

section Element

variable {tag : String} {attrs oattrs : Attrs} {events oevents : AList fun _ : String => Msg}
  {children ocs : List (VNode Msg)} {skyID : SkyID}

theorem elementChanges_skyID {client : Option String} {oid : SkyID}
    (hold : Plain tag oattrs oevents ocs) (hnew : Plain tag attrs events children) :
    (elementChanges names client oattrs attrs oevents events oid skyID).lookup "sky-id" = none := by
  have hevents : (eventChanges names oevents events).lookup "sky-id" = none :=
    eventChanges_skyID hold.event hnew.event
  have hboth : ((eventChanges names oevents events).entries.foldl
      (fun (changes : Attrs) e => changes.insert e.1 e.2)
      (attrChanges client oattrs attrs)).lookup "sky-id" = none :=
    lookup_foldl (fun out e he hout => lookup_insert_none (ne_of_mem_entries hevents he) hout)
      (attrChanges_skyID hold.attr hnew.attr)
  rw [elementChanges]
  split_ifs
  · exact lookup_insert_none (by decide) hboth
  · exact hboth

theorem applyPatches_attrPatch {client : Option String} (hold : Plain tag oattrs oevents ocs)
    (hnew : Plain tag attrs events children) (kids : List DNode) :
    applyPatches browser [.element tag (some skyID) kids]
      (attrPatch (elementChanges names client oattrs attrs oevents events skyID skyID) skyID :
        List (Patch Msg)) = some [.element tag (some skyID) kids] := by
  rw [attrPatch]
  split_ifs
  · refine applyPatches_root rfl ?_
    simp only [Patch.edit, Option.map_none, Option.getD_none, Option.map_some, Option.getD_some,
      applyAttrs, elementChanges_skyID hold hnew]
  · rfl

end Element

/-! ## The descent -/

/-- What the page shows in the slots of the new children before the descent. -/
def pendingAll (browser : Browser Msg) (olds : List (Option (ClientState × VNode Msg))) :
    List (VNode Msg) → List DNode
  | [] => []
  | c :: ncs =>
      domOf browser (olds.head?.join.elim c Prod.snd) ++ pendingAll browser olds.tail ncs

/-- Two elements that can be compared: both are views, under one id. -/
structure Comparable (browser : Browser Msg) (old new : VNode Msg) : Prop where
  oldView : View browser old
  newView : View browser new
  oldElement : old.isElement = true
  newElement : new.isElement = true
  skyID : old.skyID = new.skyID

/-- Every old child that a slot is compared with can be compared with the new one. -/
def AllComparable (browser : Browser Msg) (olds : List (Option (ClientState × VNode Msg)))
    (ncs : List (VNode Msg)) : Prop :=
  ∀ (i : ℕ) cs o c, (olds[i]?).join = some (cs, o) → ncs[i]? = some c → Comparable browser o c

/-- What the patches for one node do: their targets are ids of the new node, and they
turn every page that shows the old node into one that shows the new node. -/
structure Converges (browser : Browser Msg) (old new : VNode Msg) (ps : List (Patch Msg)) : Prop where
  targets : ∀ p ∈ ps, p.id ∈ new.ids
  reaches : ∀ doc, canon doc = canon (domOf browser old) →
    ∃ doc', applyPatches browser doc ps = some doc' ∧ canon doc' = canon (domOf browser new)

theorem View.domOf_eq {n : VNode Msg} (h : View browser n) (helem : n.isElement = true) :
    ∃ tag kids, domOf browser n = [.element tag (some n.skyID) kids] := by
  cases n with
  | text s => cases helem
  | raw s => cases helem
  | element tag attrs events children skyID =>
      cases h.addressable with
      | element hplain _ =>
          exact ⟨tag, _, domOf_element hplain (h.named skyID (List.mem_cons_self ..))⟩

theorem diffAll_of_none {olds : List (Option (ClientState × VNode Msg))} (h : ∀ x ∈ olds, x = none)
    (ncs : List (VNode Msg)) : diffAll names olds ncs = [] := by
  induction ncs generalizing olds with
  | nil => rfl
  | cons c ncs ih =>
      have hhead : olds.head?.join = none := by
        cases olds with
        | nil => rfl
        | cons x olds => exact h x (List.mem_cons_self ..)
      rw [diffAll, hhead, ih fun x hx => h x (List.mem_of_mem_tail hx)]
      rfl

theorem Converges.of_root {o c : VNode Msg} {ps : List (Patch Msg)} {tag : String}
    {okids : List DNode} (hdom : domOf browser o = [.element tag (some o.skyID) okids])
    (htargets : ∀ p ∈ ps, p.id ∈ c.ids)
    (h : ∀ kids, canon kids = canon okids → ∃ doc',
      applyPatches browser [.element tag (some o.skyID) kids] ps = some doc' ∧
        canon doc' = canon (domOf browser c)) : Converges browser o c ps where
  targets := htargets
  reaches doc hdoc := by
    rw [hdom, ← List.nil_append [DNode.element ..], canon_append_element] at hdoc
    obtain ⟨left, kids, right, rfl, hleft, hkids, hright⟩ := canon_split hdoc
    obtain ⟨mid, hmid, hcanon⟩ := h kids hkids
    have hfree : ∀ p ∈ ps, p.id ∉ domIds left := by
      intro p _ hmem
      rw [domIds_congr hleft] at hmem
      cases hmem
    have happend := canon_append_congr hleft (canon_append_congr hcanon hright)
    rw [List.append_nil] at happend
    exact ⟨left ++ (mid ++ right), applyPatches_local hmid hfree right, happend⟩

/-- The patches for one node among others, behind nodes that already show new children. -/
theorem Converges.at_slot {o c : VNode Msg} {ps : List (Patch Msg)} (h : Converges browser o c ps)
    (hview : View browser o) (helem : o.isElement = true) {done rest kids : List DNode}
    (hdone : ∀ x ∈ domIds done, x ∉ c.ids)
    (hkids : canon kids = canon (done ++ (domOf browser o ++ rest))) :
    ∃ kids', applyPatches browser kids ps = some kids' ∧
      canon kids' = canon (done ++ (domOf browser c ++ rest)) := by
  obtain ⟨tag, okids, hdom⟩ := hview.domOf_eq helem
  rw [hdom, List.singleton_append, canon_append_element] at hkids
  obtain ⟨left, ckids, right, rfl, hleft, hckids, hright⟩ := canon_split hkids
  obtain ⟨mid, hmid, hcanon⟩ := h.reaches [.element tag (some o.skyID) ckids] (by
    rw [hdom, canon_element, canon_element, hckids])
  have hfree : ∀ p ∈ ps, p.id ∉ domIds left := by
    intro p hp hmem
    rw [domIds_congr hleft] at hmem
    exact hdone p.id hmem (h.targets p hp)
  exact ⟨left ++ (mid ++ right), applyPatches_local hmid hfree right,
    canon_append_congr hleft (canon_append_congr hcanon hright)⟩

/-- The descent, slot after slot: what is in front already shows the new children. -/
theorem diffAll_spec {olds : List (Option (ClientState × VNode Msg))} {ncs : List (VNode Msg)}
    (ih : ∀ c ∈ ncs, ∀ cs o, Comparable browser o c → Converges browser o c (diffNodes names cs o c))
    (hcomp : AllComparable browser olds ncs) (haddr : ∀ c ∈ ncs, Addressable browser c)
    (hnodup : (idsAll ncs).Nodup) (hnamed : ∀ x ∈ idsAll ncs, x ≠ []) {done kids : List DNode}
    (hdone : ∀ x ∈ domIds done, x ∉ idsAll ncs)
    (hkids : canon kids = canon (done ++ pendingAll browser olds ncs)) :
    (∀ p ∈ diffAll names olds ncs, p.id ∈ idsAll ncs) ∧
      ∃ kids', applyPatches browser kids (diffAll names olds ncs) = some kids' ∧
        canon kids' = canon (done ++ domAll browser ncs) := by
  induction ncs generalizing olds done kids with
  | nil => exact ⟨nofun, kids, rfl, hkids⟩
  | cons c ncs ihs =>
      rw [idsAll] at hnodup hnamed hdone
      obtain ⟨-, hnodup', hdisj⟩ := List.nodup_append.mp hnodup
      have hhead : (∀ p ∈ olds.head?.join.elim [] fun co => diffNodes names co.1 co.2 c,
            p.id ∈ c.ids) ∧
          ∃ kids', applyPatches browser kids
              (olds.head?.join.elim [] fun co => diffNodes names co.1 co.2 c) = some kids' ∧
            canon kids' =
              canon (done ++ (domOf browser c ++ pendingAll browser olds.tail ncs)) := by
        rw [pendingAll] at hkids
        cases hhead : olds.head?.join with
        | none =>
            rw [hhead] at hkids
            exact ⟨nofun, kids, rfl, hkids⟩
        | some co =>
            obtain ⟨cs, o⟩ := co
            rw [hhead] at hkids
            have hc := hcomp 0 cs o c (by rwa [← List.head?_eq_getElem?]) rfl
            have hconv := ih c (List.mem_cons_self ..) cs o hc
            refine ⟨hconv.targets, hconv.at_slot hc.oldView hc.oldElement (fun x hx hmem => ?_) hkids⟩
            exact hdone x hx (List.mem_append_left _ hmem)
      obtain ⟨htargets, kids₁, hkids₁, hcanon₁⟩ := hhead
      rw [← List.append_assoc] at hcanon₁
      have hsub := (haddr c (List.mem_cons_self ..)).domIds_subset
        fun y hy => hnamed y (List.mem_append_left _ hy)
      obtain ⟨htargets', kids₂, hkids₂, hcanon₂⟩ := ihs
        (fun d hd => ih d (List.mem_cons_of_mem _ hd))
        (fun i cs o d ho hd => hcomp (i + 1) cs o d (by rwa [List.getElem?_tail] at ho) hd)
        (fun d hd => haddr d (List.mem_cons_of_mem _ hd)) hnodup'
        (fun x hx => hnamed x (List.mem_append_right _ hx)) (fun x hx hmem => by
          rw [domIds_append] at hx
          rcases List.mem_append.mp hx with hx | hx
          · exact hdone x hx (List.mem_append_right _ hmem)
          · exact hdisj x (hsub hx) x hmem rfl) hcanon₁
      rw [diffAll]
      refine ⟨fun p hp => ?_, kids₂, ?_, ?_⟩
      · rw [idsAll]
        rcases List.mem_append.mp hp with hp | hp
        · exact List.mem_append_left _ (htargets p hp)
        · exact List.mem_append_right _ (htargets' p hp)
      · rw [applyPatches_append, hkids₁]
        exact hkids₂
      · rw [hcanon₂, domAll, List.append_assoc]

end Sky.Live
