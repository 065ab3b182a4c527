import Mathlib
import Sky.Verification.View.Stamp

/-! # Sky-ids are unique

A style pass adds, for some elements, the id of the element with the name of the
pass behind it. No id has such an end before the pass runs. -/

namespace Sky.Live

open Sky.Library DottedPath

variable {Msg : Type*} {spec : StyleMarkerSpec}

/-! ## One pass -/

/-- What a pass does to the ids: it adds the ids of the style elements of some of
the elements. -/
def Injected (spec : StyleMarkerSpec) (ids ids' : List SkyID) : Prop :=
  ∃ S : List SkyID, S.Sublist ids ∧ ids'.Perm (ids ++ S.map (injectedStyleID · spec))

namespace Injected

variable {ids ids' jds jds' : List SkyID}

theorem refl (ids : List SkyID) : Injected spec ids ids :=
  ⟨[], List.nil_sublist _, by rw [List.map_nil, List.append_nil]⟩

theorem append (h : Injected spec ids ids') (k : Injected spec jds jds') :
    Injected spec (ids ++ jds) (ids' ++ jds') := by
  obtain ⟨S, hS, hids⟩ := h
  obtain ⟨T, hT, hjds⟩ := k
  refine ⟨S ++ T, hS.append hT, (hids.append hjds).trans ?_⟩
  rw [List.map_append, List.append_assoc, List.append_assoc]
  refine List.Perm.append_left ids ?_
  rw [← List.append_assoc, ← List.append_assoc]
  exact List.perm_append_comm.append_right _

theorem cons (h : Injected spec ids ids') (x : SkyID) : Injected spec (x :: ids) (x :: ids') :=
  (refl [x]).append h

/-- The element itself gets a style. -/
theorem own (h : Injected spec ids ids') (x : SkyID) :
    Injected spec (x :: ids) (x :: injectedStyleID x spec :: ids') := by
  have hown : Injected spec [x] [x, injectedStyleID x spec] :=
    ⟨[x], List.Sublist.refl _, List.Perm.refl _⟩
  exact hown.append h

theorem perm (h : Injected spec ids ids') (hperm : jds.Perm ids') : Injected spec ids jds := by
  obtain ⟨S, hS, hids⟩ := h
  exact ⟨S, hS, hperm.trans hids⟩

end Injected

@[simp] theorem ids_styleNode (owner : SkyID) (styleText : String) :
    (styleNode spec owner styleText : VNode Msg).ids = [injectedStyleID owner spec] := rfl

theorem injected_walk {cs : List (VNode Msg)}
    (h : ∀ c ∈ cs, Injected spec c.ids (idsAll (hoist spec (injectStyleMarker spec c)))) :
    Injected spec (idsAll cs) (idsAll (walkChildrenWithVoidSiblingHoist spec cs)) := by
  induction cs with
  | nil => exact .refl _
  | cons c cs ih =>
      rw [walkChildrenWithVoidSiblingHoist, idsAll, idsAll_append]
      exact (h c (List.mem_cons_self ..)).append (ih fun d hd => h d (List.mem_cons_of_mem _ hd))

section Element

variable (tag : String) (attrs : Attrs) (events : AList fun _ : String => Msg)
  {children children' : List (VNode Msg)} (skyID : SkyID)

theorem injected_applyMarkerAsFirstChild (h : Injected spec (idsAll children) (idsAll children')) :
    Injected spec (skyID :: idsAll children)
      (skyID :: idsAll ((applyMarkerAsFirstChild spec attrs skyID).2 ++ children')) := by
  rw [applyMarkerAsFirstChild]
  split_ifs
  · exact h.cons skyID
  · exact h.cons skyID
  · exact h.own skyID

theorem injected_hoist (h : Injected spec (idsAll children) (idsAll children')) :
    Injected spec (skyID :: idsAll children)
      (idsAll (hoist spec (.element tag attrs events children' skyID))) := by
  rw [hoist]
  split_ifs
  · simpa only [idsAll, VNode.ids, List.append_nil] using h.cons skyID
  · refine (h.own skyID).perm ?_
    simp only [idsAll, VNode.ids, ids_styleNode, List.append_nil, List.cons_append]
    exact (List.perm_append_singleton _ _).cons _
  · simpa only [idsAll, VNode.ids, List.append_nil] using h.cons skyID

theorem injected_element (h : Injected spec (idsAll children)
      (idsAll (walkChildrenWithVoidSiblingHoist spec children))) :
    Injected spec (skyID :: idsAll children)
        (injectStyleMarker spec (.element tag attrs events children skyID)).ids ∧
      Injected spec (skyID :: idsAll children)
        (idsAll (hoist spec (injectStyleMarker spec (.element tag attrs events children skyID)))) := by
  rw [injectStyleMarker]
  split_ifs with hvoid
  · exact ⟨h.cons skyID, injected_hoist tag attrs events skyID h⟩
  · have hown := injected_applyMarkerAsFirstChild attrs skyID h
    refine ⟨hown, ?_⟩
    rw [hoist, if_neg fun hcond => hvoid hcond.1]
    simpa only [idsAll, VNode.ids, List.append_nil] using hown

end Element

theorem injected_hoist_injectStyleMarker (n : VNode Msg) :
    Injected spec n.ids (idsAll (hoist spec (injectStyleMarker spec n))) := by
  induction n using VNode.induct with
  | text s => exact .refl _
  | raw s => exact .refl _
  | element tag attrs events children skyID ih =>
      exact (injected_element tag attrs events skyID (injected_walk ih)).2

theorem injected_injectStyleMarker (n : VNode Msg) :
    Injected spec n.ids (injectStyleMarker spec n).ids := by
  cases n with
  | text s => exact .refl _
  | raw s => exact .refl _
  | element tag attrs events children skyID =>
      exact (injected_element tag attrs events skyID
        (injected_walk fun c _ => injected_hoist_injectStyleMarker c)).1

/-! ## All passes -/

mutual

theorem ids_applyRadioGroupNames (group : String) :
    ∀ n : VNode Msg, (applyRadioGroupNames group n).ids = n.ids
  | .text _ => rfl
  | .raw _ => rfl
  | .element tag attrs events children skyID => by
      rw [applyRadioGroupNames, VNode.ids, VNode.ids, idsAll_applyRadioGroupNamesAll]

theorem idsAll_applyRadioGroupNamesAll (group : String) :
    ∀ cs : List (VNode Msg), idsAll (applyRadioGroupNamesAll group cs) = idsAll cs
  | [] => rfl
  | c :: cs => by
      rw [applyRadioGroupNamesAll, idsAll, idsAll, ids_applyRadioGroupNames,
        idsAll_applyRadioGroupNamesAll]

end

/-- What a pass puts behind the id of an owner. -/
def passSuffix (spec : StyleMarkerSpec) : List Char := injectedStyleID [] spec

theorem injectedStyleID_eq (owner : SkyID) (spec : StyleMarkerSpec) :
    injectedStyleID owner spec = owner ++ passSuffix spec := rfl

/-- The ids differ, they start with the path, and none ends as those of a pass that
is still to come. -/
structure Unique (path : SkyID) (pending : List StyleMarkerSpec) (ids : List SkyID) : Prop where
  nodup : ids.Nodup
  tails : ∀ x ∈ ids, ∃ w, x = path ++ w ∧ ∀ spec ∈ pending, ¬ passSuffix spec <:+ w

theorem Stamped.unique {path : SkyID} {ids : List SkyID} (h : Stamped path ids)
    (pending : List StyleMarkerSpec) : Unique path pending ids := by
  refine ⟨h.nodup, fun x hx => ?_⟩
  obtain ⟨w, -, hxw, htilde⟩ := h.tails x hx
  refine ⟨w, hxw, fun spec _ hsuffix => htilde (hsuffix.subset ?_)⟩
  simp [passSuffix, injectedStyleID]

/-- No name of a pass is the end of the name of another. -/
def Apart (p q : StyleMarkerSpec) : Prop :=
  ¬ passSuffix p <:+ passSuffix q ∧ ¬ passSuffix q <:+ passSuffix p

theorem Apart.not_suffix {p q : StyleMarkerSpec} (h : Apart p q) (w : List Char) :
    ¬ passSuffix q <:+ w ++ passSuffix p := by
  intro hq
  rcases List.suffix_or_suffix_of_suffix hq (List.suffix_append w (passSuffix p)) with hqp | hpq
  · exact h.2 hqp
  · exact h.1 hpq

theorem Unique.skip {path : SkyID} {pending : List StyleMarkerSpec} {ids : List SkyID}
    (h : Unique path (spec :: pending) ids) : Unique path pending ids := by
  refine ⟨h.nodup, fun x hx => ?_⟩
  obtain ⟨w, hxw, hw⟩ := h.tails x hx
  exact ⟨w, hxw, fun q hq => hw q (List.mem_cons_of_mem _ hq)⟩

theorem Unique.pass {path : SkyID} {pending : List StyleMarkerSpec} {ids ids' : List SkyID}
    (h : Unique path (spec :: pending) ids) (hapart : ∀ q ∈ pending, Apart spec q)
    (hpass : Injected spec ids ids') : Unique path pending ids' := by
  obtain ⟨S, hS, hperm⟩ := hpass
  constructor
  · refine hperm.nodup_iff.mpr (List.nodup_append.mpr ⟨h.nodup, ?_, ?_⟩)
    · exact (h.nodup.sublist hS).map fun x y hxy => List.append_cancel_right hxy
    · rintro y hy _ hys rfl
      obtain ⟨x, hx, rfl⟩ := List.mem_map.mp hys
      obtain ⟨w, hxw, -⟩ := h.tails x (hS.subset hx)
      obtain ⟨v, hv, hsuffix⟩ := h.tails _ hy
      refine hsuffix spec (List.mem_cons_self ..) ⟨w, ?_⟩
      rw [injectedStyleID_eq, hxw, List.append_assoc] at hv
      exact List.append_cancel_left hv
  · intro y hy
    rcases List.mem_append.mp (hperm.subset hy) with hy | hy
    · exact h.skip.tails y hy
    · obtain ⟨x, hx, rfl⟩ := List.mem_map.mp hy
      obtain ⟨w, hxw, -⟩ := h.tails x (hS.subset hx)
      refine ⟨w ++ passSuffix spec, ?_, fun q hq => (hapart q hq).not_suffix w⟩
      rw [injectedStyleID_eq, hxw, List.append_assoc]

theorem Unique.passes {path : SkyID} {present : ℕ} (passes : List StyleMarkerPass)
    (hapart : passes.Pairwise fun p q => Apart p.spec q.spec) {n : VNode Msg}
    (h : Unique path (passes.map StyleMarkerPass.spec) n.ids) :
    Unique path [] (passes.foldl
      (fun n p => if present &&& p.bit ≠ 0 then injectStyleMarker p.spec n else n) n).ids := by
  induction passes generalizing n with
  | nil => exact h
  | cons p passes ih =>
      obtain ⟨hhead, hrest⟩ := List.pairwise_cons.mp hapart
      rw [List.foldl_cons]
      refine ih hrest ?_
      split_ifs
      · refine h.pass (fun q hq => ?_) (injected_injectStyleMarker n)
        obtain ⟨r, hr, rfl⟩ := List.mem_map.mp hq
        exact hhead r hr
      · exact h.skip

theorem passes_apart (css : StyleCSS) :
    (styleMarkerPasses css).Pairwise fun p q => Apart p.spec q.spec := by
  have hmq : passSuffix (mediaQuerySpec css) = ".~mq".toList := by
    simp only [passSuffix, injectedStyleID, mediaQuerySpec]
    decide +kernel
  have hpc : passSuffix (pseudoClassSpec css) = ".~pc".toList := by
    simp only [passSuffix, injectedStyleID, pseudoClassSpec]
    decide +kernel
  have htr : passSuffix (transitionSpec css) = ".~tr".toList := by
    simp only [passSuffix, injectedStyleID, transitionSpec]
    decide +kernel
  have hanim : passSuffix (animationSpec css) = ".~anim".toList := by
    simp only [passSuffix, injectedStyleID, animationSpec]
    decide +kernel
  simp only [styleMarkerPasses, List.pairwise_cons, List.mem_cons, forall_eq_or_imp, Apart, hmq,
    hpc, htr, hanim, List.not_mem_nil, false_imp_iff, implies_true, List.Pairwise.nil, and_true]
  decide +kernel

/-- Every element of a view has a sky-id after the stamping and the style passes,
also the style elements that the passes make, and no two share one. -/
theorem skyIDs_unique (css : StyleCSS) {root : VNode Msg} (htags : root.Clean) {path : SkyID}
    (hpath : path ≠ []) :
    (applyStyleInjections css (assignSkyIDs path root)).ids.Nodup ∧
      ∀ id ∈ (applyStyleInjections css (assignSkyIDs path root)).ids, id ≠ [] := by
  have hstamped := (stamped_assignSkyIDs htags path).unique
    ((styleMarkerPasses css).map StyleMarkerPass.spec)
  rw [← ids_applyRadioGroupNames ""] at hstamped
  have h : Unique path [] (applyStyleInjections css (assignSkyIDs path root)).ids :=
    Unique.passes _ (passes_apart css) hstamped
  refine ⟨h.nodup, fun id hid => ?_⟩
  obtain ⟨w, rfl, -⟩ := h.tails id hid
  simp [hpath]

/-- Two inputs of one name with a hover colour each, and a keyed button. -/
def radioForm : VNode Unit :=
  .element "form" ((∅ : Attrs).insert "data-sky-mq-q" "print") ∅
    [.element "input" (((∅ : Attrs).insert "name" "q").insert "data-sky-pc-rules" "h|color:red") ∅
        [] [],
      .text "or",
      .element "input" (((∅ : Attrs).insert "name" "q").insert "data-sky-pc-rules" "h|color:red") ∅
        [] [],
      .element "button" ((∅ : Attrs).insert "sky-key" "q") ∅ [] []] []

/-- The CSS text is not looked at. -/
def plainCSS : StyleCSS :=
  ⟨fun _ _ => "css", fun _ _ => "css", fun _ _ => "css", fun _ _ => "css"⟩

theorem clean_radioForm : radioForm.Clean := by
  intro tag htag
  have hmem : tag ∈ ["form", "input", "input", "button"] := htag
  simp only [List.mem_cons, List.not_mem_nil, or_false] at hmem
  rcases hmem with rfl | rfl | rfl | rfl <;> simp [CleanTag]

theorem skyIDs_unique_radioForm :
    (applyStyleInjections plainCSS (assignSkyIDs ['r'] radioForm)).ids =
        ["r", "r.~mq", "r.0#input:q", "r.0#input:q.~pc", "r.2#input:q", "r.2#input:q.~pc",
          "r.#button:q"].map String.toList ∧
      (applyStyleInjections plainCSS (assignSkyIDs ['r'] radioForm)).ids.Nodup :=
  ⟨by decide +kernel, (skyIDs_unique plainCSS clean_radioForm (by decide)).1⟩

end Sky.Live
