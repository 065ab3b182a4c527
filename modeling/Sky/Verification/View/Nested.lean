import Mathlib
import Sky.Model.Diff
import Sky.Verification.View.Unique

/-! # Ids follow the tree

The ids below an element lie within its own id, and a renamed subtree keeps this. -/

namespace Sky.Live

open Sky.Library DottedPath

variable {Msg : Type*} {spec : StyleMarkerSpec}

/-- The ids below every element of the tree lie within the id of that element. -/
inductive Nested : VNode Msg → Prop where
  | text (s) : Nested (.text s)
  | raw (s) : Nested (.raw s)
  | element {tag attrs events children skyID} (within : ∀ x ∈ idsAll children, Within '.' skyID x)
      (nested : ∀ c ∈ children, Nested c) : Nested (.element tag attrs events children skyID)

/-! ## Stamping -/

theorem Nested.markOption {n : VNode Msg} (h : Nested n) (sv : String) :
    Nested (markOption sv n) := by
  cases h with
  | text s => exact .text s
  | raw s => exact .raw s
  | element hwithin hnested =>
      simp only [Live.markOption]
      split_ifs <;> exact .element hwithin hnested

theorem Nested.of_mem_markSelectedOptions {attrs : Attrs} {cs : List (VNode Msg)}
    (h : ∀ c ∈ cs, Nested c) : ∀ c ∈ markSelectedOptions attrs cs, Nested c := by
  intro c hc
  rw [markSelectedOptions] at hc
  split_ifs at hc
  · exact h c hc
  · obtain ⟨d, hd, rfl⟩ := List.mem_map.mp hc
    exact (h d hd).markOption _

theorem of_mem_assignChildren {path : SkyID} {names : List (List Char)} {i : ℕ} {c : VNode Msg}
    {cs : List (VNode Msg)} (h : c ∈ assignChildren path names i cs) :
    ∃ d ∈ cs, ∃ p, c = assignSkyIDs p d := by
  induction cs generalizing i with
  | nil => cases h
  | cons d cs ih =>
      rcases List.mem_cons.mp h with rfl | hc
      · exact ⟨d, List.mem_cons_self .., _, rfl⟩
      · obtain ⟨e, he, p, rfl⟩ := ih hc
        exact ⟨e, List.mem_cons_of_mem _ he, p, rfl⟩

theorem nested_assignSkyIDs {n : VNode Msg} (hclean : n.Clean) (path : SkyID) :
    Nested (assignSkyIDs path n) := by
  induction n using VNode.induct generalizing path with
  | text s => exact .text s
  | raw s => exact .raw s
  | element tag attrs events children skyID ih =>
      have hstamped := stamped_assignSkyIDs hclean path
      have hids := ids_assignSkyIDs_element path tag attrs events children skyID
      have hcs : ∀ c ∈ assignChildren path (keyedNames children) 0 children, Nested c := by
        intro c hc
        obtain ⟨d, hd, p, rfl⟩ := of_mem_assignChildren hc
        exact ih d hd (hclean.child hd) p
      rw [assignSkyIDs] at hstamped hids ⊢
      rw [VNode.ids] at hids hstamped
      refine .element (fun x hx => ?_) ?_
      · obtain ⟨w, hw, hxw, -⟩ := hstamped.tails x (List.mem_cons_of_mem _ hx)
        exact ⟨w, hw, hxw⟩
      · split_ifs
        · exact Nested.of_mem_markSelectedOptions hcs
        · exact hcs

/-! ## Style passes -/

theorem Injected.within {ids ids' : List SkyID} {p : SkyID} (h : Injected spec ids ids')
    (hids : ∀ x ∈ ids, Within '.' p x) : ∀ x ∈ ids', Within '.' p x := by
  obtain ⟨S, hS, hperm⟩ := h
  intro x hx
  rcases List.mem_append.mp (hperm.subset hx) with hx | hx
  · exact hids x hx
  · obtain ⟨y, hy, rfl⟩ := List.mem_map.mp hx
    exact (hids y (hS.subset hy)).trans (Within.of_cons '.' y _)

theorem nested_styleNode (owner : SkyID) (styleText : String) :
    Nested (styleNode spec owner styleText : VNode Msg) := by
  refine .element ?_ ?_
  · intro x hx
    cases hx
  · intro c hc
    obtain rfl := List.mem_singleton.mp hc
    exact .raw styleText

theorem Nested.hoist {n : VNode Msg} (h : Nested n) : ∀ c ∈ hoist spec n, Nested c := by
  cases h with
  | text s => simpa [Live.hoist] using Nested.text s
  | raw s => simpa [Live.hoist] using Nested.raw s
  | element hwithin hnested =>
      intro c hc
      rw [Live.hoist] at hc
      split_ifs at hc
      · obtain rfl := List.mem_singleton.mp hc
        exact .element hwithin hnested
      · rcases List.mem_cons.mp hc with rfl | hc
        · exact .element hwithin hnested
        · obtain rfl := List.mem_singleton.mp hc
          exact nested_styleNode _ _
      · obtain rfl := List.mem_singleton.mp hc
        exact .element hwithin hnested

theorem nested_walk {cs : List (VNode Msg)} (h : ∀ c ∈ cs, Nested (injectStyleMarker spec c)) :
    ∀ c ∈ walkChildrenWithVoidSiblingHoist spec cs, Nested c := by
  induction cs with
  | nil => exact nofun
  | cons d cs ih =>
      intro c hc
      rw [walkChildrenWithVoidSiblingHoist] at hc
      rcases List.mem_append.mp hc with hc | hc
      · exact (h d (List.mem_cons_self ..)).hoist c hc
      · exact ih (fun e he => h e (List.mem_cons_of_mem _ he)) c hc

theorem Nested.injectStyleMarker {n : VNode Msg} (h : Nested n) :
    Nested (injectStyleMarker spec n) := by
  induction h with
  | text s => exact .text s
  | raw s => exact .raw s
  | @element tag attrs events children skyID hwithin hnested ih =>
      have hwalk := nested_walk ih
      have hids : ∀ x ∈ idsAll (walkChildrenWithVoidSiblingHoist spec children),
          Within '.' skyID x :=
        (injected_walk fun c _ => injected_hoist_injectStyleMarker c).within hwithin
      rw [Live.injectStyleMarker]
      split_ifs
      · exact .element hids hwalk
      · rw [applyMarkerAsFirstChild]
        split_ifs
        · exact .element hids hwalk
        · exact .element hids hwalk
        · refine .element (fun x hx => ?_) fun c hc => ?_
          · rcases List.mem_cons.mp hx with rfl | hx
            · exact Within.of_cons '.' skyID _
            · exact hids x hx
          · rcases List.mem_cons.mp hc with rfl | hc
            · exact nested_styleNode _ _
            · exact hwalk c hc

theorem applyRadioGroupNamesAll_eq (group : String) (cs : List (VNode Msg)) :
    applyRadioGroupNamesAll group cs = cs.map (applyRadioGroupNames group) := by
  induction cs with
  | nil => rfl
  | cons c cs ih => rw [applyRadioGroupNamesAll, ih, List.map_cons]

theorem Nested.applyRadioGroupNames {n : VNode Msg} (h : Nested n) (group : String) :
    Nested (applyRadioGroupNames group n) := by
  induction h generalizing group with
  | text s => exact .text s
  | raw s => exact .raw s
  | element hwithin hnested ih =>
      rw [Live.applyRadioGroupNames]
      refine .element (fun x hx => hwithin x ?_) fun c hc => ?_
      · rwa [idsAll_applyRadioGroupNamesAll] at hx
      · rw [applyRadioGroupNamesAll_eq] at hc
        obtain ⟨d, hd, rfl⟩ := List.mem_map.mp hc
        exact ih d hd _

theorem Nested.passes {present : ℕ} (passes : List StyleMarkerPass) {n : VNode Msg}
    (h : Nested n) : Nested (passes.foldl
      (fun n p => if present &&& p.bit ≠ 0 then Live.injectStyleMarker p.spec n else n) n) := by
  induction passes generalizing n with
  | nil => exact h
  | cons p passes ih =>
      rw [List.foldl_cons]
      refine ih ?_
      split_ifs
      · exact h.injectStyleMarker
      · exact h

theorem nested_view (css : StyleCSS) {root : VNode Msg} (hclean : root.Clean) (path : SkyID) :
    Nested (applyStyleInjections css (assignSkyIDs path root)) :=
  .passes _ ((nested_assignSkyIDs hclean path).applyRadioGroupNames "")

/-! ## Renaming -/

section Rename

variable {p q : SkyID}

theorem renameAllIDs_eq (p q : SkyID) (cs : List (VNode Msg)) :
    renameAllIDs p q cs = cs.map (renameSubtreeIDs p q) := by
  induction cs with
  | nil => rfl
  | cons c cs ih => rw [renameAllIDs, ih, List.map_cons]

theorem ids_renameSubtreeIDs (p q : SkyID) (n : VNode Msg) :
    (renameSubtreeIDs p q n).ids = n.ids.map (DottedPath.rename '.' p q) := by
  induction n using VNode.induct with
  | text s => rfl
  | raw s => rfl
  | element tag attrs events children skyID ih =>
      rw [renameSubtreeIDs, VNode.ids, VNode.ids, List.map_cons, renameAllIDs_eq, idsAll_eq,
        idsAll_eq, List.flatMap_map, List.map_flatMap]
      congr 1
      exact List.flatMap_congr ih

theorem Nested.renameSubtreeIDs {n : VNode Msg} (h : Nested n)
    (hp : ∀ x ∈ n.ids, Within '.' p x) : Nested (renameSubtreeIDs p q n) := by
  induction h with
  | text s => exact .text s
  | raw s => exact .raw s
  | @element tag attrs events children skyID hwithin hnested ih =>
      have hself := hp skyID (List.mem_cons_self ..)
      rw [Live.renameSubtreeIDs, renameAllIDs_eq]
      refine .element (fun x hx => ?_) fun c hc => ?_
      · rw [idsAll_eq, List.flatMap_map] at hx
        obtain ⟨c, hc, hx⟩ := List.mem_flatMap.mp hx
        rw [ids_renameSubtreeIDs] at hx
        obtain ⟨y, hy, rfl⟩ := List.mem_map.mp hx
        refine hself.rename (hwithin y ?_)
        rw [idsAll_eq]
        exact List.mem_flatMap.mpr ⟨c, hc, hy⟩
      · obtain ⟨d, hd, rfl⟩ := List.mem_map.mp hc
        refine ih d hd fun x hx => hp x (List.mem_cons_of_mem _ ?_)
        rw [idsAll_eq]
        exact List.mem_flatMap.mpr ⟨d, hd, hx⟩

end Rename

end Sky.Live
