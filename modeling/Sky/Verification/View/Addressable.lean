import Mathlib
import Sky.Verification.View.Nested
import Sky.Verification.View.Page

/-! # Views whose page has every element under its id

The elements of the page carry the ids of the view, and a subtree that is renamed in
the view is renamed on the page. -/

namespace Sky.Live

open Sky.Library DottedPath

variable {Msg : Type*} {browser : Browser Msg}

/-- An element that the page shows under its own sky-id, with its children. -/
structure Plain (tag : String) (attrs : Attrs) (events : AList fun _ : String => Msg)
    (children : List (VNode Msg)) : Prop where
  wrapper : tag ≠ "!doctype-wrapper"
  attr : attrs.lookup "sky-id" = none
  event : events.lookup "id" = none
  void : isVoidTag tag = true → children = []
  textOnly : isTextOnly tag = true → ∀ c ∈ children, c.isElement = false

/-- Every element is plain, and raw markup brings no sky-id of its own. -/
inductive Addressable (browser : Browser Msg) : VNode Msg → Prop where
  | text (s) : Addressable browser (.text s)
  | raw {s} (noIds : domIds (browser.parseHTML s) = []) : Addressable browser (.raw s)
  | element {tag attrs events children skyID} (plain : Plain tag attrs events children)
      (content : isTextOnly tag = false → ∀ c ∈ children, Addressable browser c) :
      Addressable browser (.element tag attrs events children skyID)

/-! ## The page of a view -/

theorem domAll_eq (browser : Browser Msg) (cs : List (VNode Msg)) :
    domAll browser cs = cs.flatMap (domOf browser) := by
  induction cs with
  | nil => rfl
  | cons c cs ih => rw [domAll, ih, List.flatMap_cons]

theorem domAll_append (browser : Browser Msg) (cs ds : List (VNode Msg)) :
    domAll browser (cs ++ ds) = domAll browser cs ++ domAll browser ds := by
  rw [domAll_eq, domAll_eq, domAll_eq, List.flatMap_append]

section Element

variable {tag : String} {attrs : Attrs} {events : AList fun _ : String => Msg}
  {children : List (VNode Msg)} {skyID : SkyID}

theorem domKids_textOnly (h : isTextOnly tag = true) :
    domKids browser (.element tag attrs events children skyID) =
      children.map fun c => .text (textOf browser c) := by
  rw [domKids, if_pos h]

theorem domKids_of_not_textOnly (h : isTextOnly tag = false) :
    domKids browser (.element tag attrs events children skyID) = domAll browser children := by
  rw [domKids, if_neg (by rw [h]; exact Bool.false_ne_true)]

theorem domOf_element (h : Plain tag attrs events children) (hid : skyID ≠ []) :
    domOf browser (.element tag attrs events children skyID) =
      [.element tag (some skyID)
        (textareaText tag attrs children ++ if isIsland attrs then [] else
          domKids browser (.element tag attrs events children skyID))] := by
  rw [domOf, if_neg h.wrapper, if_neg hid, domKids]
  by_cases hvoid : isVoidTag tag = true
  · obtain rfl := h.void hvoid
    have htag : tag ≠ "textarea" := by
      rintro rfl
      exact absurd hvoid (by decide)
    rw [if_pos hvoid, textareaText, if_neg fun hcond => htag hcond.1]
    split_ifs <;> rfl
  · rw [if_neg hvoid]

theorem domIds_textareaText (tag : String) (attrs : Attrs) (children : List (VNode Msg)) :
    domIds (textareaText tag attrs children) = [] := by
  rw [textareaText]
  split_ifs <;> rfl

theorem canon_textareaText_append (tag : String) (attrs : Attrs) (children : List (VNode Msg))
    (ds : List DNode) : canon (textareaText tag attrs children ++ ds) = canon ds := by
  rw [textareaText]
  split_ifs <;> rfl

theorem domIds_map_text (f : VNode Msg → String) (cs : List (VNode Msg)) :
    domIds (cs.map fun c => .text (f c)) = [] := by
  induction cs with
  | nil => rfl
  | cons c cs ih => rw [List.map_cons, domIds_text, ih]

end Element

theorem domIds_domAll_subset {cs : List (VNode Msg)}
    (h : ∀ c ∈ cs, domIds (domOf browser c) ⊆ c.ids) : domIds (domAll browser cs) ⊆ idsAll cs := by
  induction cs with
  | nil => exact List.Subset.refl _
  | cons c cs ih =>
      rw [domAll, domIds_append, idsAll]
      exact List.append_subset.mpr
        ⟨List.Subset.trans (h c (List.mem_cons_self ..)) (List.subset_append_left _ _),
          List.Subset.trans (ih fun d hd => h d (List.mem_cons_of_mem _ hd))
            (List.subset_append_right _ _)⟩

theorem Addressable.domIds_subset {n : VNode Msg} (h : Addressable browser n)
    (hids : ∀ x ∈ n.ids, x ≠ []) : domIds (domOf browser n) ⊆ n.ids := by
  induction h with
  | text s => exact List.Subset.refl _
  | raw hraw => rw [domOf, hraw]; exact List.nil_subset _
  | @element tag attrs events children skyID hplain _ ih =>
      rw [domOf_element hplain (hids skyID (List.mem_cons_self ..)), VNode.ids, domIds_element,
        domIds_nil, List.append_nil, domIds_append, domIds_textareaText, List.nil_append]
      refine List.cons_subset_cons skyID ?_
      split_ifs
      · exact List.nil_subset _
      · cases htag : isTextOnly tag with
        | true =>
            rw [domKids_textOnly htag, domIds_map_text]
            exact List.nil_subset _
        | false =>
            rw [domKids_of_not_textOnly htag]
            refine domIds_domAll_subset fun c hc => ih htag c hc fun x hx => ?_
            refine hids x (List.mem_cons_of_mem _ ?_)
            rw [idsAll_eq]
            exact List.mem_flatMap.mpr ⟨c, hc, hx⟩

/-! ## Renaming on the page -/

section Rename

variable {p q : SkyID}

theorem renameSubtreeAll_eq (p q : SkyID) (ds : List DNode) :
    renameSubtreeAll p q ds = ds.map (DNode.renameSubtree p q) := by
  induction ds with
  | nil => rfl
  | cons d ds ih => rw [renameSubtreeAll, ih, List.map_cons]

theorem renameSubtreeAll_of_noIds {ds : List DNode} (h : domIds ds = []) :
    renameSubtreeAll p q ds = ds := by
  induction ds using DNode.induct with
  | nil => rfl
  | text s ds ih => rw [renameSubtreeAll, ih h, DNode.renameSubtree]
  | value s ds ih => rw [renameSubtreeAll, ih h, DNode.renameSubtree]
  | element tag skyID kids ds hkids ih =>
      rw [domIds_element, List.append_eq_nil_iff, List.append_eq_nil_iff,
        Option.toList_eq_nil_iff] at h
      rw [renameSubtreeAll, DNode.renameSubtree, hkids h.1.2, ih h.2, h.1.1]
      rfl

theorem renameSubtreeAll_append (xs ys : List DNode) :
    renameSubtreeAll p q (xs ++ ys) = renameSubtreeAll p q xs ++ renameSubtreeAll p q ys := by
  rw [renameSubtreeAll_eq, renameSubtreeAll_eq, renameSubtreeAll_eq, List.map_append]

theorem renameSubtreeAll_addText (s : String) (ds : List DNode) :
    renameSubtreeAll p q (addText s ds) = addText s (renameSubtreeAll p q ds) := by
  by_cases hs : s = ""
  · subst hs
    rw [addText_empty, addText_empty]
  · cases ds with
    | nil => simp [addText, hs, renameSubtreeAll, DNode.renameSubtree]
    | cons d ds => cases d <;> simp [addText, hs, renameSubtreeAll, DNode.renameSubtree]

theorem canon_renameSubtreeAll (ds : List DNode) :
    canon (renameSubtreeAll p q ds) = renameSubtreeAll p q (canon ds) := by
  induction ds using DNode.induct with
  | nil => rfl
  | text s ds ih =>
      rw [renameSubtreeAll, DNode.renameSubtree, canon_text, ih, canon_text,
        renameSubtreeAll_addText]
  | value s ds ih => exact ih
  | element tag skyID kids ds hkids ih =>
      rw [renameSubtreeAll, DNode.renameSubtree, canon_element, hkids, ih, canon_element,
        renameSubtreeAll, DNode.renameSubtree]

theorem isElement_renameSubtreeIDs (p q : SkyID) (n : VNode Msg) :
    (renameSubtreeIDs p q n).isElement = n.isElement := by
  cases n <;> rfl

theorem Plain.rename {tag : String} {attrs : Attrs} {events : AList fun _ : String => Msg}
    {children : List (VNode Msg)} (h : Plain tag attrs events children) :
    Plain tag attrs events (renameAllIDs p q children) where
  wrapper := h.wrapper
  attr := h.attr
  event := h.event
  void hvoid := by rw [h.void hvoid]; rfl
  textOnly htag c hc := by
    rw [renameAllIDs_eq] at hc
    obtain ⟨d, hd, rfl⟩ := List.mem_map.mp hc
    rw [isElement_renameSubtreeIDs]
    exact h.textOnly htag d hd

theorem Addressable.renameSubtreeIDs {n : VNode Msg} (h : Addressable browser n) :
    Addressable browser (renameSubtreeIDs p q n) := by
  induction h with
  | text s => exact .text s
  | raw hraw => exact .raw hraw
  | element hplain _ ih =>
      rw [Live.renameSubtreeIDs]
      refine .element hplain.rename fun htag c hc => ?_
      rw [renameAllIDs_eq] at hc
      obtain ⟨d, hd, rfl⟩ := List.mem_map.mp hc
      exact ih htag d hd

theorem rename_ne_nil {x : SkyID} (hq : q ≠ []) (hx : x ≠ []) :
    DottedPath.rename '.' p q x ≠ [] := by
  rw [DottedPath.rename]
  split_ifs
  · exact hq
  · simp [hq]
  · exact hx

theorem textareaText_rename (tag : String) (attrs : Attrs) (children : List (VNode Msg)) :
    textareaText tag attrs (renameAllIDs p q children) = textareaText tag attrs children := by
  rw [textareaText, textareaText, renameAllIDs_eq, List.isEmpty_map]

/-- Renaming a subtree of the view renames it on the page. -/
theorem Addressable.domOf_renameSubtreeIDs {n : VNode Msg} (h : Addressable browser n)
    (hq : q ≠ []) (hids : ∀ x ∈ n.ids, x ≠ []) :
    domOf browser (Live.renameSubtreeIDs p q n) = renameSubtreeAll p q (domOf browser n) := by
  induction h with
  | text s => rfl
  | raw hraw => rw [Live.renameSubtreeIDs, domOf, renameSubtreeAll_of_noIds hraw]
  | @element tag attrs events children skyID hplain _ ih =>
      have hid := hids skyID (List.mem_cons_self ..)
      have hkids : domKids browser (.element tag attrs events (renameAllIDs p q children)
          (DottedPath.rename '.' p q skyID)) =
          renameSubtreeAll p q (domKids browser (.element tag attrs events children skyID)) := by
        cases htag : isTextOnly tag with
        | true =>
            rw [domKids_textOnly htag, domKids_textOnly htag,
              renameSubtreeAll_of_noIds (domIds_map_text _ _), renameAllIDs_eq, List.map_map]
            refine List.map_congr_left fun c hc => ?_
            have := hplain.textOnly htag c hc
            cases c with
            | text s => rfl
            | raw s => rfl
            | element => cases this
        | false =>
            rw [domKids_of_not_textOnly htag, domKids_of_not_textOnly htag, domAll_eq, domAll_eq,
              renameAllIDs_eq, List.flatMap_map, renameSubtreeAll_eq, List.map_flatMap]
            refine List.flatMap_congr fun c hc => ?_
            rw [ih htag c hc fun x hx => hids x (List.mem_cons_of_mem _ ?_), renameSubtreeAll_eq]
            rw [idsAll_eq]
            exact List.mem_flatMap.mpr ⟨c, hc, hx⟩
      rw [domOf_element hplain hid, Live.renameSubtreeIDs,
        domOf_element hplain.rename (rename_ne_nil hq hid), hkids, textareaText_rename,
        renameSubtreeAll, DNode.renameSubtree, renameSubtreeAll_append,
        renameSubtreeAll_of_noIds (domIds_textareaText ..)]
      split_ifs <;> rfl

end Rename

/-! ## Views -/

/-- What the diff relies on in both trees. -/
structure View (browser : Browser Msg) (n : VNode Msg) : Prop where
  addressable : Addressable browser n
  nested : Nested n
  nodup : n.ids.Nodup
  named : ∀ x ∈ n.ids, x ≠ []

theorem ids_subset_idsAll {c : VNode Msg} {cs : List (VNode Msg)} (h : c ∈ cs) :
    c.ids ⊆ idsAll cs := by
  intro x hx
  rw [idsAll_eq]
  exact List.mem_flatMap.mpr ⟨c, h, hx⟩

theorem ids_sublist_idsAll {c : VNode Msg} {cs : List (VNode Msg)} (h : c ∈ cs) :
    c.ids.Sublist (idsAll cs) := by
  rw [idsAll_eq, List.flatMap]
  exact List.sublist_flatten_of_mem (List.mem_map_of_mem h)

theorem View.child {tag : String} {attrs : Attrs} {events : AList fun _ : String => Msg}
    {children : List (VNode Msg)} {skyID : SkyID} {c : VNode Msg}
    (h : View browser (.element tag attrs events children skyID)) (htag : isTextOnly tag = false)
    (hc : c ∈ children) : View browser c := by
  obtain ⟨haddr, hnested, hnodup, hnamed⟩ := h
  cases haddr with
  | element _ hcontent =>
      cases hnested with
      | element _ hnested =>
          exact ⟨hcontent htag c hc, hnested c hc,
            (List.nodup_cons.mp hnodup).2.sublist (ids_sublist_idsAll hc),
            fun x hx => hnamed x (List.mem_cons_of_mem _ (ids_subset_idsAll hc hx))⟩

theorem Nested.within_root {n : VNode Msg} (h : Nested n) :
    ∀ x ∈ n.ids, Within '.' n.skyID x := by
  cases h with
  | text s => exact nofun
  | raw s => exact nofun
  | element hwithin _ =>
      intro x hx
      rcases List.mem_cons.mp hx with rfl | hx
      · exact Within.refl '.' x
      · exact hwithin x hx

theorem View.renameSubtreeIDs {n : VNode Msg} {q : SkyID} (h : View browser n) (hq : q ≠ []) :
    View browser (renameSubtreeIDs n.skyID q n) where
  addressable := h.addressable.renameSubtreeIDs
  nested := h.nested.renameSubtreeIDs h.nested.within_root
  nodup := by
    rw [ids_renameSubtreeIDs]
    exact h.nodup.map_on fun x hx y hy hxy =>
      (h.nested.within_root x hx).rename_inj (h.nested.within_root y hy) hxy
  named x hx := by
    rw [ids_renameSubtreeIDs] at hx
    obtain ⟨y, hy, rfl⟩ := List.mem_map.mp hx
    exact rename_ne_nil hq (h.named y hy)

end Sky.Live
