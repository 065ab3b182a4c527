import Mathlib
import Sky.Model.Dom

/-! # Pages

Canonical pages, the ids on a page, and patches inside a larger page. -/

namespace Sky.Live

open Sky.Library

variable {Msg : Type*} {xs ys ds : List DNode}

theorem DNode.induct {P : List DNode → Prop} (nil : P []) (text : ∀ s ds, P ds → P (.text s :: ds))
    (value : ∀ s ds, P ds → P (.value s :: ds))
    (element : ∀ tag skyID kids ds, P kids → P ds → P (.element tag skyID kids :: ds)) : ∀ ds, P ds
  | [] => nil
  | .text s :: ds => text s ds (DNode.induct nil text value element ds)
  | .value s :: ds => value s ds (DNode.induct nil text value element ds)
  | .element tag skyID kids :: ds =>
      element tag skyID kids ds (DNode.induct nil text value element kids)
        (DNode.induct nil text value element ds)
termination_by ds => sizeOf ds

/-! ## Canonical pages -/

@[simp] theorem canon_nil : canon [] = [] := rfl

@[simp] theorem canon_text (s : String) (ds : List DNode) :
    canon (.text s :: ds) = addText s (canon ds) := rfl

@[simp] theorem canon_value (s : String) (ds : List DNode) :
    canon (.value s :: ds) = canon ds := rfl

@[simp] theorem canon_element (tag : String) (skyID : Option SkyID) (kids ds : List DNode) :
    canon (.element tag skyID kids :: ds) = .element tag skyID (canon kids) :: canon ds := rfl

@[simp] theorem addText_empty (ds : List DNode) : addText "" ds = ds := by
  cases ds with
  | nil => rfl
  | cons d ds => cases d <;> simp [addText]

@[simp] theorem addText_element (s tag : String) (skyID : Option SkyID) (kids ds : List DNode) :
    addText s (.element tag skyID kids :: ds) =
      if s = "" then .element tag skyID kids :: ds else .text s :: .element tag skyID kids :: ds := rfl

@[simp] theorem addText_value (s t : String) (ds : List DNode) :
    addText s (.value t :: ds) = if s = "" then .value t :: ds else .text s :: .value t :: ds := rfl

theorem addText_addText (s t : String) (ds : List DNode) :
    addText s (addText t ds) = addText (s ++ t) ds := by
  by_cases ht : t = ""
  · subst ht
    rw [addText_empty, String.append_empty]
  · have hst : s ++ t ≠ "" := by
      intro h
      exact ht (String.append_eq_empty_iff.mp h).2
    cases ds with
    | nil => simp [addText, ht, hst]
    | cons d ds => cases d <;> simp [addText, ht, hst, String.append_assoc]

/-- The merged nodes `xs` in front of nodes that are already merged. -/
def mergeOn (xs rest : List DNode) : List DNode := xs.foldr (fun d rest => d.canonOn rest) rest

theorem canon_append (xs ys : List DNode) : canon (xs ++ ys) = mergeOn xs (canon ys) := by
  induction xs with
  | nil => rfl
  | cons d xs ih => exact congrArg (fun rest => d.canonOn rest) ih

theorem canon_eq_mergeOn (xs : List DNode) : canon xs = mergeOn xs [] := by
  have h := canon_append xs []
  rwa [List.append_nil] at h

theorem mergeOn_addText (s : String) (xs rest : List DNode) :
    mergeOn (addText s xs) rest = addText s (mergeOn xs rest) := by
  cases xs with
  | nil =>
      by_cases hs : s = ""
      · subst hs
        simp
      · simp [addText, hs, mergeOn, DNode.canonOn]
  | cons d xs =>
      cases d with
      | text t => exact (addText_addText s t _).symm
      | value t =>
          by_cases hs : s = ""
          · subst hs
            simp
          · rw [addText_value, if_neg hs]
            rfl
      | element tag skyID kids =>
          by_cases hs : s = ""
          · subst hs
            simp
          · rw [addText_element, if_neg hs]
            rfl

theorem mergeOn_canon (xs rest : List DNode) : mergeOn (canon xs) rest = mergeOn xs rest := by
  induction xs using DNode.induct generalizing rest with
  | nil => rfl
  | text s ds ih =>
      rw [canon_text, mergeOn_addText, ih]
      rfl
  | value s ds ih => exact ih rest
  | element tag skyID kids ds hkids ih =>
      have hcanon : canon (canon kids) = canon kids := by
        rw [canon_eq_mergeOn (canon kids), hkids, ← canon_eq_mergeOn]
      simp only [mergeOn, canon_element, List.foldr_cons, DNode.canonOn] at ih ⊢
      rw [hcanon, ih]

theorem canon_append_congr {xs' ys' : List DNode} (hx : canon xs = canon xs')
    (hy : canon ys = canon ys') : canon (xs ++ ys) = canon (xs' ++ ys') := by
  rw [canon_append, canon_append, hy, ← mergeOn_canon xs, hx, mergeOn_canon]

theorem addText_append_element (s tag : String) (skyID : Option SkyID) (kids ds rest : List DNode) :
    addText s (ds ++ .element tag skyID kids :: rest) =
      addText s ds ++ .element tag skyID kids :: rest := by
  by_cases hs : s = ""
  · subst hs
    simp
  · cases ds with
    | nil => simp [addText, hs]
    | cons d ds => cases d <;> simp [addText, hs]

/-- An element separates what is before it from what is behind it. -/
theorem canon_append_element (xs : List DNode) (tag : String) (skyID : Option SkyID)
    (kids ys : List DNode) : canon (xs ++ .element tag skyID kids :: ys) =
      canon xs ++ .element tag skyID (canon kids) :: canon ys := by
  induction xs with
  | nil => rfl
  | cons d xs ih =>
      cases d with
      | text s => rw [List.cons_append, canon_text, ih, addText_append_element, canon_text]
      | value s => exact ih
      | element tag' skyID' kids' =>
          rw [List.cons_append, canon_element, ih, canon_element, List.cons_append]

theorem addText_split {s tag : String} {skyID : Option SkyID} {kids front back : List DNode}
    (h : addText s ds = front ++ .element tag skyID kids :: back) :
    ∃ front', ds = front' ++ .element tag skyID kids :: back ∧ addText s front' = front := by
  by_cases hs : s = ""
  · subst hs
    rw [addText_empty] at h
    exact ⟨front, h, addText_empty front⟩
  · cases ds with
    | nil =>
        rw [addText, if_neg hs] at h
        · cases front <;> simp at h
        · simp
    | cons d ds =>
        cases front with
        | nil => cases d <;> simp [addText, hs] at h
        | cons c front =>
            cases d with
            | text t =>
                obtain ⟨hc, hds⟩ := List.cons.inj h
                exact ⟨.text t :: front, by rw [hds]; rfl, by rw [← hc]; rfl⟩
            | value t =>
                rw [addText_value, if_neg hs] at h
                obtain ⟨hc, hds⟩ := List.cons.inj h
                refine ⟨front, hds, ?_⟩
                cases front with
                | nil => cases (List.cons.inj hds).1
                | cons c' front =>
                    obtain ⟨hc', -⟩ := List.cons.inj hds
                    rw [← hc', addText_value, if_neg hs, ← hc]
            | element tag' skyID' kids' =>
                rw [addText_element, if_neg hs] at h
                obtain ⟨hc, hds⟩ := List.cons.inj h
                refine ⟨front, hds, ?_⟩
                cases front with
                | nil => rw [addText, if_neg hs, ← hc]; simp
                | cons c' front =>
                    obtain ⟨hc', -⟩ := List.cons.inj hds
                    rw [← hc', addText_element, if_neg hs, ← hc]

/-- An element of the canonical page is one of the page. -/
theorem canon_split {tag : String} {skyID : Option SkyID} {kids front back : List DNode}
    (h : canon ds = front ++ .element tag skyID kids :: back) :
    ∃ left kids' right, ds = left ++ .element tag skyID kids' :: right ∧ canon left = front ∧
      canon kids' = kids ∧ canon right = back := by
  induction ds generalizing front with
  | nil => cases front <;> cases h
  | cons d ds ih =>
      cases d with
      | text s =>
          rw [canon_text] at h
          obtain ⟨front', hds, hfront⟩ := addText_split h
          obtain ⟨left, kids', right, rfl, hleft, hkids, hright⟩ := ih hds
          exact ⟨.text s :: left, kids', right, rfl, by rw [canon_text, hleft, hfront], hkids, hright⟩
      | value s =>
          obtain ⟨left, kids', right, rfl, hleft, hkids, hright⟩ := ih h
          exact ⟨.value s :: left, kids', right, rfl, hleft, hkids, hright⟩
      | element tag' skyID' kids' =>
          rw [canon_element] at h
          cases front with
          | nil =>
              obtain ⟨hd, hds⟩ := List.cons.inj h
              injection hd with htag hid hkids
              subst htag hid
              exact ⟨[], kids', ds, rfl, rfl, hkids, hds⟩
          | cons c front =>
              obtain ⟨hc, hds⟩ := List.cons.inj h
              obtain ⟨left, kids'', right, rfl, hleft, hkids, hright⟩ := ih hds
              exact ⟨.element tag' skyID' kids' :: left, kids'', right, rfl,
                by rw [canon_element, hleft, hc], hkids, hright⟩

/-! ## Ids on a page -/

mutual

def DNode.ids : DNode → List SkyID
  | .element _ skyID kids => skyID.toList ++ domIds kids
  | _ => []

/-- The sky-ids on a page. -/
def domIds : List DNode → List SkyID
  | [] => []
  | d :: ds => d.ids ++ domIds ds

end

@[simp] theorem domIds_nil : domIds [] = [] := rfl

@[simp] theorem domIds_text (s : String) (ds : List DNode) :
    domIds (.text s :: ds) = domIds ds := rfl

@[simp] theorem domIds_value (s : String) (ds : List DNode) :
    domIds (.value s :: ds) = domIds ds := rfl

@[simp] theorem domIds_element (tag : String) (skyID : Option SkyID) (kids ds : List DNode) :
    domIds (.element tag skyID kids :: ds) = skyID.toList ++ domIds kids ++ domIds ds := rfl

@[simp] theorem domIds_append (xs ys : List DNode) :
    domIds (xs ++ ys) = domIds xs ++ domIds ys := by
  induction xs with
  | nil => rfl
  | cons d xs ih =>
      rw [List.cons_append, domIds, domIds, ih, List.append_assoc]

@[simp] theorem domIds_addText (s : String) (ds : List DNode) : domIds (addText s ds) = domIds ds := by
  by_cases hs : s = ""
  · subst hs
    rw [addText_empty]
  · cases ds with
    | nil => simp [addText, hs]
    | cons d ds => cases d <;> simp [addText, hs]

theorem domIds_canon (ds : List DNode) : domIds (canon ds) = domIds ds := by
  induction ds using DNode.induct with
  | nil => rfl
  | text s ds ih => rw [canon_text, domIds_addText, ih, domIds_text]
  | value s ds ih => exact ih
  | element tag skyID kids ds hkids ih => rw [canon_element, domIds_element, hkids, ih, domIds_element]

theorem domIds_congr (h : canon xs = canon ys) : domIds xs = domIds ys := by
  rw [← domIds_canon, h, domIds_canon]

theorem findAll_eq_none {id : SkyID} (h : id ∉ domIds ds) : findAll id ds = none := by
  induction ds using DNode.induct with
  | nil => rfl
  | text s ds ih => exact ih h
  | value s ds ih => exact ih h
  | element tag skyID kids ds hkids ih =>
      simp only [domIds_element, List.mem_append, not_or, Option.mem_toList] at h
      rw [findAll, DNode.find, if_neg h.1.1, hkids h.1.2, ih h.2]
      rfl

theorem findAll_append (id : SkyID) (xs ys : List DNode) :
    findAll id (xs ++ ys) = (findAll id xs).or (findAll id ys) := by
  induction xs with
  | nil => rfl
  | cons d xs ih => rw [List.cons_append, findAll, findAll, ih, Option.or_assoc]

theorem spliceAll_append_left {id : SkyID} (repl ys : List DNode) (h : (findAll id xs).isSome) :
    spliceAll id repl (xs ++ ys) = spliceAll id repl xs ++ ys := by
  induction xs with
  | nil => cases h
  | cons d xs ih =>
      rw [List.cons_append, spliceAll, spliceAll]
      split_ifs with hd
      · rw [List.append_assoc]
      · rw [Option.not_isSome_iff_eq_none] at hd
        rw [findAll, hd, Option.none_or] at h
        rw [ih h, List.cons_append]

theorem spliceAll_append_right {id : SkyID} (repl ys : List DNode) (h : findAll id xs = none) :
    spliceAll id repl (xs ++ ys) = xs ++ spliceAll id repl ys := by
  induction xs with
  | nil => rfl
  | cons d xs ih =>
      rw [findAll, Option.or_eq_none_iff] at h
      rw [List.cons_append, spliceAll, h.1, ih h.2]
      rfl

/-! ## Patches inside a larger page -/

variable {browser : Browser Msg} {p : Patch Msg} {ps : List (Patch Msg)} {left right : List DNode}

/-- A patch whose target is not before the nodes it works on. -/
theorem applyPatch_local (h : applyPatch browser xs p = some ys) (hp : p.id ∉ domIds left)
    (right : List DNode) : applyPatch browser (left ++ (xs ++ right)) p =
      some (left ++ (ys ++ right)) := by
  obtain ⟨d, hd, hedit⟩ := Option.bind_eq_some_iff.mp h
  obtain ⟨repl, hrepl, rfl⟩ := Option.map_eq_some_iff.mp hedit
  have hleft := findAll_eq_none hp
  rw [applyPatch, findAll_append, hleft, Option.none_or, findAll_append, hd, Option.some_or,
    Option.bind_some, hrepl, Option.map_some, spliceAll_append_right repl _ hleft,
    spliceAll_append_left repl right (by rw [hd]; rfl)]

theorem applyPatches_local (h : applyPatches browser xs ps = some ys)
    (hps : ∀ p ∈ ps, p.id ∉ domIds left) (right : List DNode) :
    applyPatches browser (left ++ (xs ++ right)) ps = some (left ++ (ys ++ right)) := by
  induction ps generalizing xs with
  | nil =>
      obtain rfl : xs = ys := Option.some.inj h
      rfl
  | cons p ps ih =>
      obtain ⟨zs, hzs, hrest⟩ := Option.bind_eq_some_iff.mp h
      have hstep := applyPatch_local hzs (hps p (List.mem_cons_self ..)) right
      rw [applyPatches, List.foldlM_cons, hstep]
      exact ih hrest fun q hq => hps q (List.mem_cons_of_mem _ hq)

/-- A patch below an element that is not its target. -/
theorem applyPatch_inside {tag : String} {skyID : Option SkyID} (hp : skyID ≠ some p.id)
    (h : applyPatch browser xs p = some ys) :
    applyPatch browser [.element tag skyID xs] p = some [.element tag skyID ys] := by
  obtain ⟨d, hd, hedit⟩ := Option.bind_eq_some_iff.mp h
  obtain ⟨repl, hrepl, rfl⟩ := Option.map_eq_some_iff.mp hedit
  have hfind : (DNode.element tag skyID xs).find p.id = some d := by
    rw [DNode.find, if_neg hp, hd]
  rw [applyPatch, findAll, hfind, Option.some_or, Option.bind_some, hrepl, Option.map_some,
    spliceAll, hfind]
  simp only [Option.isSome_some, if_true, DNode.splice, if_neg hp, List.append_nil]

theorem applyPatches_inside {tag : String} {skyID : Option SkyID}
    (hps : ∀ p ∈ ps, skyID ≠ some p.id) (h : applyPatches browser xs ps = some ys) :
    applyPatches browser [.element tag skyID xs] ps = some [.element tag skyID ys] := by
  induction ps generalizing xs with
  | nil =>
      obtain rfl : xs = ys := Option.some.inj h
      rfl
  | cons p ps ih =>
      obtain ⟨zs, hzs, hrest⟩ := Option.bind_eq_some_iff.mp h
      rw [applyPatches, List.foldlM_cons,
        applyPatch_inside (hps p (List.mem_cons_self ..)) hzs]
      exact ih (fun q hq => hps q (List.mem_cons_of_mem _ hq)) hrest

/-- A patch at the element itself. -/
theorem applyPatches_root {tag : String} {kids : List DNode} {id : SkyID} (hid : p.id = id)
    (h : p.edit browser (.element tag (some id) kids) = some ys) :
    applyPatches browser [.element tag (some id) kids] [p] = some ys := by
  subst hid
  have hfind : (DNode.element tag (some p.id) kids).find p.id =
      some (.element tag (some p.id) kids) := by
    rw [DNode.find, if_pos rfl]
  have hstep : applyPatch browser [.element tag (some p.id) kids] p = some ys := by
    rw [applyPatch, findAll, hfind, Option.some_or, Option.bind_some, h, Option.map_some,
      spliceAll, hfind]
    simp only [Option.isSome_some, if_true, DNode.splice, List.append_nil]
  rw [applyPatches, List.foldlM_cons, hstep]
  rfl

theorem applyPatches_append (doc : List DNode) (ps qs : List (Patch Msg)) :
    applyPatches browser doc (ps ++ qs) =
      (applyPatches browser doc ps).bind fun doc => applyPatches browser doc qs :=
  List.foldlM_append

end Sky.Live
