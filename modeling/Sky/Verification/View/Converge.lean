import Mathlib
import Sky.Verification.View.Kids

/-! # The diff converges

Applied to any page that shows the old view, the patches of `diffTrees` find all their
targets and leave a page that shows the new view. -/

namespace Sky.Live

open Sky.Library DottedPath

variable {Msg : Type*} {browser : Browser Msg} {names : EventNames Msg} {cs : ClientState}

/-! ## The content of an element -/

section Content

variable {tag : String} {oattrs attrs : Attrs} {oevents events : AList fun _ : String => Msg}
  {ocs ncs : List (VNode Msg)} {id : SkyID}

theorem isIsland_iff (attrs : Attrs) : islandIdentity attrs ≠ "" ↔ isIsland attrs = true := by
  rw [islandIdentity]
  split_ifs with h
  · refine ⟨fun _ => h, fun _ hempty => ?_⟩
    rw [String.append_eq_empty_iff, String.append_eq_empty_iff] at hempty
    exact absurd hempty.1.2 (by decide)
  · exact ⟨fun hne => (hne rfl).elim, fun htrue => (h htrue).elim⟩

theorem isIsland_congr (h : islandIdentity oattrs = islandIdentity attrs) :
    isIsland oattrs = isIsland attrs := by
  rw [Bool.eq_iff_iff, ← isIsland_iff, ← isIsland_iff, h]

/-- What the patches inside an element leave to the descent: nothing at all, or
children that can be compared. -/
structure ContentConverges (browser : Browser Msg) (old new : VNode Msg) (tag : String)
    (id : SkyID) (ncs : List (VNode Msg))
    (out : List (Patch Msg) × List (Option (ClientState × VNode Msg))) : Prop where
  targets : ∀ p ∈ out.1, p.id = id
  reaches : ∀ kids, canon kids = canon (domKids browser old) → ∃ kids',
    applyPatches browser [.element tag (some id) kids] out.1 =
        some [.element tag (some id) kids'] ∧
      ((∀ x ∈ out.2, x = none) ∧ canon kids' = canon (domKids browser new) ∨
        isTextOnly tag = false ∧ AllComparable browser out.2 ncs ∧
          canon kids' = canon (pendingAll browser out.2 ncs))

/-- The whole content as markup. -/
theorem contentConverges_html (old : VNode Msg) (new : VNode Msg) :
    ContentConverges browser old new tag id ncs ([{ id := id, html := some new }], []) where
  targets p hp := by
    rw [List.mem_singleton.mp hp]
  reaches kids _ := by
    refine ⟨domKids browser new, applyPatches_root rfl ?_,
      .inl ⟨fun x hx => absurd hx List.not_mem_nil, rfl⟩⟩
    simp [Patch.edit]

theorem contentConverges_diffChildren
    (hold : View browser (.element tag oattrs oevents ocs id))
    (hnew : View browser (.element tag attrs events ncs id)) :
    ContentConverges browser (.element tag oattrs oevents ocs id)
      (.element tag attrs events ncs id) tag id ncs
      (diffChildren cs tag id ocs (.element tag attrs events ncs id) ncs) := by
  have hid : id ≠ [] := hold.named id (List.mem_cons_self ..)
  rw [diffChildren]
  split_ifs with hsame hwhole
  · refine ⟨fun p hp => absurd hp List.not_mem_nil, fun kids hkids => ⟨kids, rfl, ?_⟩⟩
    cases htag : isTextOnly tag with
    | true =>
        have htext : ∀ c ∈ ocs, c.isElement = false := by
          cases hold.addressable with
          | element hplain _ => exact hplain.textOnly htag
        obtain rfl := eq_of_childrenSameSlots hsame htext
        refine .inl ⟨fun x hx => ?_, hkids⟩
        obtain ⟨o, ho, rfl⟩ := List.mem_map.mp hx
        rw [htext o ho]
        rfl
    | false =>
        rw [domKids_of_not_textOnly htag] at hkids
        refine .inr ⟨rfl, allComparable_of_sameSlots hsame (fun o ho => hold.child htag ho)
          (fun c hc => hnew.child htag hc), ?_⟩
        rw [hkids, pendingAll_of_sameSlots hsame]
  · exact contentConverges_html _ _
  · dsimp only
    split_ifs
    · exact contentConverges_html _ _
    · have htag : isTextOnly tag = false := by
        simp only [childrenNeedWholeHTML, Bool.or_eq_true, not_or] at hwhole
        simp only [isTextOnly, Bool.or_eq_false_iff]
        simpa using hwhole.1.1
      have hocs : ∀ o ∈ ocs, View browser o := fun o ho => hold.child htag ho
      have hncs : ∀ c ∈ ncs, View browser c := fun c hc => hnew.child htag hc
      have honodup : (idsAll ocs).Nodup := (List.nodup_cons.mp hold.nodup).2
      have hal : Aligned ocs ncs (alignChildren id id ocs ncs) :=
        aligned_alignChildren id id (distinct_of_nodup (List.nodup_cons.mp hnew.nodup).2)
      refine ⟨fun p hp => by rw [List.mem_singleton.mp hp], fun kids hkids => ?_⟩
      rw [domKids_of_not_textOnly htag] at hkids
      have havail : ∀ (j : ℕ) o, some j ∈ alignChildren id id ocs ncs → ocs[j]? = some o →
          Available browser kids o := by
        intro j o hj ho
        obtain ⟨i, hi⟩ := List.getElem?_of_mem hj
        obtain ⟨⟨o', ho', helem⟩, -⟩ := hal.fits i j hi
        obtain rfl := Option.some.inj (ho.symm.trans ho')
        exact available_of_canon hkids hocs honodup (List.mem_of_getElem? ho) helem
      obtain ⟨kids', hkids', hcanon⟩ := applyKids_spec hal hocs (distinct_of_nodup honodup)
        (fun c hc helem => (hncs c hc).named _ (skyID_mem_ids helem)) havail
      refine ⟨kids', applyPatches_root rfl ?_, .inr ⟨htag, ?_, hcanon⟩⟩
      · simp only [Patch.edit, Option.map_none, Option.getD_none, Option.map_some, Option.getD_some]
        exact congrArg (Option.map _) hkids'
      · exact allComparable_of_aligned hal hocs hncs

theorem contentConverges_diffContent (cs : ClientState)
    (hold : View browser (.element tag oattrs oevents ocs id))
    (hnew : View browser (.element tag attrs events ncs id)) (hisland : isIsland attrs = false) :
    ContentConverges browser (.element tag oattrs oevents ocs id)
      (.element tag attrs events ncs id) tag id ncs
      (diffContent cs tag attrs id ocs (.element tag attrs events ncs id) ncs) := by
  have hid : id ≠ [] := hold.named id (List.mem_cons_self ..)
  have hdom : ∀ (a : String) (attrs : Attrs) (events : AList fun _ : String => Msg),
      domKids browser (.element tag attrs events [.text a] id) = [.text a] := by
    intro a attrs events
    rw [domKids]
    split_ifs <;> rfl
  have hne : ¬ islandIdentity attrs ≠ "" := by
    rw [isIsland_iff, hisland]
    exact Bool.false_ne_true
  by_cases htext : ∃ a b, ocs = [.text a] ∧ ncs = [.text b]
  · obtain ⟨a, b, rfl, rfl⟩ := htext
    rw [diffContent, if_neg hne]
    split_ifs with hab
    · refine ⟨fun p hp => by rw [List.mem_singleton.mp hp], fun kids _ => ?_⟩
      refine ⟨[.text b], applyPatches_root rfl ?_,
        .inl ⟨fun x hx => absurd hx List.not_mem_nil, ?_⟩⟩
      · simp [Patch.edit]
      · rw [hdom]
    · rw [not_and_or, not_not, not_not] at hab
      obtain rfl := hab.resolve_right hid
      refine ⟨fun p hp => absurd hp List.not_mem_nil, fun kids hkids =>
        ⟨kids, rfl, .inl ⟨fun x hx => absurd hx List.not_mem_nil, ?_⟩⟩⟩
      rwa [hdom] at hkids ⊢
  · rw [diffContent, if_neg hne]
    · exact contentConverges_diffChildren hold hnew
    · exact fun a b ha hb => htext ⟨a, b, ha, hb⟩

/-- The patches inside an element, the descent included. -/
theorem ContentConverges.descend {old : VNode Msg}
    {out : List (Patch Msg) × List (Option (ClientState × VNode Msg))}
    (h : ContentConverges browser old (.element tag attrs events ncs id) tag id ncs out)
    (hnew : View browser (.element tag attrs events ncs id))
    (ih : ∀ c ∈ ncs, ∀ cs o, Comparable browser o c → Converges browser o c (diffNodes names cs o c)) :
    (∀ p ∈ out.1 ++ diffAll names out.2 ncs, p.id ∈ id :: idsAll ncs) ∧
      ∀ kids, canon kids = canon (domKids browser old) → ∃ kids',
        applyPatches browser [.element tag (some id) kids] (out.1 ++ diffAll names out.2 ncs) =
            some [.element tag (some id) kids'] ∧
          canon kids' = canon (domKids browser (.element tag attrs events ncs id)) := by
  obtain ⟨hid, hnodup⟩ := List.nodup_cons.mp hnew.nodup
  have hboth : ∀ kids, canon kids = canon (domKids browser old) →
      (∀ p ∈ diffAll names out.2 ncs, p.id ∈ idsAll ncs) ∧ ∃ kids',
        applyPatches browser [.element tag (some id) kids] (out.1 ++ diffAll names out.2 ncs) =
            some [.element tag (some id) kids'] ∧
          canon kids' = canon (domKids browser (.element tag attrs events ncs id)) := by
    intro kids hkids
    obtain ⟨kids₁, hkids₁, ⟨hnone, hcanon⟩ | ⟨htag, hcomp, hcanon⟩⟩ := h.reaches kids hkids
    · rw [diffAll_of_none hnone, List.append_nil]
      exact ⟨fun p hp => absurd hp List.not_mem_nil, kids₁, hkids₁, hcanon⟩
    · have hstart : canon kids₁ = canon ([] ++ pendingAll browser out.2 ncs) := hcanon
      obtain ⟨htargets, kids₂, hkids₂, hcanon₂⟩ := diffAll_spec ih hcomp
        (fun c hc => (hnew.child htag hc).addressable) hnodup
        (fun x hx => hnew.named x (List.mem_cons_of_mem _ hx))
        (fun x hx => absurd hx List.not_mem_nil) hstart
      refine ⟨htargets, kids₂, ?_, ?_⟩
      · rw [applyPatches_append, hkids₁]
        refine applyPatches_inside (fun p hp heq => hid ?_) hkids₂
        rw [Option.some.inj heq]
        exact htargets p hp
      · rw [hcanon₂, domKids_of_not_textOnly htag]
        rfl
  refine ⟨fun p hp => ?_, fun kids hkids => (hboth kids hkids).2⟩
  rcases List.mem_append.mp hp with hp | hp
  · rw [h.targets p hp]
    exact List.mem_cons_self ..
  · exact List.mem_cons_of_mem _ ((hboth _ rfl).1 p hp)

end Content

/-! ## Nodes -/

theorem View.plain {tag : String} {attrs : Attrs} {events : AList fun _ : String => Msg}
    {children : List (VNode Msg)} {id : SkyID}
    (h : View browser (.element tag attrs events children id)) :
    Plain tag attrs events children := by
  cases h.addressable with
  | element hplain _ => exact hplain

theorem domOf_element_content {tag : String} {attrs : Attrs}
    {events : AList fun _ : String => Msg} {children : List (VNode Msg)} {id : SkyID}
    (h : View browser (.element tag attrs events children id)) :
    domOf browser (.element tag attrs events children id) =
      [.element tag (some id) (textareaText tag attrs children ++ if isIsland attrs then [] else
        domKids browser (.element tag attrs events children id))] :=
  domOf_element h.plain (h.named id (List.mem_cons_self ..))

theorem attrPatch_targets {changes : Attrs} {id : SkyID} :
    ∀ p ∈ (attrPatch changes id : List (Patch Msg)), p.id = id := by
  intro p hp
  rw [attrPatch] at hp
  split_ifs at hp
  · rw [List.mem_singleton.mp hp]
  · cases hp

theorem diffContent_island {tag : String} {attrs : Attrs} {oid : SkyID} {ocs ncs : List (VNode Msg)}
    {new : VNode Msg} (h : isIsland attrs = true) :
    diffContent cs tag attrs oid ocs new ncs = ([], []) := by
  have hne : islandIdentity attrs ≠ "" := (isIsland_iff attrs).mpr h
  by_cases htext : ∃ a b, ocs = [.text a] ∧ ncs = [.text b]
  · obtain ⟨a, b, rfl, rfl⟩ := htext
    rw [diffContent, if_pos hne]
  · rw [diffContent, if_pos hne]
    exact fun a b ha hb => htext ⟨a, b, ha, hb⟩

/-- The patches for two elements that are compared. -/
theorem converges_element {tag : String} {oattrs attrs : Attrs}
    {oevents events : AList fun _ : String => Msg} {ocs ncs : List (VNode Msg)} {id : SkyID}
    (client : Option String) (hold : View browser (.element tag oattrs oevents ocs id))
    (hnew : View browser (.element tag attrs events ncs id))
    (hident : islandIdentity oattrs = islandIdentity attrs)
    (ih : ∀ c ∈ ncs, ∀ cs o, Comparable browser o c → Converges browser o c (diffNodes names cs o c))
    {out : List (Patch Msg) × List (Option (ClientState × VNode Msg))}
    (hout : out = diffContent cs tag attrs id ocs (.element tag attrs events ncs id) ncs) :
    Converges browser (.element tag oattrs oevents ocs id) (.element tag attrs events ncs id)
      (attrPatch (elementChanges names client oattrs attrs oevents events id id) id ++
        (out.1 ++ diffAll names out.2 ncs)) := by
  have hinside : (∀ p ∈ out.1 ++ diffAll names out.2 ncs, p.id ∈ id :: idsAll ncs) ∧
      ∀ kids, canon kids = canon (if isIsland oattrs then [] else
          domKids browser (.element tag oattrs oevents ocs id)) → ∃ kids',
        applyPatches browser [.element tag (some id) kids] (out.1 ++ diffAll names out.2 ncs) =
            some [.element tag (some id) kids'] ∧
          canon kids' = canon (if isIsland attrs then [] else
            domKids browser (.element tag attrs events ncs id)) := by
    rw [isIsland_congr hident]
    cases hisland : isIsland attrs with
    | true =>
        rw [hout, diffContent_island hisland, diffAll_of_none fun x hx => absurd hx List.not_mem_nil]
        exact ⟨fun p hp => absurd hp List.not_mem_nil, fun kids hkids => ⟨kids, rfl, hkids⟩⟩
    | false =>
        have hcontent := contentConverges_diffContent cs hold hnew hisland
        rw [← hout] at hcontent
        exact hcontent.descend hnew ih
  obtain ⟨htargets, hreaches⟩ := hinside
  refine Converges.of_root (domOf_element_content hold) (fun p hp => ?_) fun kids hkids => ?_
  · rcases List.mem_append.mp hp with hp | hp
    · rw [attrPatch_targets p hp]
      exact List.mem_cons_self ..
    · exact htargets p hp
  · rw [canon_textareaText_append] at hkids
    obtain ⟨kids', hkids', hcanon⟩ := hreaches kids hkids
    refine ⟨[.element tag (some id) kids'], ?_, ?_⟩
    · rw [applyPatches_append, VNode.skyID, applyPatches_attrPatch hold.plain hnew.plain]
      exact hkids'
    · rw [domOf_element_content hnew, canon_element, canon_element, canon_textareaText_append,
        hcanon]

theorem converges_diffNodes {old new : VNode Msg} (h : Comparable browser old new) :
    Converges browser old new (diffNodes names cs old new) := by
  induction new using VNode.induct generalizing old cs with
  | text s => cases h.newElement
  | raw s => cases h.newElement
  | element tag attrs events ncs id ih =>
      obtain ⟨hold, hnew, hoelem, -, hoid⟩ := h
      cases old with
      | text s => cases hoelem
      | raw s => cases hoelem
      | element otag oattrs oevents ocs oid =>
          obtain rfl : oid = id := hoid
          by_cases hreplace : otag ≠ tag ∨
              sameForm names otag tag oattrs attrs oevents events = false ∨
                islandIdentity oattrs ≠ islandIdentity attrs
          · rw [diffNodes, if_pos hreplace]
            refine Converges.of_root (domOf_element_content hold) (fun p hp => ?_) fun kids _ =>
              ⟨domOf browser (.element tag attrs events ncs oid), applyPatches_root rfl ?_, rfl⟩
            · rw [List.mem_singleton.mp hp]
              exact List.mem_cons_self ..
            · simp [Patch.edit]
          · rw [diffNodes, if_neg hreplace]
            rw [not_or, not_or, not_not, not_not] at hreplace
            obtain ⟨rfl, -, hident⟩ := hreplace
            exact converges_element _ hold hnew hident (fun c hc cs o => ih c hc) rfl

/-! ## Views -/

theorem injectStyleMarker_root (spec : StyleMarkerSpec) (n : VNode Msg) :
    (injectStyleMarker spec n).isElement = n.isElement ∧
      (injectStyleMarker spec n).skyID = n.skyID := by
  cases n with
  | text s => exact ⟨rfl, rfl⟩
  | raw s => exact ⟨rfl, rfl⟩
  | element tag attrs events children skyID =>
      rw [injectStyleMarker]
      split_ifs <;> exact ⟨rfl, rfl⟩

theorem passes_root (present : ℕ) (passes : List StyleMarkerPass) (n : VNode Msg) :
    (passes.foldl (fun n p => if present &&& p.bit ≠ 0 then injectStyleMarker p.spec n else n)
        n).isElement = n.isElement ∧
      (passes.foldl (fun n p => if present &&& p.bit ≠ 0 then injectStyleMarker p.spec n else n)
        n).skyID = n.skyID := by
  induction passes generalizing n with
  | nil => exact ⟨rfl, rfl⟩
  | cons p passes ih =>
      rw [List.foldl_cons]
      obtain ⟨helem, hid⟩ := ih (if present &&& p.bit ≠ 0 then injectStyleMarker p.spec n else n)
      rw [helem, hid]
      split_ifs
      · exact injectStyleMarker_root p.spec n
      · exact ⟨rfl, rfl⟩

/-- The root of a view keeps the id that it was stamped with. -/
theorem view_root (css : StyleCSS) (path : SkyID) {n : VNode Msg} (h : n.isElement = true) :
    (applyStyleInjections css (assignSkyIDs path n)).isElement = true ∧
      (applyStyleInjections css (assignSkyIDs path n)).skyID = path := by
  cases n with
  | text s => cases h
  | raw s => cases h
  | element tag attrs events children skyID =>
      obtain ⟨helem, hid⟩ := passes_root
        (scanStyleMarkers (styleMarkerPasses css) 0 (applyRadioGroupNames ""
          (assignSkyIDs path (.element tag attrs events children skyID))))
        (styleMarkerPasses css)
        (applyRadioGroupNames "" (assignSkyIDs path (.element tag attrs events children skyID)))
      exact ⟨helem, hid⟩

theorem view_of_clean (css : StyleCSS) {path : SkyID} (hpath : path ≠ []) {n : VNode Msg}
    (hclean : n.Clean) (haddr : Addressable browser (applyStyleInjections css (assignSkyIDs path n))) :
    View browser (applyStyleInjections css (assignSkyIDs path n)) where
  addressable := haddr
  nested := nested_view css hclean path
  nodup := (skyIDs_unique css hclean hpath).1
  named := (skyIDs_unique css hclean hpath).2

/-- The patches from one view to another, applied to any page that shows the first, find
every target and every child that is kept, and leave a page that shows the second. -/
theorem diffTrees_converges (css : StyleCSS) (names : EventNames Msg) (browser : Browser Msg)
    (cs : ClientState) {path : SkyID} (hpath : path ≠ []) {old new : VNode Msg}
    (hold : old.isElement = true) (hnew : new.isElement = true) (holdClean : old.Clean)
    (hnewClean : new.Clean)
    (holdAddr : Addressable browser (applyStyleInjections css (assignSkyIDs path old)))
    (hnewAddr : Addressable browser (applyStyleInjections css (assignSkyIDs path new)))
    {doc : List DNode}
    (hdoc : canon doc = canon (domOf browser (applyStyleInjections css (assignSkyIDs path old)))) :
    ∃ doc', applyPatches browser doc
        (diffTrees names (applyStyleInjections css (assignSkyIDs path old))
          (applyStyleInjections css (assignSkyIDs path new)) cs) = some doc' ∧
      canon doc' = canon (domOf browser (applyStyleInjections css (assignSkyIDs path new))) := by
  obtain ⟨holdRoot, holdID⟩ := view_root css path hold
  obtain ⟨hnewRoot, hnewID⟩ := view_root css path hnew
  have hcomp : Comparable browser (applyStyleInjections css (assignSkyIDs path old))
      (applyStyleInjections css (assignSkyIDs path new)) :=
    ⟨view_of_clean css hpath holdClean holdAddr, view_of_clean css hpath hnewClean hnewAddr,
      holdRoot, hnewRoot, holdID.trans hnewID.symm⟩
  exact (converges_diffNodes hcomp).reaches doc hdoc

/-- An input and two keyed rows. -/
def keyedRows (first second : String) : VNode Unit :=
  .element "div" ∅ ∅
    [.element "input" ((∅ : Attrs).insert "name" "q") ∅ [] [],
      .element "p" ((∅ : Attrs).insert "sky-key" first) ∅ [.text first] [],
      .element "p" ((∅ : Attrs).insert "sky-key" second) ∅ [.text second] []] []

def plainNames : EventNames Unit := ⟨fun _ => "msg", fun _ => "handler"⟩

/-- A browser for fragments without tags, but for one that brings a sky-id. -/
def plainBrowser : Browser Unit :=
  ⟨fun s => if s = "<i>" then [.element "i" (some "r.1#p".toList) []] else [.text s], fun _ => ""⟩

theorem clean_of_tags {n : VNode Unit} {l : List String} (h : n.tags = l)
    (htags : ∀ tag ∈ l, tag.toList.all (fun c => c ∉ ['.', '#', ':', '~']) = true) :
    n.Clean := by
  intro tag htag c hc
  rw [h] at htag
  simpa using List.all_eq_true.mp (htags tag htag) c hc

theorem plain_of_lookups {tag : String} {attrs : Attrs} {children : List (VNode Unit)}
    (htag : tag ∉ ["!doctype-wrapper", "style", "script", "textarea"])
    (hattr : attrs.lookup "sky-id" = none) (hvoid : isVoidTag tag = true → children = []) :
    Plain tag attrs ∅ children where
  wrapper h := htag (by rw [h]; decide)
  attr := hattr
  event := rfl
  void := hvoid
  textOnly h := by
    simp only [isTextOnly, Bool.or_eq_true, decide_eq_true_eq] at h
    simp only [List.mem_cons, not_or] at htag
    rcases h with (h | h) | h
    · exact (htag.2.1 h).elim
    · exact (htag.2.2.1 h).elim
    · exact (htag.2.2.2.1 h).elim

theorem addressable_row (key : String) (id : SkyID) : Addressable plainBrowser
    (.element "p" ((∅ : Attrs).insert "sky-key" key) ∅ [.text key] id) := by
  refine .element (plain_of_lookups (by decide) rfl (fun h => absurd h (by decide))) fun _ c hc => ?_
  obtain rfl := List.mem_singleton.mp hc
  exact .text key

theorem addressable_rows (first second : String) (ids : SkyID × SkyID × SkyID) :
    Addressable plainBrowser (.element "div" ∅ ∅
      [.element "input" ((∅ : Attrs).insert "name" "q") ∅ [] ids.1,
        .element "p" ((∅ : Attrs).insert "sky-key" first) ∅ [.text first] ids.2.1,
        .element "p" ((∅ : Attrs).insert "sky-key" second) ∅ [.text second] ids.2.2] ['r']) := by
  refine .element (plain_of_lookups (by decide) rfl (fun h => absurd h (by decide))) fun _ c hc => ?_
  simp only [List.mem_cons, List.not_mem_nil, or_false] at hc
  rcases hc with rfl | rfl | rfl
  · exact .element (plain_of_lookups (by decide) rfl fun _ => rfl)
      fun _ c hc => absurd hc List.not_mem_nil
  · exact addressable_row first _
  · exact addressable_row second _

theorem addressable_keyedRows :
    Addressable plainBrowser
        (applyStyleInjections plainCSS (assignSkyIDs ['r'] (keyedRows "a" "b"))) ∧
      Addressable plainBrowser
        (applyStyleInjections plainCSS (assignSkyIDs ['r'] (keyedRows "b" "a"))) :=
  ⟨addressable_rows "a" "b" ("r.#input:q".toList, "r.#p:a".toList, "r.#p:b".toList),
    addressable_rows "b" "a" ("r.#input:q".toList, "r.#p:b".toList, "r.#p:a".toList)⟩

theorem clean_keyedRows (first second : String) : (keyedRows first second).Clean :=
  clean_of_tags (l := ["div", "input", "p", "p"]) rfl (by decide)

theorem diffTrees_converges_keyedRows : ∃ doc', applyPatches plainBrowser
      (domOf plainBrowser (applyStyleInjections plainCSS (assignSkyIDs ['r'] (keyedRows "a" "b"))))
      (diffTrees plainNames (applyStyleInjections plainCSS (assignSkyIDs ['r'] (keyedRows "a" "b")))
        (applyStyleInjections plainCSS (assignSkyIDs ['r'] (keyedRows "b" "a"))) ∅) = some doc' ∧
      canon doc' = canon (domOf plainBrowser
        (applyStyleInjections plainCSS (assignSkyIDs ['r'] (keyedRows "b" "a")))) :=
  diffTrees_converges plainCSS plainNames plainBrowser ∅ (by decide) rfl rfl
    (clean_keyedRows "a" "b") (clean_keyedRows "b" "a") addressable_keyedRows.1
    addressable_keyedRows.2 rfl

/-! ## Views that the patches miss -/

/-- The patches reach the page of the new view, with all text compared. -/
def Reaches (old new : VNode Unit) : Prop :=
  ∃ doc', applyPatches plainBrowser
      (domOf plainBrowser (applyStyleInjections plainCSS (assignSkyIDs ['r'] old)))
      (diffTrees plainNames (applyStyleInjections plainCSS (assignSkyIDs ['r'] old))
        (applyStyleInjections plainCSS (assignSkyIDs ['r'] new)) ∅) = some doc' ∧
    canon (showValues doc') = canon (showValues
      (domOf plainBrowser (applyStyleInjections plainCSS (assignSkyIDs ['r'] new))))

def node (tag : String) (attrs : Attrs) (children : List (VNode Unit)) : VNode Unit :=
  .element tag attrs ∅ children []

/-- One pair of views for each way not to be addressable, and one for a value. -/
def missedViews : List (VNode Unit × VNode Unit) :=
  [(node "img" ∅ [.text "a"], node "img" ∅ [.text "b"]),
    (node "!doctype-wrapper" ∅ [.text "a"], node "!doctype-wrapper" ∅ [.text "b"]),
    (node "p" ∅ [], node "p" ((∅ : Attrs).insert "sky-id" "x") []),
    (node "p" ∅ [], .element "p" ∅ ((∅ : AList fun _ : String => Unit).insert "id" ()) [] []),
    (node "script" ∅ [node "b" ∅ [.text "a"]], node "script" ∅ [node "b" ∅ [.text "b"]]),
    (node "div" ∅ [.raw "<i>", node "p" ∅ [.text "a"]],
      node "div" ∅ [.raw "<i>", node "p" ∅ [.text "b"]]),
    (node "textarea" ((∅ : Attrs).insert "value" "a") [],
      node "textarea" ((∅ : Attrs).insert "value" "b") [])]

theorem not_reaches_of_eq {old new : VNode Unit} {doc' : List DNode}
    (h : applyPatches plainBrowser
      (domOf plainBrowser (applyStyleInjections plainCSS (assignSkyIDs ['r'] old)))
      (diffTrees plainNames (applyStyleInjections plainCSS (assignSkyIDs ['r'] old))
        (applyStyleInjections plainCSS (assignSkyIDs ['r'] new)) ∅) = some doc')
    (hne : canon (showValues doc') ≠ canon (showValues
      (domOf plainBrowser (applyStyleInjections plainCSS (assignSkyIDs ['r'] new))))) :
    ¬ Reaches old new := by
  rintro ⟨doc'', hdoc, hcanon⟩
  obtain rfl := Option.some.inj (h.symm.trans hdoc)
  exact hne hcanon

theorem not_reaches_of_none {old new : VNode Unit}
    (h : applyPatches plainBrowser
      (domOf plainBrowser (applyStyleInjections plainCSS (assignSkyIDs ['r'] old)))
      (diffTrees plainNames (applyStyleInjections plainCSS (assignSkyIDs ['r'] old))
        (applyStyleInjections plainCSS (assignSkyIDs ['r'] new)) ∅) = none) :
    ¬ Reaches old new := by
  rintro ⟨doc'', hdoc, -⟩
  rw [h] at hdoc
  cases hdoc

theorem diffTrees_misses :
    missedViews.Forall fun views => views.1.Clean ∧ views.2.Clean ∧ ¬ Reaches views.1 views.2 := by
  refine ⟨⟨?_, ?_, ?_⟩, ⟨?_, ?_, ?_⟩, ⟨?_, ?_, ?_⟩, ⟨?_, ?_, ?_⟩, ⟨?_, ?_, ?_⟩, ⟨?_, ?_, ?_⟩,
    ⟨?_, ?_, ?_⟩⟩
  · exact clean_of_tags (l := ["img"]) rfl (by decide)
  · exact clean_of_tags (l := ["img"]) rfl (by decide)
  · exact not_reaches_of_eq rfl nofun
  · exact clean_of_tags (l := ["!doctype-wrapper"]) rfl (by decide)
  · exact clean_of_tags (l := ["!doctype-wrapper"]) rfl (by decide)
  · exact not_reaches_of_none rfl
  · exact clean_of_tags (l := ["p"]) rfl (by decide)
  · exact clean_of_tags (l := ["p"]) rfl (by decide)
  · refine not_reaches_of_eq rfl fun h => ?_
    injection h with h
    injection h with _ hid
    revert hid
    decide
  · exact clean_of_tags (l := ["p"]) rfl (by decide)
  · exact clean_of_tags (l := ["p"]) rfl (by decide)
  · refine not_reaches_of_eq rfl fun h => ?_
    injection h with h
    injection h with _ hid
    revert hid
    decide
  · exact clean_of_tags (l := ["script", "b"]) rfl (by decide)
  · exact clean_of_tags (l := ["script", "b"]) rfl (by decide)
  · exact not_reaches_of_none rfl
  · exact clean_of_tags (l := ["div", "p"]) rfl (by decide)
  · exact clean_of_tags (l := ["div", "p"]) rfl (by decide)
  · refine not_reaches_of_eq rfl fun h => ?_
    injection h with h
    injection h with _ _ hkids
    injection hkids with hraw
    injection hraw with _ _ hkids
    cases hkids
  · exact clean_of_tags (l := ["textarea"]) rfl (by decide)
  · exact clean_of_tags (l := ["textarea"]) rfl (by decide)
  · refine not_reaches_of_eq rfl fun h => ?_
    injection h with h
    injection h with _ _ hkids
    injection hkids with htext
    injection htext with htext
    revert htext
    decide

end Sky.Live
