import Mathlib
import Sky.Library.DottedPath
import Sky.Model.VNode

/-! # The ids that `assignSkyIDs` stamps

Segments have no dot and differ between siblings, so no two elements get one id. -/

namespace Sky.Live

open Sky.Library DottedPath

variable {Msg : Type*}

/-! ## The tree -/

theorem VNode.induct {P : VNode Msg → Prop} (text : ∀ s, P (.text s)) (raw : ∀ s, P (.raw s))
    (element : ∀ tag attrs events children skyID, (∀ c ∈ children, P c) →
      P (.element tag attrs events children skyID)) : ∀ n, P n
  | .text s => text s
  | .raw s => raw s
  | .element tag attrs events children skyID =>
      element tag attrs events children skyID fun c _ => VNode.induct text raw element c

mutual

/-- The sky-ids of the elements, in document order. -/
def VNode.ids : VNode Msg → List SkyID
  | .text _ => []
  | .raw _ => []
  | .element _ _ _ children skyID => skyID :: idsAll children

def idsAll : List (VNode Msg) → List SkyID
  | [] => []
  | c :: cs => c.ids ++ idsAll cs

end

mutual

def VNode.tags : VNode Msg → List String
  | .text _ => []
  | .raw _ => []
  | .element tag _ _ children _ => tag :: tagsAll children

def tagsAll : List (VNode Msg) → List String
  | [] => []
  | c :: cs => c.tags ++ tagsAll cs

end

theorem idsAll_eq (cs : List (VNode Msg)) : idsAll cs = cs.flatMap VNode.ids := by
  induction cs with
  | nil => rfl
  | cons c cs ih => rw [idsAll, ih, List.flatMap_cons]

theorem tagsAll_eq (cs : List (VNode Msg)) : tagsAll cs = cs.flatMap VNode.tags := by
  induction cs with
  | nil => rfl
  | cons c cs ih => rw [tagsAll, ih, List.flatMap_cons]

@[simp] theorem idsAll_append (cs ds : List (VNode Msg)) :
    idsAll (cs ++ ds) = idsAll cs ++ idsAll ds := by
  rw [idsAll_eq, idsAll_eq, idsAll_eq, List.flatMap_append]

/-- No character of the sky-id grammar. -/
def CleanTag (tag : String) : Prop := ∀ c ∈ tag.toList, c ∉ ['.', '#', ':', '~']

/-- Every tag of the tree is free of the grammar characters. -/
def VNode.Clean (n : VNode Msg) : Prop := ∀ tag ∈ n.tags, CleanTag tag

theorem VNode.Clean.child {tag : String} {attrs : Attrs} {events : AList fun _ : String => Msg}
    {children : List (VNode Msg)} {skyID : SkyID} {c : VNode Msg}
    (h : (VNode.element tag attrs events children skyID).Clean) (hc : c ∈ children) : c.Clean := by
  intro t ht
  refine h t (List.mem_cons_of_mem _ ?_)
  rw [tagsAll_eq]
  exact List.mem_flatMap.mpr ⟨c, hc, ht⟩

/-! ## Segments -/

theorem mem_sanitiseSkyIDKey {s : String} {c : Char} (h : c ∈ sanitiseSkyIDKey s) :
    c ≠ '.' ∧ c ≠ '~' := by
  obtain ⟨r, -, rfl⟩ := List.mem_map.mp h
  split_ifs with hr
  · constructor
    · rintro rfl
      simp at hr
    · rintro rfl
      simp at hr
  · decide

theorem mem_skyIDKey {tag : String} {attrs : Attrs} {c : Char} (h : c ∈ skyIDKey tag attrs) :
    c ≠ '.' ∧ c ≠ '~' := by
  rw [skyIDKey] at h
  split_ifs at h
  · exact mem_sanitiseSkyIDKey h
  · exact mem_sanitiseSkyIDKey h
  · cases h

theorem isDigit_of_mem_itoa {n : ℕ} {c : Char} (h : c ∈ itoa n) : c.isDigit = true :=
  Nat.isDigit_of_mem_toDigits (by decide) (by decide) h

theorem itoa_injective : Function.Injective itoa := by
  intro m n h
  have := congrArg (Nat.ofDigitChars 10 · 0) h
  simpa only [itoa, Nat.ofDigitChars_ten_toDigits] using this

/-- The segment of an element is a dot and no other one, and it has no tilde. -/
theorem segment_eq {names : List (List Char)} {i : ℕ} {tag : String} {attrs : Attrs}
    {events : AList fun _ : String => Msg} {children : List (VNode Msg)} {skyID : SkyID}
    (htag : CleanTag tag) :
    ∃ s, segment names i (.element tag attrs events children skyID) = '.' :: s ∧
      '.' ∉ s ∧ '~' ∉ s := by
  have hfree : ∀ c ∈ tag.toList, c ≠ '.' ∧ c ≠ '~' := by
    intro c hc
    have := htag c hc
    simp only [List.mem_cons, not_or] at this
    exact ⟨this.1, this.2.2.2.1⟩
  have hdigit : ∀ c ∈ itoa i, c ≠ '.' ∧ c ≠ '~' := by
    intro c hc
    have := isDigit_of_mem_itoa hc
    constructor <;> rintro rfl <;> cases this
  have hkey : ∀ c ∈ skyIDKey tag attrs, c ≠ '.' ∧ c ≠ '~' := fun c hc => mem_skyIDKey hc
  simp only [segment]
  split_ifs
  all_goals
    refine ⟨_, rfl, ?_, ?_⟩
    all_goals
      simp only [List.mem_append, List.mem_cons, not_or]
      grind

/-! ## Siblings -/

/-- The name under which `seen` counts a keyed element. -/
theorem keyedNames_cons (c : VNode Msg) (cs : List (VNode Msg)) :
    keyedNames (c :: cs) = keyedNames [c] ++ keyedNames cs := by
  rw [keyedNames, ← List.singleton_append, List.filterMap_append]
  rfl

/-- A segment starts with its index, or it is the name of an element that no
sibling shares. -/
theorem segment_cases (names : List (List Char)) (i : ℕ) (tag : String) (attrs : Attrs)
    (events : AList fun _ : String => Msg) (children : List (VNode Msg)) (skyID : SkyID) :
    (∃ rest, segment names i (.element tag attrs events children skyID) =
      '.' :: (itoa i ++ '#' :: rest)) ∨
    ∃ name, segment names i (.element tag attrs events children skyID) = '.' :: '#' :: name ∧
      keyedNames [.element tag attrs events children skyID] = [name] ∧
      (names.length ≤ 1 ∨ names.count name = 1) := by
  simp only [segment]
  split_ifs with hkey hunique
  · exact .inl ⟨_, rfl⟩
  · refine .inr ⟨_, rfl, ?_, hunique⟩
    simp [keyedNames, hkey]
  · exact .inl ⟨_, rfl⟩

theorem hash_notMem_itoa (n : ℕ) : '#' ∉ itoa n := by
  intro h
  cases isDigit_of_mem_itoa h

theorem itoa_append_inj {i j : ℕ} {r t : List Char} (h : itoa i ++ '#' :: r = itoa j ++ '#' :: t) :
    i = j :=
  itoa_injective (eq_of_append_tail (hash_notMem_itoa i) (hash_notMem_itoa j) (.inr ⟨r, rfl⟩)
    (.inr ⟨t, rfl⟩) h)

theorem itoa_append_ne {i : ℕ} {r t : List Char} : itoa i ++ '#' :: r ≠ '#' :: t := by
  intro h
  have hnil : itoa i = [] :=
    eq_of_append_tail (t := []) (hash_notMem_itoa i) (List.not_mem_nil) (.inr ⟨r, rfl⟩)
      (.inr ⟨t, rfl⟩) h
  exact Nat.toDigits_ne_nil hnil

/-- Elements in different slots have different segments when the names of both are
among the counted ones. -/
theorem segment_ne {names : List (List Char)} {i j : ℕ} {c d : VNode Msg} (hij : i ≠ j)
    (hnames : (keyedNames [c] ++ keyedNames [d]).Sublist names) (hc : c.ids ≠ [])
    (hd : d.ids ≠ []) : segment names i c ≠ segment names j d := by
  cases c with
  | text s => exact absurd rfl hc
  | raw s => exact absurd rfl hc
  | element tag attrs events children skyID =>
      cases d with
      | text s => exact absurd rfl hd
      | raw s => exact absurd rfl hd
      | element tag' attrs' events' children' skyID' =>
          intro h
          rcases segment_cases names i tag attrs events children skyID with
            ⟨r, hr⟩ | ⟨name, hr, hname, hunique⟩ <;>
          rcases segment_cases names j tag' attrs' events' children' skyID' with
            ⟨t, ht⟩ | ⟨name', ht, hname', -⟩ <;>
          rw [hr, ht] at h
          · exact hij (itoa_append_inj (List.cons.inj h).2)
          · exact itoa_append_ne (List.cons.inj h).2
          · exact itoa_append_ne (List.cons.inj h).2.symm
          · obtain rfl := (List.cons.inj (List.cons.inj h).2).2
            rw [hname, hname'] at hnames
            have hlen := hnames.length_le
            have hcount := hnames.count_le name
            simp only [List.singleton_append, List.length_cons, List.length_nil,
              List.count_cons_self, List.count_nil] at hlen hcount
            omega

/-! ## Stamping -/

/-- What stamping a node with a path gives: all ids lie within the path, differ, and
have no tilde beyond it. -/
structure Stamped (path : SkyID) (ids : List SkyID) : Prop where
  nodup : ids.Nodup
  tails : ∀ x ∈ ids, ∃ w, Tail '.' w ∧ x = path ++ w ∧ '~' ∉ w

/-- The ids of the children from slot `i` on: they differ, and each lies within the
segment of the child it comes from. -/
structure ChildrenStamped (path : SkyID) (names : List (List Char)) (i : ℕ) (cs : List (VNode Msg))
    (ids : List SkyID) : Prop where
  nodup : ids.Nodup
  tails : ∀ x ∈ ids, ∃ k c, cs[k]? = some c ∧ c.ids ≠ [] ∧
    ∃ w, Tail '.' w ∧ x = path ++ segment names (i + k) c ++ w ∧ '~' ∉ w

@[simp] theorem ids_markOption (sv : String) (n : VNode Msg) : (markOption sv n).ids = n.ids := by
  cases n with
  | text s => rfl
  | raw s => rfl
  | element tag attrs events children skyID =>
      simp only [markOption]
      split_ifs <;> rfl

theorem idsAll_markSelectedOptions (attrs : Attrs) (cs : List (VNode Msg)) :
    idsAll (markSelectedOptions attrs cs) = idsAll cs := by
  rw [markSelectedOptions]
  split_ifs
  · rfl
  · rw [idsAll_eq, idsAll_eq, List.flatMap_map]
    simp only [ids_markOption]

theorem ids_assignSkyIDs_element (path : SkyID) (tag : String) (attrs : Attrs)
    (events : AList fun _ : String => Msg) (children : List (VNode Msg)) (skyID : SkyID) :
    (assignSkyIDs path (.element tag attrs events children skyID)).ids =
      path :: idsAll (assignChildren path (keyedNames children) 0 children) := by
  simp only [assignSkyIDs, VNode.ids]
  split_ifs
  · rw [idsAll_markSelectedOptions]
  · rfl

theorem ids_ne_nil_of_mem {path x : SkyID} {c : VNode Msg} (h : x ∈ (assignSkyIDs path c).ids) :
    c.ids ≠ [] := by
  cases c with
  | text s => cases h
  | raw s => cases h
  | element tag attrs events children skyID => exact List.cons_ne_nil _ _

theorem VNode.Clean.segment {c : VNode Msg} (h : c.Clean) (names : List (List Char)) (i : ℕ)
    (hc : c.ids ≠ []) : ∃ s, segment names i c = '.' :: s ∧ '.' ∉ s ∧ '~' ∉ s := by
  cases c with
  | text s => exact absurd rfl hc
  | raw s => exact absurd rfl hc
  | element tag attrs events children skyID =>
      exact segment_eq (h tag (List.mem_cons_self ..))

theorem keyedNames_sublist {c d : VNode Msg} {cs : List (VNode Msg)} {names : List (List Char)}
    (h : (keyedNames (c :: cs)).Sublist names) (hd : d ∈ cs) :
    (keyedNames [c] ++ keyedNames [d]).Sublist names := by
  rw [keyedNames_cons] at h
  have hsub : (keyedNames [d]).Sublist (keyedNames cs) :=
    (List.singleton_sublist.mpr hd).filterMap _
  exact (hsub.append_left _).trans h

theorem childrenStamped (path : SkyID) {names : List (List Char)} (cs : List (VNode Msg)) (i : ℕ)
    (hclean : ∀ c ∈ cs, c.Clean) (hstamp : ∀ c ∈ cs, ∀ p, Stamped p (assignSkyIDs p c).ids)
    (hnames : (keyedNames cs).Sublist names) :
    ChildrenStamped path names i cs (idsAll (assignChildren path names i cs)) := by
  induction cs generalizing i with
  | nil => exact ⟨List.nodup_nil, nofun⟩
  | cons c cs ih =>
      have hhead := hstamp c (List.mem_cons_self ..) (path ++ segment names i c)
      have hrest := ih (i + 1) (fun d hd => hclean d (List.mem_cons_of_mem _ hd))
        (fun d hd => hstamp d (List.mem_cons_of_mem _ hd))
        ((by rw [keyedNames_cons]; exact List.sublist_append_right _ _ :
          (keyedNames cs).Sublist (keyedNames (c :: cs))).trans hnames)
      rw [assignChildren, idsAll]
      constructor
      · refine List.nodup_append.mpr ⟨hhead.nodup, hrest.nodup, ?_⟩
        rintro x hx _ hy rfl
        obtain ⟨w, hw, hxw, -⟩ := hhead.tails x hx
        obtain ⟨k, d, hk, hd, v, hv, hxv, -⟩ := hrest.tails x hy
        have hmem := List.mem_of_getElem? hk
        have hc := ids_ne_nil_of_mem hx
        obtain ⟨s, hs, hsdot, -⟩ :=
          (hclean c (List.mem_cons_self ..)).segment names i hc
        obtain ⟨t, ht, htdot, -⟩ :=
          (hclean d (List.mem_cons_of_mem _ hmem)).segment names (i + 1 + k) hd
        have hxs : Within '.' (path ++ '.' :: s) x := ⟨w, hw, by rw [hxw, hs]⟩
        have hxt : Within '.' (path ++ '.' :: t) x := ⟨v, hv, by rw [hxv, ht]⟩
        have hst : s = t := Within.sibling_eq hsdot htdot hxs hxt
        refine segment_ne (i := i) (j := i + 1 + k) (by omega) (keyedNames_sublist hnames hmem) hc
          hd ?_
        rw [hs, ht, hst]
      · intro x hx
        rcases List.mem_append.mp hx with hx | hx
        · obtain ⟨w, hw, hxw, htilde⟩ := hhead.tails x hx
          exact ⟨0, c, rfl, ids_ne_nil_of_mem hx, w, hw, hxw, htilde⟩
        · obtain ⟨k, d, hk, hd, v, hv, hxv, htilde⟩ := hrest.tails x hx
          refine ⟨k + 1, d, hk, hd, v, hv, ?_, htilde⟩
          rw [hxv, Nat.add_right_comm, Nat.add_assoc]

theorem stamped_assignSkyIDs {n : VNode Msg} (hclean : n.Clean) (path : SkyID) :
    Stamped path (assignSkyIDs path n).ids := by
  induction n using VNode.induct generalizing path with
  | text s => exact ⟨List.nodup_nil, nofun⟩
  | raw s => exact ⟨List.nodup_nil, nofun⟩
  | element tag attrs events children skyID ih =>
      have hcs : ∀ c ∈ children, c.Clean := fun c hc => hclean.child hc
      have hspec := childrenStamped path children 0 hcs
        (fun c hc p => ih c hc (hcs c hc) p) (List.Sublist.refl _)
      have htails : ∀ x ∈ idsAll (assignChildren path (keyedNames children) 0 children),
          ∃ w, x = path ++ '.' :: w ∧ '~' ∉ w := by
        intro x hx
        obtain ⟨k, c, hk, hc, w, hw, hxw, htilde⟩ := hspec.tails x hx
        obtain ⟨s, hs, -, hstilde⟩ :=
          (hcs c (List.mem_of_getElem? hk)).segment (keyedNames children) (0 + k) hc
        refine ⟨s ++ w, by rw [hxw, hs, List.append_assoc]; rfl, ?_⟩
        rw [List.mem_append, not_or]
        exact ⟨hstilde, htilde⟩
      rw [ids_assignSkyIDs_element]
      constructor
      · refine List.nodup_cons.mpr ⟨fun hmem => ?_, hspec.nodup⟩
        obtain ⟨w, hw, -⟩ := htails path hmem
        have := congrArg List.length hw
        simp at this
      · intro x hx
        rcases List.mem_cons.mp hx with rfl | hx
        · exact ⟨[], .inl rfl, (List.append_nil x).symm, List.not_mem_nil⟩
        · obtain ⟨w, hw, htilde⟩ := htails x hx
          exact ⟨'.' :: w, .inr ⟨w, rfl⟩, hw, by simpa using htilde⟩

end Sky.Live
