import Sky.Verification.Hydration.Texts

/-! # The hydrated page lines up with the client's tree -/

namespace Sky.Hydration

open Library Utf8

/-! ## What lines up -/

/-- What the parser makes of a text child, after the newline that starts some elements. -/
def shownText (tag : Bytes) (drop : Bool) (c : VNode) : Bytes :=
  let t := spaParsedText tag c.text
  if drop ∧ t ≠ [] then trimNewline t else t

/-- Whether the newline is still to come after a text child. -/
def stillDrops (tag : Bytes) (drop : Bool) (c : VNode) : Bool :=
  if drop ∧ spaParsedText tag c.text ≠ [] then false else drop

def dropsNewline (tag : Bytes) : Bool :=
  tag = ascii "pre" ∨ tag = ascii "listing" ∨ tag = ascii "textarea"

/-- The children behind the server's CSRF input of a form. -/
def afterCsrf (tag : Bytes) (children : List Dom) : List Dom :=
  if tag = ascii "form" then spaSkipServerCsrfInput children else children

mutual

/-- The element shows the node: `own` says what its attributes have to be. -/
inductive Lined (own : VNode → Attributes → Prop) : VNode → Dom → Prop where
  | closed {v : VNode} {id : ℕ} {attrs : Attributes} {children : List Dom} (h : v.closed = true)
      (hown : own v attrs) : Lined own v (.element id v.tag attrs children)
  | opened {v : VNode} {id : ℕ} {attrs : Attributes} {children : List Dom}
      (h : v.closed = false) (hown : own v attrs)
      (kids : LinedAll own v.tag (dropsNewline v.tag) v.children (afterCsrf v.tag children)) :
      Lined own v (.element id v.tag attrs children)

/-- One element for each element child and one text node for each text that shows, in order. -/
inductive LinedAll (own : VNode → Attributes → Prop) :
    Bytes → Bool → List VNode → List Dom → Prop where
  | nil {tag : Bytes} {drop : Bool} : LinedAll own tag drop [] []
  | element {tag : Bytes} {drop : Bool} {c : VNode} {cs : List VNode} {dom : Dom} {doms : List Dom}
      (hk : c.kind ≠ .text) (first : Lined own c dom) (rest : LinedAll own tag false cs doms) :
      LinedAll own tag drop (c :: cs) (dom :: doms)
  | empty {tag : Bytes} {drop : Bool} {c : VNode} {cs : List VNode} {doms : List Dom}
      (hk : c.kind = .text) (h : shownText tag drop c = [])
      (rest : LinedAll own tag (stillDrops tag drop c) cs doms) : LinedAll own tag drop (c :: cs) doms
  | text {tag : Bytes} {drop : Bool} {c : VNode} {cs : List VNode} {data : List Char}
      {doms : List Dom} (hk : c.kind = .text) (hne : shownText tag drop c ≠ [])
      (h : encode data = shownText tag drop c)
      (rest : LinedAll own tag (stillDrops tag drop c) cs doms) :
      LinedAll own tag drop (c :: cs) (.text data :: doms)

end

/-- The sky-id, if there is one, and every attribute of the tree. -/
def AllAttrs (v : VNode) (attrs : Attributes) : Prop :=
  (v.skyID ≠ [] → attrs.lookup (ascii "sky-id") = some v.skyID) ∧
    ∀ kv ∈ v.attrs, attrs.lookup kv.1 = some kv.2

/-- The same, without the value of a `select` or a `textarea`, which is a property. -/
def ShownAttrs (v : VNode) (attrs : Attributes) : Prop :=
  (v.skyID ≠ [] → attrs.lookup (ascii "sky-id") = some v.skyID) ∧
    ∀ kv ∈ v.attrs, skipsAttr v.tag kv.1 = false → attrs.lookup kv.1 = some kv.2

/-- The texts of the tree are in UTF-8. -/
inductive VNode.Valid : VNode → Prop where
  | mk {kind : Kind} {tag text : Bytes} {attrs : Attributes} {children : List VNode}
      {skyID : Bytes} (own : kind = .text → ValidText text)
      (kids : ∀ c ∈ children, VNode.Valid c) :
      VNode.Valid (.mk kind tag text attrs children skyID)

/-! ## What stays -/

/-- An element and the elements below it. -/
inductive Shape where
  | mk (id : ℕ) (tag : Bytes) (attrs : Attributes) (children : List Shape)

mutual

def Dom.shapes : Dom → List Shape
  | .element id tag attrs children => [.mk id tag attrs (shapesAll children)]
  | .text _ => []

def shapesAll : List Dom → List Shape
  | [] => []
  | d :: ds => d.shapes ++ shapesAll ds

end

mutual

/-- The text of the page, read in order. -/
def Dom.pageText : Dom → List Char
  | .element _ _ _ children => pageTextAll children
  | .text data => data

def pageTextAll : List Dom → List Char
  | [] => []
  | d :: ds => d.pageText ++ pageTextAll ds

end

theorem shapesAll_append (ds es : List Dom) :
    shapesAll (ds ++ es) = shapesAll ds ++ shapesAll es := by
  induction ds with
  | nil => rfl
  | cons d ds ih => rw [List.cons_append, shapesAll, shapesAll, ih, List.append_assoc]

theorem pageTextAll_append (ds es : List Dom) :
    pageTextAll (ds ++ es) = pageTextAll ds ++ pageTextAll es := by
  induction ds with
  | nil => rfl
  | cons d ds ih => rw [List.cons_append, pageTextAll, pageTextAll, ih, List.append_assoc]

/-- Two child lists with the same elements and the same text. -/
structure Keeps (ds es : List Dom) : Prop where
  shapes : shapesAll es = shapesAll ds
  text : pageTextAll es = pageTextAll ds

theorem Keeps.refl (ds : List Dom) : Keeps ds ds := ⟨rfl, rfl⟩

theorem Keeps.append {ds es ds' es' : List Dom} (h : Keeps ds es) (h' : Keeps ds' es') :
    Keeps (ds ++ ds') (es ++ es') := by
  refine ⟨?_, ?_⟩
  · rw [shapesAll_append, shapesAll_append, h.shapes, h'.shapes]
  · rw [pageTextAll_append, pageTextAll_append, h.text, h'.text]

/-! ## Slots -/

/-- One node that the client's tree has in a child list. -/
inductive Item where
  | child (i : ℕ)
  | text (t : Bytes)

def Slot.items : Slot → List Item
  | .child i => [.child i]
  | .texts ts => ts.map .text

/-- The items of the children from number `i` on. -/
def itemsFrom (tag : Bytes) : Bool → ℕ → List VNode → List Item
  | _, _, [] => []
  | drop, i, c :: cs =>
      if c.kind ≠ .text then .child i :: itemsFrom tag false (i + 1) cs
      else
        (if shownText tag drop c = [] then [] else [.text (shownText tag drop c)]) ++
          itemsFrom tag (stillDrops tag drop c) (i + 1) cs

/-- A run holds at least one text. -/
def Slot.Full : Slot → Prop
  | .child _ => True
  | .texts ts => ts ≠ []

theorem pushText_items (slots : List Slot) (t : Bytes) :
    (pushText slots t).flatMap Slot.items = slots.flatMap Slot.items ++ [.text t] := by
  rw [pushText]
  split
  · rename_i ts hlast
    obtain ⟨front, rfl⟩ := List.getLast?_eq_some_iff.mp hlast
    rw [List.dropLast_concat, List.flatMap_append, List.flatMap_append]
    simp [Slot.items]
  · simp [Slot.items]

theorem pushText_full {slots : List Slot} (h : ∀ s ∈ slots, s.Full) (t : Bytes) :
    ∀ s ∈ pushText slots t, s.Full := by
  intro s hs
  rw [pushText] at hs
  split at hs
  · rcases List.mem_append.mp hs with hs | hs
    · exact h s (List.mem_of_mem_dropLast hs)
    · rw [List.mem_singleton.mp hs]
      exact List.append_ne_nil_of_right_ne_nil _ (List.cons_ne_nil _ _)
  · rcases List.mem_append.mp hs with hs | hs
    · exact h s hs
    · rw [List.mem_singleton.mp hs]
      exact List.cons_ne_nil _ _

/-- The slots hold the items of the children, in order. -/
theorem addSlot_foldl (tag : Bytes) (cs : List VNode) (slots : List Slot) (drop : Bool) (i : ℕ)
    (hfull : ∀ s ∈ slots, s.Full) :
    (((cs.zipIdx i).foldl (addSlot tag) (slots, drop)).1.flatMap Slot.items =
        slots.flatMap Slot.items ++ itemsFrom tag drop i cs) ∧
      ∀ s ∈ ((cs.zipIdx i).foldl (addSlot tag) (slots, drop)).1, s.Full := by
  induction cs generalizing slots drop i with
  | nil => exact ⟨by simp [itemsFrom], hfull⟩
  | cons c cs ih =>
      rw [List.zipIdx_cons, List.foldl_cons]
      by_cases hk : c.kind ≠ .text
      · rw [addSlot, if_pos hk, itemsFrom, if_pos hk]
        have hfull' : ∀ s ∈ slots ++ [Slot.child i], s.Full := by
          intro s hs
          rcases List.mem_append.mp hs with hs | hs
          · exact hfull s hs
          · rw [List.mem_singleton.mp hs]
            trivial
        obtain ⟨hitems, hall⟩ := ih (slots ++ [.child i]) false (i + 1) hfull'
        refine ⟨?_, hall⟩
        rw [hitems, List.flatMap_append]
        simp [Slot.items]
      · rw [itemsFrom, if_neg hk]
        have hadd : addSlot tag (slots, drop) (c, i) =
            (if shownText tag drop c = [] then slots else pushText slots (shownText tag drop c),
              stillDrops tag drop c) := by
          rw [addSlot, if_neg hk, shownText, stillDrops]
          simp only
          split <;> split <;> rfl
        rw [hadd]
        by_cases hempty : shownText tag drop c = []
        · rw [if_pos hempty, if_pos hempty, List.nil_append]
          exact ih slots (stillDrops tag drop c) (i + 1) hfull
        · rw [if_neg hempty, if_neg hempty]
          obtain ⟨hitems, hall⟩ := ih (pushText slots (shownText tag drop c))
            (stillDrops tag drop c) (i + 1) (pushText_full hfull _)
          refine ⟨?_, hall⟩
          rw [hitems, pushText_items, List.append_assoc]

theorem spaSSRSlots_items (v : VNode) :
    (spaSSRSlots v).flatMap Slot.items = itemsFrom v.tag (dropsNewline v.tag) 0 v.children := by
  have hslots := (addSlot_foldl v.tag v.children [] (dropsNewline v.tag) 0 (by simp)).1
  rw [List.flatMap_nil, List.nil_append] at hslots
  exact hslots

theorem spaSSRSlots_full (v : VNode) : ∀ s ∈ spaSSRSlots v, s.Full :=
  (addSlot_foldl v.tag v.children [] (dropsNewline v.tag) 0 (by simp)).2

/-- The texts of the slots are valid. -/
theorem itemsFrom_valid (tag : Bytes) (drop : Bool) (i : ℕ) {cs : List VNode}
    (h : ∀ c ∈ cs, c.Valid) {t : Bytes} (ht : Item.text t ∈ itemsFrom tag drop i cs) :
    ValidText t := by
  induction cs generalizing drop i with
  | nil => exact absurd ht List.not_mem_nil
  | cons c cs ih =>
      have hrest : ∀ d ∈ cs, d.Valid := fun d hd => h d (List.mem_cons_of_mem _ hd)
      rw [itemsFrom] at ht
      split at ht
      · rcases List.mem_cons.mp ht with heq | ht
        · exact absurd heq (by simp)
        · exact ih _ _ hrest ht
      · rename_i hk
        rcases List.mem_append.mp ht with ht | ht
        · have htext : ValidText c.text := by
            cases h c List.mem_cons_self with
            | mk own _ => exact own (not_not.mp hk)
          split at ht
          · exact absurd ht List.not_mem_nil
          · rw [List.mem_singleton] at ht
            rw [Item.text.inj ht, shownText]
            split
            · exact (htext.parsed tag).trimNewline
            · exact htext.parsed tag
        · exact ih _ _ hrest ht

/-! ## The two walks -/

theorem spaHydrationParityAll_eq (cs : List VNode) :
    spaHydrationParityAll cs = cs.map spaHydrationParity := by
  induction cs with
  | nil => rfl
  | cons c cs ih => rw [spaHydrationParityAll, ih, List.map_cons]

theorem spaHydrateTextRunsAll_eq (cs : List VNode) :
    spaHydrateTextRunsAll cs = cs.map spaHydrateTextRuns := by
  induction cs with
  | nil => rfl
  | cons c cs ih => rw [spaHydrateTextRunsAll, ih, List.map_cons]

/-- A run of texts is split into one node for each of them. -/
theorem split_run {css : List (List Char)} {last : List Char} (before rest : List Dom) :
    (css.map encode).foldlM (fun c part => Cursor.split c (spaUTF16Len part))
        ⟨before, .text (css.flatten ++ last), rest⟩ =
      some ⟨before ++ css.map Dom.text, .text last, rest⟩ := by
  induction css generalizing before with
  | nil => simp
  | cons cs css ih =>
      rw [List.map_cons, List.foldlM_cons]
      have hsplit : Cursor.split ⟨before, .text ((cs :: css).flatten ++ last), rest⟩
          (spaUTF16Len (encode cs)) =
          some ⟨before ++ [.text cs], .text (css.flatten ++ last), rest⟩ := by
        rw [Cursor.split, Dom.splitText, spaUTF16Len_encode, List.flatten_cons, List.append_assoc,
          cut_units]
        rfl
      rw [hsplit]
      refine (ih (before ++ [.text cs])).trans ?_
      rw [List.map_cons, List.append_assoc, List.singleton_append]

theorem encode_flatten (css : List (List Char)) :
    encode css.flatten = (css.map encode).flatten := by
  induction css with
  | nil => rfl
  | cons cs css ih => rw [List.flatten_cons, encode_append, ih, List.map_cons, List.flatten_cons]

theorem hydrateSlots_texts (runs : List Hydrate) (slots : List Slot) (before rest : List Dom)
    (front : List (List Char)) (last : List Char) :
    hydrateSlots runs (.texts ((front ++ [last]).map encode) :: slots) before
        (.text (front ++ [last]).flatten :: rest) =
      hydrateSlots runs slots (before ++ (front ++ [last]).map Dom.text) rest := by
  rw [hydrateSlots, List.map_append, List.map_singleton, List.dropLast_concat, List.flatten_append,
    List.flatten_singleton, split_run]
  simp only [Option.bind_eq_bind, Option.bind_some]
  rw [List.map_append, List.map_singleton, List.append_assoc]

/-- The parts of a text node stand for it. -/
theorem keeps_parts (css : List (List Char)) : Keeps [.text css.flatten] (css.map Dom.text) := by
  refine ⟨?_, ?_⟩
  · induction css with
    | nil => rfl
    | cons cs css ih => rw [List.map_cons, shapesAll, ih]; rfl
  · have hparts : pageTextAll (css.map Dom.text) = css.flatten := by
      induction css with
      | nil => rfl
      | cons cs css ih => rw [List.map_cons, pageTextAll, ih, List.flatten_cons]; rfl
    rw [hparts, pageTextAll, pageTextAll, List.append_nil]
    rfl

/-- The node stands for the item. -/
def Stands (own : VNode → Attributes → Prop) (children : List VNode) : Item → Dom → Prop
  | .child i, dom => ∃ c, children[i]? = some c ∧ Lined own c dom
  | .text t, dom => ∃ data, dom = .text data ∧ encode data = t

/-- An element keeps what it is. -/
inductive SameElement : Dom → Dom → Prop where
  | mk (id : ℕ) (tag : Bytes) (attrs : Attributes) (children children' : List Dom) :
      SameElement (.element id tag attrs children) (.element id tag attrs children')

/-- What hydration does below a node that passed the check. -/
def Hydrates (v : VNode) : Prop :=
  ∀ node rest, spaHydrationParity v (node :: rest) = .ok () → v.Valid →
    ∃ node', spaHydrateTextRuns v node = some node' ∧ Lined ShownAttrs v node' ∧
      SameElement node node' ∧ Keeps [node] [node']

theorem spaIsServerCsrfInput_same {node node' : Dom} (h : SameElement node node')
    (rest rest' : List Dom) :
    spaIsServerCsrfInput (node' :: rest') = spaIsServerCsrfInput (node :: rest) := by
  cases h
  rfl

theorem hydrateSlots_spec {v : VNode} {children : List VNode}
    (ih : ∀ c ∈ children, Hydrates c) (hvalid : ∀ c ∈ children, c.Valid) (slots : List Slot)
    (hfull : ∀ s ∈ slots, s.Full)
    (htexts : ∀ s ∈ slots, ∀ t, Item.text t ∈ s.items → ValidText t) (before doms : List Dom)
    (h : checkSlots v (children.map spaHydrationParity) slots doms = .ok ()) :
    ∃ doms', hydrateSlots (children.map spaHydrateTextRuns) slots before doms =
        some (before ++ doms') ∧
      List.Forall₂ (Stands ShownAttrs children) (slots.flatMap Slot.items) doms' ∧
      Keeps doms doms' ∧ spaIsServerCsrfInput doms' = spaIsServerCsrfInput doms := by
  induction slots generalizing before doms with
  | nil =>
      cases doms with
      | nil => exact ⟨[], rfl, .nil, .refl [], rfl⟩
      | cons dom doms => exact absurd h (by simp [checkSlots])
  | cons s slots ihs =>
      have hfull' : ∀ s ∈ slots, s.Full := fun s hs => hfull s (List.mem_cons_of_mem _ hs)
      have htexts' : ∀ s ∈ slots, ∀ t, Item.text t ∈ s.items → ValidText t :=
        fun s hs => htexts s (List.mem_cons_of_mem _ hs)
      cases doms with
      | nil => exact absurd h (by cases s <;> simp [checkSlots])
      | cons dom rest =>
          cases s with
          | child i =>
              cases hget : children[i]? with
              | none =>
                  rw [checkSlots, List.getElem?_map, hget] at h
                  exact absurd h (by simp)
              | some c =>
                  have hc : c ∈ children := List.mem_of_getElem? hget
                  rw [checkSlots, List.getElem?_map, hget] at h
                  simp only [Option.map_some] at h
                  cases hcheck : spaHydrationParity c (dom :: rest) with
                  | error e =>
                      rw [hcheck] at h
                      exact absurd h (by simp [bind, Except.bind])
                  | ok u =>
                      rw [hcheck] at h
                      obtain ⟨dom', hrun, hlined, hsame, hkeeps⟩ := ih c hc dom rest hcheck (hvalid c hc)
                      obtain ⟨doms', hrest, hstands, hkeeps', -⟩ :=
                        ihs hfull' htexts' (before ++ [dom']) rest h
                      refine ⟨dom' :: doms', ?_, ?_, hkeeps.append hkeeps',
                        spaIsServerCsrfInput_same hsame _ _⟩
                      · rw [hydrateSlots, List.getElem?_map, hget]
                        simp only [Option.map_some, Option.bind_eq_bind, Option.bind_some, hrun]
                        rw [hrest, List.append_assoc, List.singleton_append]
                      · rw [List.flatMap_cons]
                        exact .cons ⟨c, hget, hlined⟩ hstands
          | texts ts =>
              cases dom with
              | element id tag attrs ch => exact absurd h (by simp [checkSlots])
              | text data =>
                  rw [checkSlots] at h
                  split at h
                  · rename_i hdata
                    have hts : ts ≠ [] := hfull _ List.mem_cons_self
                    have hparts : ∀ l : List Bytes, (∀ t ∈ l, ValidText t) →
                        ∃ css : List (List Char), css.map encode = l := by
                      intro l
                      induction l with
                      | nil => exact fun _ => ⟨[], rfl⟩
                      | cons t l ihl =>
                          intro hall
                          obtain ⟨cs, hcs⟩ := hall t List.mem_cons_self
                          obtain ⟨css, hcss⟩ := ihl fun x hx => hall x (List.mem_cons_of_mem _ hx)
                          exact ⟨cs :: css, by rw [List.map_cons, hcs, hcss]⟩
                    obtain ⟨css, rfl⟩ := hparts ts fun t ht =>
                      htexts _ List.mem_cons_self t (List.mem_map_of_mem ht)
                    have hcss : css ≠ [] := fun heq => hts (by rw [heq, List.map_nil])
                    obtain ⟨front, last, rfl⟩ := List.eq_nil_or_concat'  css |>.resolve_left hcss
                    have hchars : data = (front ++ [last]).flatten := by
                      apply encode_injective
                      rw [hdata, encode_flatten]
                    subst hchars
                    obtain ⟨doms', hrest, hstands, hkeeps', -⟩ :=
                      ihs hfull' htexts' (before ++ (front ++ [last]).map Dom.text) rest h
                    refine ⟨(front ++ [last]).map Dom.text ++ doms', ?_, ?_,
                      (keeps_parts _).append hkeeps', ?_⟩
                    · rw [hydrateSlots_texts, hrest, List.append_assoc]
                    · rw [List.flatMap_cons]
                      refine List.rel_append ?_ hstands
                      rw [Slot.items, List.map_map, List.forall₂_map_left_iff,
                        List.forall₂_map_right_iff]
                      exact List.forall₂_same.mpr fun cs _ => ⟨cs, rfl, rfl⟩
                    · cases front <;> rfl
                  · exact absurd h (by simp)

theorem linedAll_of_stands {own : VNode → Attributes → Prop} {tag : Bytes} {drop : Bool}
    (pre cs : List VNode) {doms : List Dom}
    (h : List.Forall₂ (Stands own (pre ++ cs)) (itemsFrom tag drop pre.length cs) doms) :
    LinedAll own tag drop cs doms := by
  induction cs generalizing pre drop doms with
  | nil =>
      rw [itemsFrom] at h
      cases h
      exact .nil
  | cons c cs ih =>
      have hpre : pre ++ c :: cs = (pre ++ [c]) ++ cs := by simp
      have hlen : pre.length + 1 = (pre ++ [c]).length := by simp
      rw [itemsFrom] at h
      split at h
      · rename_i hk
        cases h with
        | cons hfirst hrest =>
            obtain ⟨c', hget, hlined⟩ := hfirst
            rw [List.getElem?_append_right le_rfl, Nat.sub_self, List.getElem?_cons_zero] at hget
            rw [← Option.some.inj hget] at hlined
            rw [hpre, hlen] at hrest
            exact .element hk hlined (ih (pre ++ [c]) hrest)
      · rename_i hk
        split at h
        · rename_i hempty
          rw [List.nil_append, hpre, hlen] at h
          exact .empty (not_not.mp hk) hempty (ih (pre ++ [c]) h)
        · rename_i hne
          rw [List.singleton_append] at h
          cases h with
          | cons hfirst hrest =>
              obtain ⟨data, rfl, hdata⟩ := hfirst
              rw [hpre, hlen] at hrest
              exact .text (not_not.mp hk) hne hdata (ih (pre ++ [c]) hrest)

theorem checkAttrs_ok {v : VNode} {node : Dom} {attrs : Attributes}
    (h : checkAttrs v node attrs = .ok ()) :
    ∀ kv ∈ attrs, skipsAttr v.tag kv.1 = false → node.attr kv.1 = some kv.2 := by
  induction attrs with
  | nil => exact fun kv hkv => absurd hkv List.not_mem_nil
  | cons kv attrs ih =>
      obtain ⟨k, want⟩ := kv
      rw [checkAttrs] at h
      intro kv hkv hskip
      split at h
      · rename_i hk
        rcases List.mem_cons.mp hkv with rfl | hkv
        · rw [hk] at hskip
          exact absurd hskip (by simp)
        · exact ih h kv hkv hskip
      · split at h
        · rename_i hk
          rcases List.mem_cons.mp hkv with rfl | hkv
          · exact hk
          · exact ih h kv hkv hskip
        · exact absurd h (by simp)

mutual

/-- Induction over a tree. -/
theorem VNode.induction {P : VNode → Prop} (h : ∀ v, (∀ c ∈ v.children, P c) → P v) : ∀ v, P v
  | .mk kind tag text attrs children skyID =>
      h (.mk kind tag text attrs children skyID) (VNode.inductionAll h children)

theorem VNode.inductionAll {P : VNode → Prop} (h : ∀ v, (∀ c ∈ v.children, P c) → P v) :
    ∀ cs : List VNode, ∀ c ∈ cs, P c
  | [], _, hc => absurd hc List.not_mem_nil
  | d :: ds, c, hc =>
      (List.mem_cons.mp hc).elim (fun heq => heq ▸ VNode.induction h d)
        (fun hmem => VNode.inductionAll h ds c hmem)

end

theorem spaHydrationParity_eq (v : VNode) :
    spaHydrationParity v = checkNode v (v.children.map spaHydrationParity) := by
  obtain ⟨kind, tag, text, attrs, children, skyID⟩ := v
  rw [spaHydrationParity, spaHydrationParityAll_eq]
  rfl

theorem spaHydrateTextRuns_eq (v : VNode) :
    spaHydrateTextRuns v = hydrateNode v (v.children.map spaHydrateTextRuns) := by
  obtain ⟨kind, tag, text, attrs, children, skyID⟩ := v
  rw [spaHydrateTextRuns, spaHydrateTextRunsAll_eq]
  rfl

theorem VNode.Valid.children {v : VNode} (h : v.Valid) : ∀ c ∈ v.children, c.Valid := by
  cases h with
  | mk _ kids => exact kids

/-- The CSRF input that the walk steps over. -/
def skippedCsrf (tag : Bytes) (children : List Dom) : List Dom :=
  if tag = ascii "form" ∧ spaIsServerCsrfInput children then children.take 1 else []

theorem skippedCsrf_append (tag : Bytes) (children : List Dom) :
    skippedCsrf tag children ++ afterCsrf tag children = children := by
  rw [skippedCsrf, afterCsrf, spaSkipServerCsrfInput]
  by_cases hform : tag = ascii "form"
  · by_cases hinput : spaIsServerCsrfInput children = true
    · rw [if_pos ⟨hform, hinput⟩, if_pos hform, if_pos hinput, ← List.drop_one,
        List.take_append_drop]
    · rw [if_neg fun h => hinput h.2, if_pos hform, if_neg hinput, List.nil_append]
  · rw [if_neg fun h => hform h.1, if_neg hform, List.nil_append]

/-- What follows the input is found again behind it. -/
theorem afterCsrf_append {tag : Bytes} {children doms : List Dom}
    (h : spaIsServerCsrfInput doms = spaIsServerCsrfInput (afterCsrf tag children)) :
    afterCsrf tag (skippedCsrf tag children ++ doms) = doms := by
  by_cases hform : tag = ascii "form"
  · by_cases hinput : spaIsServerCsrfInput children = true
    · have hskip : skippedCsrf tag children = children.take 1 := if_pos ⟨hform, hinput⟩
      rw [hskip, afterCsrf, if_pos hform, spaSkipServerCsrfInput]
      match children with
      | [] => exact absurd hinput (by simp [spaIsServerCsrfInput])
      | .text data :: rest => exact absurd hinput (by simp [spaIsServerCsrfInput])
      | .element id tag' attrs ch :: rest =>
          have hsame := spaIsServerCsrfInput_same (.mk id tag' attrs ch ch) rest doms
          rw [hinput] at hsame
          rw [List.take_succ_cons, List.take_zero, List.singleton_append, if_pos hsame,
            List.tail_cons]
    · have hskip : skippedCsrf tag children = [] := if_neg fun hboth => hinput hboth.2
      rw [afterCsrf, if_pos hform, spaSkipServerCsrfInput, if_neg hinput] at h
      rw [hskip, List.nil_append, afterCsrf, if_pos hform, spaSkipServerCsrfInput, h,
        if_neg hinput]
  · have hskip : skippedCsrf tag children = [] := if_neg fun hboth => hform hboth.1
    rw [hskip, List.nil_append, afterCsrf, if_neg hform]

theorem hydrates (v : VNode) : Hydrates v := by
  induction v using VNode.induction with
  | h v ih =>
      intro node rest h hvalid
      rw [spaHydrationParity_eq] at h
      cases node with
      | text data => exact absurd h (by simp [checkNode])
      | element id tag attrs children =>
          rw [checkNode] at h
          by_cases htag : tag ≠ v.tag
          · rw [if_pos htag] at h
            exact absurd h (by simp)
          · rw [if_neg htag] at h
            rw [not_not] at htag
            subst htag
            split at h
            · exact absurd h (by simp)
            · rename_i hsky
              cases hattrs : checkAttrs v (.element id v.tag attrs children) v.attrs with
              | error e =>
                  rw [hattrs] at h
                  exact absurd h (by simp [bind, Except.bind])
              | ok u =>
                  rw [hattrs] at h
                  have hown : ShownAttrs v attrs := by
                    refine ⟨?_, checkAttrs_ok hattrs⟩
                    intro hne
                    by_contra hdiff
                    exact hsky ⟨hne, hdiff⟩
                  rw [spaHydrateTextRuns_eq, hydrateNode]
                  by_cases hclosed : v.closed = true
                  · rw [if_pos hclosed]
                    exact ⟨_, rfl, .closed hclosed hown, .mk id v.tag attrs children children,
                      .refl _⟩
                  · rw [if_neg hclosed]
                    change (if v.closed = true then Except.ok ()
                      else checkSlots v (v.children.map spaHydrationParity) (spaSSRSlots v)
                        (afterCsrf v.tag children)) = Except.ok () at h
                    rw [if_neg hclosed] at h
                    have htexts : ∀ s ∈ spaSSRSlots v, ∀ t, Item.text t ∈ s.items → ValidText t := by
                      intro s hs t ht
                      refine itemsFrom_valid v.tag (dropsNewline v.tag) 0
                        hvalid.children ?_
                      rw [← spaSSRSlots_items]
                      exact List.mem_flatMap.mpr ⟨s, hs, ht⟩
                    obtain ⟨doms', hrun, hstands, hkeeps, hcsrf⟩ :=
                      hydrateSlots_spec ih hvalid.children (spaSSRSlots v) (spaSSRSlots_full v)
                        htexts (skippedCsrf v.tag children) (afterCsrf v.tag children) h
                    rw [spaSSRSlots_items] at hstands
                    have hkids := linedAll_of_stands [] v.children hstands
                    have hkeeps' : Keeps children (skippedCsrf v.tag children ++ doms') := by
                      have hboth := (Keeps.refl (skippedCsrf v.tag children)).append hkeeps
                      rwa [skippedCsrf_append] at hboth
                    refine ⟨.element id v.tag attrs (skippedCsrf v.tag children ++ doms'), ?_, ?_,
                      .mk id v.tag attrs children (skippedCsrf v.tag children ++ doms'), ?_, ?_⟩
                    · change (hydrateSlots (v.children.map spaHydrateTextRuns) (spaSSRSlots v)
                        (skippedCsrf v.tag children) (afterCsrf v.tag children)).bind
                          (fun children => some (Dom.element id v.tag attrs children)) = _
                      rw [hrun]
                      rfl
                    · refine .opened (Bool.eq_false_iff.mpr hclosed) hown ?_
                      rw [afterCsrf_append hcsrf]
                      exact hkids
                    · simp only [shapesAll, Dom.shapes, hkeeps'.shapes]
                    · simp only [pageTextAll, Dom.pageText, hkeeps'.text]

/-! ## The page -/

/-- A page that is accepted shows the client's tree after its text nodes are split. -/
theorem hydrate_lines_up (dom : Dom) (root : VNode) (hvalid : root.Valid)
    (h : spaCanHydrate dom root = .ok ()) :
    ∃ dom', spaHydrateTextRuns root dom = some dom' ∧ Lined ShownAttrs root dom' ∧
      dom'.shapes = dom.shapes ∧ dom'.pageText = dom.pageText := by
  obtain ⟨dom', hrun, hlined, -, hkeeps⟩ := hydrates root dom [] h hvalid
  have hshapes := hkeeps.shapes
  have htext := hkeeps.text
  simp only [shapesAll, pageTextAll, List.append_nil] at hshapes htext
  exact ⟨dom', hrun, hlined, hshapes, htext⟩

section Pages

def textNode (s : String) : VNode := .mk .text [] (ascii s) [] [] []

theorem textNode_valid {s : String} (h : ValidText (ascii s)) : (textNode s).Valid :=
  .mk (fun _ => h) (fun _ hc => absurd hc List.not_mem_nil)

/-- `<p sky-id="r">a<newline>b<br>c</p>` for four children. -/
def paragraph : VNode :=
  .mk .element (ascii "p") [] []
    [textNode "a\r", textNode "b", .mk .element (ascii "br") [] [] [] [], textNode "c"] (ascii "r")

def paragraphDom : Dom :=
  .element 0 (ascii "p") [(ascii "sky-id", ascii "r")]
    [.text ['a', '\n', 'b'], .element 1 (ascii "br") [] [], .text ['c']]

theorem hydrate_lines_up_paragraph :
    ∃ dom', spaHydrateTextRuns paragraph paragraphDom = some dom' ∧
      Lined ShownAttrs paragraph dom' ∧ dom'.shapes = paragraphDom.shapes ∧
      dom'.pageText = paragraphDom.pageText := by
  refine hydrate_lines_up paragraphDom paragraph (.mk (fun h => absurd h (by decide)) ?_) rfl
  intro c hc
  simp only [List.mem_cons, List.not_mem_nil, or_false] at hc
  rcases hc with rfl | rfl | rfl | rfl
  · exact textNode_valid ⟨['a', '\r'], by decide⟩
  · exact textNode_valid ⟨['b'], by decide⟩
  · exact .mk (fun h => absurd h (by decide)) fun _ hc => absurd hc List.not_mem_nil
  · exact textNode_valid ⟨['c'], by decide⟩

/-- A select whose value the server does not write. -/
def selection : VNode := .mk .element (ascii "select") [] [(ascii "value", ascii "x")] [] []

def selectionDom : Dom := .element 0 (ascii "select") [] []

/-- A character in two texts. -/
def halves : VNode :=
  .mk .element (ascii "p") [] []
    [.mk .text [] [0xC3] [] [] [], .mk .text [] [0xA9] [] [] []] []

def halvesDom : Dom := .element 0 (ascii "p") [] [.text ['é']]

/-- Neither the value of a select nor texts that are not UTF-8 line up. -/
theorem hydrate_not_all :
    (selection.Valid ∧ spaCanHydrate selectionDom selection = .ok () ∧
      ∀ dom', spaHydrateTextRuns selection selectionDom = some dom' →
        ¬ Lined AllAttrs selection dom') ∧
    (spaCanHydrate halvesDom halves = .ok () ∧
      ∀ dom', spaHydrateTextRuns halves halvesDom = some dom' → ¬ Lined ShownAttrs halves dom') := by
  refine ⟨⟨.mk (fun h => absurd h (by decide)) fun _ hc => absurd hc List.not_mem_nil, rfl, ?_⟩,
    rfl, ?_⟩
  · intro dom' hrun hlined
    have hdom : dom' = selectionDom := (Option.some.inj hrun).symm
    rw [hdom] at hlined
    have hown : AllAttrs selection [] := by
      cases hlined with
      | closed _ hown => exact hown
      | opened _ hown _ => exact hown
    have hvalue := hown.2 (ascii "value", ascii "x") List.mem_cons_self
    exact absurd hvalue (by decide)
  · intro dom' hrun hlined
    have hdom : dom' = .element 0 (ascii "p") [] [.text ['é'], .text []] :=
      (Option.some.inj hrun).symm
    rw [hdom] at hlined
    cases hlined with
    | closed h _ => exact absurd h (by decide)
    | opened _ _ kids =>
        cases kids with
        | element hk _ _ => exact hk rfl
        | empty _ h _ => exact absurd h (by decide)
        | text _ _ h _ => exact absurd h (by decide)

end Pages

end Sky.Hydration
