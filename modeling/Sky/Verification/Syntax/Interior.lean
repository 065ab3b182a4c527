import Sky.Model.Syntax.Interp
import Sky.Verification.Syntax.Primitives
import Sky.Verification.Syntax.Replay

/-! # The interior of a multiline string covers its token

The scan emits slices that follow one another from the start of the token to its end. An
interpolation body is parsed by a parser of its own: its tree spells the body, and so do
the flat leaves that replace it. -/

namespace Sky.Syntax

open Sky.Returning

/-! ## Slicing -/

/-- The action only appended events, and their slices cover `[a, b)`. -/
structure Slicing (s s' : Parser) (a b : ℕ) : Prop where
  rest : s' = { s with events := s'.events }
  events : ∃ es, s'.events = s.events ++ es ∧ Flat es ∧ Slices a b (leaves es)

theorem Slicing.refl (s : Parser) (a : ℕ) : Slicing s s a a :=
  ⟨rfl, [], by simp, .nil, .nil⟩

theorem Slicing.trans {s s₁ s₂ : Parser} {a b c : ℕ} (h : Slicing s s₁ a b)
    (h' : Slicing s₁ s₂ b c) : Slicing s s₂ a c := by
  obtain ⟨es, hes, hflat, hslices⟩ := h.events
  obtain ⟨fs, hfs, hflat', hslices'⟩ := h'.events
  refine ⟨?_, es ++ fs, ?_, hflat.append hflat', ?_⟩
  · rw [h'.rest, h.rest]
  · rw [hfs, hes, List.append_assoc]
  · rw [leaves_append]
    exact hslices.append hslices'

theorem Slicing.src {s s' : Parser} {a b : ℕ} (h : Slicing s s' a b) : s'.src = s.src := by
  rw [h.rest]

theorem emitSlice_slicing (kind : SyntaxKind) {a b : ℕ} (hab : a ≤ b) (s : Parser) :
    Returns (emitSlice kind a b) s fun _ s' => Slicing s s' a b :=
  Returns.update ⟨rfl, [.rawSlice kind a b], rfl, .rawSlice .nil, .cons hab .nil⟩

/-- A pending chunk, emitted unless it is empty. -/
theorem chunk_slicing (base : ℕ) {a b : ℕ} (hab : a ≤ b) (s : Parser) :
    Returns (onlyIf (a < b) (emitSlice .stringChunk (base + a) (base + b))) s fun _ s' =>
      Slicing s s' (base + a) (base + b) := by
  by_cases hlt : a < b
  · rw [onlyIf, if_pos (by simpa using hlt)]
    exact emitSlice_slicing _ (by omega) s
  · obtain rfl : a = b := by omega
    rw [onlyIf, if_neg (by simp)]
    exact Returns.pure (Slicing.refl s _)

/-- A node around slices keeps what they cover. -/
theorem slicing_node {s t s' : Parser} {kind : SyntaxKind} {es : List Event} {a b : ℕ}
    (ht : t = { s with events := s.events ++ [.tombstone] }) (hkind : IsNode kind)
    (hslicing : Slicing t s' a b) (hes : s'.events = s.events ++ (.tombstone :: es)) :
    Slicing s { s' with events := s.events ++ chainEvents [(kind, es)] } a b := by
  obtain ⟨fs, hfs, hflat, hslices⟩ := hslicing.events
  obtain rfl : es = fs := by
    rw [hes, ht] at hfs
    simpa using hfs
  refine ⟨?_, chainEvents [(kind, es)], rfl, (Linked.single hkind hflat).flat_events, ?_⟩
  · rw [hslicing.rest, ht]
  · simpa [chainEvents] using hslices

theorem Slicing.after_open {s t s' : Parser} {a b : ℕ}
    (ht : t = { s with events := s.events ++ [.tombstone] }) (h : Slicing t s' a b) :
    ∃ es, s'.events = s.events ++ (.tombstone :: es) := by
  obtain ⟨es, hes, -⟩ := h.events
  exact ⟨es, by rw [hes, ht]; simp⟩

/-! ## Re-emitted leaves -/

theorem emitGreens_slicing {gs : List Green}
    (hgs : ∀ g ∈ gs, ∀ cursor s, Returns (emitGreen g cursor) s fun c s' =>
      c = cursor + g.text.length ∧ Slicing s s' cursor c) (cursor : ℕ) (s : Parser) :
    Returns (emitGreens gs cursor) s fun c s' =>
      c = cursor + (Green.texts gs).length ∧ Slicing s s' cursor c := by
  induction gs generalizing cursor s with
  | nil => exact Returns.pure ⟨by simp [Green.texts], Slicing.refl s cursor⟩
  | cons g gs ih =>
      refine Returns.bind (hgs g (by simp) cursor s) ?_
      rintro c s₁ ⟨hc, h₁⟩
      refine (ih (fun g hg => hgs g (List.mem_cons_of_mem _ hg)) c s₁).mono ?_
      rintro c' s₂ ⟨hc', h₂⟩
      refine ⟨?_, h₁.trans h₂⟩
      rw [hc', hc, Green.texts, List.length_append]
      omega

/-- A tree of named nodes is emitted again with its own text length. -/
theorem emitGreen_slicing {g : Green} (hg : Named g) :
    ∀ cursor s, Returns (emitGreen g cursor) s fun c s' =>
      c = cursor + g.text.length ∧ Slicing s s' cursor c := by
  induction hg with
  | @token kind text =>
      intro cursor s
      rw [emitGreen]
      refine (emitSlice_slicing kind (by omega) s).bind fun _ s' h => ?_
      exact Returns.pure ⟨rfl, h⟩
  | @node kind children hk _ ih =>
      intro cursor s
      rw [emitGreen]
      refine Returns.bind (P := fun m t => m.pos = s.events.length ∧
        t = { s with events := s.events ++ [Event.tombstone] }) ⟨_, _, rfl, rfl, rfl⟩ ?_
      rintro m t ⟨hm, ht⟩
      refine (emitGreens_slicing ih cursor t).bind ?_
      rintro c s' ⟨hc, hslicing⟩
      obtain ⟨es, hes⟩ := hslicing.after_open ht
      refine Returns.bind (P := fun _ u =>
        u = { s' with events := s.events ++ chainEvents [(kind, es)] })
        ⟨_, _, complete_eq hm hes, rfl⟩ ?_
      rintro _ u rfl
      refine Returns.pure ⟨?_, slicing_node ht hk hslicing hes⟩
      rw [hc, Green.text]

theorem emitFlat_slicing (base : ℕ) {raw : List LexToken} {a b : ℕ} (h : Spans a b raw)
    (s : Parser) :
    Returns (emitFlat base raw) s fun _ s' => Slicing s s' (base + a) (base + b) := by
  induction h generalizing s with
  | nil => exact Returns.pure (Slicing.refl s _)
  | @cons t b raw hlt _ ih =>
      refine (emitSlice_slicing t.kind (by omega) s).bind ?_
      intro _ s₁ h₁
      exact (ih s₁).mono fun _ _ h₂ => h₁.trans h₂

/-! ## Bodies -/

section

variable {logos : Logos} {expr : P CompletedMarker} {n : ℕ}

theorem layout_spans {src : List Char} {raw : List LexToken} (h : Spans 0 src.length raw) :
    ∀ t ∈ layout src raw, t.start < t.stop ∧ t.stop ≤ src.length := by
  intro t ht
  have hmem : t.lexToken ∈ (layout src raw).map PToken.lexToken := List.mem_map_of_mem ht
  rw [layout_lexToken] at hmem
  have := h.mem t.lexToken (List.mem_of_mem_filter hmem)
  exact ⟨this.2.1, this.2.2⟩

/-- The significant tokens have no more text than the source. -/
theorem left_significant {raw : List LexToken} {a b : ℕ} (h : Spans a b raw) :
    ((significant raw).map fun t => t.stop - t.start).sum ≤ b - a := by
  induction h with
  | nil => simp [significant]
  | @cons t b raw hlt h ih =>
      have hle := h.le
      cases ht : t.kind.isTrivia with
      | true =>
          have hs : significant (t :: raw) = significant raw := by simp [significant, ht]
          rw [hs]
          omega
      | false =>
          rw [significant_cons ht, List.map_cons, List.sum_cons]
          omega

theorem leftFrom_layout {src : List Char} {raw : List LexToken} (h : Spans 0 src.length raw) :
    leftFrom (layout src raw) 0 ≤ src.length := by
  have hsum : leftFrom (layout src raw) 0 =
      ((significant raw).map fun t => t.stop - t.start).sum := by
    rw [← layout_lexToken src raw, List.map_map]
    rfl
  rw [hsum]
  simpa using left_significant h

theorem new_ok {src : List Char} {toks : List PToken}
    (h : ∀ t ∈ toks, t.start < t.stop ∧ t.stop ≤ src.length) : Ok (Parser.new src toks) :=
  ⟨le_rfl, Nat.zero_le _, h⟩

/-- Parsing a body by a parser of its own covers it. -/
theorem body_slicing (hlogos : logos.Partitions) (hexpr : Plants n expr) {start stop : ℕ}
    (hle : start ≤ stop) (hn : stop - start < n) {s : Parser} (hstop : stop ≤ s.src.length) :
    Returns (body logos expr start stop) s fun _ s' => Slicing s s' start stop := by
  refine Returns.get_bind ?_
  set text := slice s.src start stop with htext
  have hlen : text.length = stop - start := slice_length hstop
  have hspans := hlogos text
  have hsub : Ok (Parser.new text (layout text (lex logos text))) := new_ok (layout_spans hspans)
  have hleft : left (Parser.new text (layout text (lex logos text))) < n := by
    have := leftFrom_layout hspans
    change leftFrom (layout text (lex logos text)) 0 < n
    omega
  have hflat : Returns (emitFlat start (lex logos text)) s fun _ s' => Slicing s s' start stop := by
    have h := emitFlat_slicing start hspans s
    rwa [hlen, Nat.add_zero, Nat.add_sub_cancel' hle] at h
  obtain ⟨cm, sub, hrun, hplanted, -⟩ := hexpr _ hsub hleft
  obtain ⟨segs, hlinked, hevents, -⟩ := hplanted.chain
  simp only [hrun]
  cases hclean : sub.atEnd && sub.diags.isEmpty with
  | false => simpa using hflat
  | true =>
      have hend : sub.pos = (layout text (lex logos text)).length := by
        have hat : sub.atEnd = true := by
          cases h : sub.atEnd with
          | true => rfl
          | false => simp [h] at hclean
        rw [((hplanted.ok hsub).atEnd_iff).mp hat, hplanted.limit]
        rfl
      have hemits := hplanted.emits hevents
      rw [hend] at hemits
      have hall : Emits (layout text (lex logos text)) (leaves (chainEvents segs)) := by
        simpa [between, Parser.new, Parser.withUnits] using hemits
      obtain ⟨green, hbuild, hgreen, hnamed⟩ := buildTree_chain hspans hlinked hall
      have hsub' : sub.events = chainEvents segs := by
        rw [hevents]
        rfl
      simp only [if_true, hsub', hbuild, hgreen, hlen]
      refine (emitGreen_slicing hnamed start s).bind ?_
      rintro c s' ⟨hc, hslicing⟩
      rw [hgreen, hlen, Nat.add_sub_cancel' hle] at hc
      exact Returns.pure (hc ▸ hslicing)

theorem findClose_le {cs : List Char} {rel : ℕ} (h : findClose cs = some rel) :
    rel + 2 ≤ cs.length := by
  induction cs generalizing rel with
  | nil => simp [findClose] at h
  | cons c cs ih =>
      cases cs with
      | nil => simp [findClose] at h
      | cons d cs =>
          rw [findClose] at h
          split at h
          · obtain rfl := Option.some.inj h
            simp
          · obtain ⟨rel', hrel', rfl⟩ := Option.map_eq_some_iff.mp h
            have := ih hrel'
            simp only [List.length_cons] at this ⊢
            omega

theorem emitInterpolation_slicing (hlogos : logos.Partitions) (hexpr : Plants n expr)
    {a b c d : ℕ} (hab : a ≤ b) (hbc : b ≤ c) (hcd : c ≤ d) (hn : c - b < n) {s : Parser}
    (hc : c ≤ s.src.length) :
    Returns (emitInterpolation logos expr a b c d) s fun _ s' => Slicing s s' a d := by
  refine Returns.bind (P := fun _ s' => Slicing s s' a d) ?_ fun _ _ h => Returns.pure h
  refine Returns.bind (P := fun m t => m.pos = s.events.length ∧
    t = { s with events := s.events ++ [Event.tombstone] }) ⟨_, _, rfl, rfl, rfl⟩ ?_
  rintro m t ⟨hm, ht⟩
  have hsrc : t.src = s.src := by rw [ht]
  refine Returns.bind (P := fun kind s' => kind = .interpolation ∧ Slicing t s' a d) ?_ ?_
  · refine (emitSlice_slicing .interpOpen hab t).bind ?_
    intro _ s₁ h₁
    refine (body_slicing hlogos hexpr hbc hn (by rw [h₁.src, hsrc]; exact hc)).bind ?_
    intro _ s₂ h₂
    refine (emitSlice_slicing .interpClose hcd s₂).bind ?_
    intro _ s₃ h₃
    exact Returns.pure ⟨rfl, (h₁.trans h₂).trans h₃⟩
  · rintro kind s' ⟨rfl, hslicing⟩
    obtain ⟨es, hes⟩ := hslicing.after_open ht
    exact ⟨_, _, complete_eq hm hes, slicing_node ht (by decide) hslicing hes⟩

/-- What the scan has covered: up to the pending chunk, which ends at the place reached. -/
structure Scanned (s t : Parser) (base opened close : ℕ) (at_ : ℕ × ℕ) : Prop where
  slicing : Slicing s t (base + opened) (base + at_.2)
  chunk_le : at_.2 ≤ at_.1
  le_close : at_.1 ≤ close

theorem splitStep_scanned (hlogos : logos.Partitions) (hexpr : Plants n expr) {s t : Parser}
    {base opened close : ℕ} {text : List Char} {at_ : ℕ × ℕ} (hclose : close ≤ text.length)
    (hn : text.length ≤ n) (hsrc : base + text.length ≤ s.src.length)
    (h : Scanned s t base opened close at_) :
    Returns (splitStep logos expr base text close at_) t fun r t' =>
      match r with
      | .done next => Scanned s t' base opened close next ∧ close ≤ next.1
      | .yield next => Scanned s t' base opened close next ∧ close - next.1 < close - at_.1 := by
  obtain ⟨i, chunkStart⟩ := at_
  obtain ⟨hslicing, hchunk, hle⟩ := h
  simp only at hslicing hchunk hle
  rw [splitStep]
  split
  · rename_i hdone
    exact Returns.pure ⟨⟨hslicing, hchunk, hle⟩, hdone⟩
  · rename_i hmore
    split
    · rename_i hescape
      exact Returns.pure ⟨⟨hslicing, by simp only; omega, by simp only; omega⟩,
        by simp only; omega⟩
    · split
      · rename_i hopen
        split
        · rename_i rel hfind
          have hrel := findClose_le hfind
          rw [slice_length hclose] at hrel
          refine (chunk_slicing base hchunk t).bind ?_
          intro _ t₁ h₁
          have hsrc₁ : t₁.src = s.src := h₁.src.trans hslicing.src
          refine (emitInterpolation_slicing hlogos hexpr (by omega) (by omega) (by omega)
            (by omega) (by rw [hsrc₁]; omega)).bind ?_
          intro _ t₂ h₂
          exact Returns.pure ⟨⟨(hslicing.trans h₁).trans h₂, le_rfl, by simp only; omega⟩,
            by simp only; omega⟩
        · exact Returns.pure ⟨⟨hslicing, by simp only; omega, by simp only; omega⟩,
            by simp only; omega⟩
      · exact Returns.pure ⟨⟨hslicing, by simp only; omega, by simp only; omega⟩,
          by simp only; omega⟩

theorem closeOf_bounds (text : List Char) :
    min 3 text.length ≤ closeOf text ∧ closeOf text ≤ text.length := by
  unfold closeOf
  split
  · rename_i h
    omega
  · omega

/-- A multiline string is one token, skipped and covered again by slices. -/
theorem multiline_moves (hlogos : logos.Partitions) (hexpr : Plants n expr) :
    Moves (n + 1) Anything (multiline logos expr) := by
  intro s hs hend hleft
  obtain ⟨t, htok, ht, hlt⟩ := hs.inside hend
  refine Returns.get_bind ?_
  simp only [htok]
  have hspan := hs.spans t (List.mem_of_getElem? ht)
  set text := slice s.src t.start t.stop with htext
  have hlen : text.length = t.stop - t.start := slice_length hspan.2
  have hn : text.length ≤ n := by
    have hsucc := leftFrom_succ ht
    have : left s < n + 1 := hleft
    rw [left] at this
    omega
  obtain ⟨hopen, hclose⟩ := closeOf_bounds text
  refine Returns.bind (P := fun _ u =>
    u = { s with events := s.events ++ [.skip], pos := s.pos + 1 }) ?_ ?_
  · refine Returns.update ?_
    rw [hend]
    rfl
  rintro _ u hu
  have husrc : u.src = s.src := by rw [hu]
  refine Returns.bind (P := fun _ s₁ =>
    Slicing u s₁ t.start (t.start + min 3 text.length)) ?_ ?_
  · have h := chunk_slicing t.start (Nat.zero_le (min 3 text.length)) u
    exact h
  intro _ s₁ h₁
  refine Returns.bind (Returns.loop (μ := fun at_ _ => closeOf text - at_.1)
    (I := fun at_ v => Scanned s₁ v t.start (min 3 text.length) (closeOf text) at_)
    (Q := fun at_ v => Scanned s₁ v t.start (min 3 text.length) (closeOf text) at_ ∧
      closeOf text ≤ at_.1) ?_ (text.length + 1) (min 3 text.length, min 3 text.length) s₁
    ⟨Slicing.refl s₁ _, le_rfl, hopen⟩ (by simp only; omega)) ?_
  · intro at_ v hv
    refine (splitStep_scanned hlogos hexpr hclose hn (by rw [h₁.src, husrc]; omega) hv).mono ?_
    rintro (next | next) v' h
    · exact h
    · exact h
  rintro ⟨i, chunkStart⟩ s₂ ⟨⟨h₂, hchunk, hle⟩, hdone⟩
  simp only at h₂ hchunk hle hdone
  refine (chunk_slicing t.start (by omega : chunkStart ≤ closeOf text) s₂).bind ?_
  intro _ s₃ h₃
  have hstop : t.stop = t.start + text.length := by omega
  rw [hstop]
  refine (chunk_slicing t.start hclose s₃).mono ?_
  intro _ s₄ h₄
  have hall := ((h₁.trans h₂).trans h₃).trans h₄
  rw [← hstop] at hall
  have hstep : Step s s₄ := by
    obtain ⟨es, hes, hflat, hslices⟩ := hall.events
    rw [hall.rest, hu]
    refine ⟨rfl, rfl, rfl, rfl, rfl, rfl, rfl, Nat.le_succ _, fun _ => hlt, .skip :: es, ?_,
      .skip hflat, ?_⟩
    · change s₄.events = _
      rw [hes, hu]
      simp
    · change Emits (between s.toks s.pos (s.pos + 1)) _
      rw [between_succ ht, leaves_skip, ← List.append_nil (leaves es)]
      exact .skip hslices .nil
  refine ⟨hstep, ?_, trivial⟩
  rw [hall.rest, hu]
  exact Nat.lt_succ_self s.pos

end

end Sky.Syntax
