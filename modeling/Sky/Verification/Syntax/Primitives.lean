import Sky.Verification.Syntax.Contracts

/-! # Contracts of the parser core -/

namespace Sky.Syntax

open Sky.Returning

variable {α : Type} {n : ℕ} {V : α → Prop}

/-! ## Events aside -/

/-- An action that only touches the diagnostics is a step. -/
theorem Step.quiet {s s' : Parser} (hsrc : s'.src = s.src) (htoks : s'.toks = s.toks)
    (hunits : s'.units = s.units) (hunit : s'.unit = s.unit) (hlimit : s'.limit = s.limit)
    (hindent : s'.blockIndent = s.blockIndent) (hdepth : s'.depth = s.depth)
    (hpos : s'.pos = s.pos) (hevents : s'.events = s.events) : Step s s' := by
  refine ⟨hsrc, htoks, hunits, hunit, hlimit, hindent, hdepth, hpos.ge, ?_, [], ?_, .nil, ?_⟩
  · intro h
    rw [hpos]
    exact h
  · rw [hevents, List.append_nil]
  · rw [hpos, between_self]
    exact .nil

theorem Ok.withEvents {s : Parser} (h : Ok s) (es : List Event) :
    Ok { s with events := es } := ⟨h.limit_le, h.pos_le, h.spans⟩

/-! ## Cursor moves -/

theorem atEnd_of_isAt {p : Parser} {kind : SyntaxKind} (hk : kind ≠ .eof)
    (h : p.isAt kind = true) : p.atEnd = false := by
  have hcur : p.current = kind := by simpa [Parser.isAt] using h
  exact atEnd_of_current (by rw [hcur]; exact hk)

theorem atEnd_of_atAny {p : Parser} {set : TokenSet} (hset : SyntaxKind.eof ∉ set)
    (h : p.atAny set = true) : p.atEnd = false := by
  refine atEnd_of_current ?_
  intro heof
  have hmem : p.current ∈ set := by simpa [Parser.atAny] using h
  rw [heof] at hmem
  exact hset hmem

/-- Passing the token at the cursor with an event that consumes it. -/
theorem Step.consume {s : Parser} {t : PToken} (ht : s.toks[s.pos]? = some t)
    (hlt : s.pos < s.limit) {e : Event} (he : Flat [e]) (hemits : Emits [t] (leaves [e])) :
    Step s { s with events := s.events ++ [e], pos := s.pos + 1 } := by
  refine ⟨rfl, rfl, rfl, rfl, rfl, rfl, rfl, Nat.le_succ _, fun _ => hlt, [e], rfl, he, ?_⟩
  change Emits (between s.toks s.pos (s.pos + 1)) _
  rw [between_succ ht]
  exact hemits

theorem bump_moves : Moves n Anything bump := by
  intro s hs hend _
  obtain ⟨t, htok, ht, hlt⟩ := hs.inside hend
  refine Returns.update ?_
  rw [hend]
  have hcur : s.current = t.kind := by simp [Parser.current, Parser.nth, htok]
  refine ⟨?_, Nat.lt_succ_self _, trivial⟩
  rw [hcur]
  exact Step.consume ht hlt (.token .nil) (.token .nil)

theorem bump_runs : Runs n Anything bump := by
  intro s hs hleft
  cases hend : s.atEnd with
  | false => exact (bump_moves s hs hend hleft).mono fun _ _ h => ⟨h.1, trivial⟩
  | true =>
      refine Returns.update ?_
      rw [hend]
      exact ⟨Step.refl s, trivial⟩

/-- The action is a step that does not move the cursor. -/
def Quiet (x : P Unit) : Prop :=
  ∀ s, Returns x s fun _ s' => Step s s' ∧ s'.pos = s.pos

theorem Quiet.runs {x : P Unit} (h : Quiet x) : Runs n Anything x :=
  fun s _ _ => (h s).mono fun _ _ hs => ⟨hs.1, trivial⟩

theorem pure_quiet : Quiet (pure ()) := fun s => Returns.pure ⟨Step.refl s, rfl⟩

theorem error_quiet (msg : Message) : Quiet (error msg) := by
  intro s
  refine Returns.update ?_
  cases hs : s.unitErrored with
  | true => exact ⟨Step.refl s, rfl⟩
  | false => exact ⟨Step.quiet rfl rfl rfl rfl rfl rfl rfl rfl rfl, rfl⟩

theorem Quiet.branch {c : Parser → Bool} {x y : P Unit} (hx : Quiet x) (hy : Quiet y) :
    Quiet (branch c x y) :=
  fun s => Returns.branch (fun _ => hx s) (fun _ => hy s)

theorem error_runs (msg : Message) : Runs n Anything (error msg) := (error_quiet msg).runs

theorem eat_returns {kind : SyntaxKind} (hk : kind ≠ .eof) {s : Parser} (hs : Ok s) :
    Returns (eat kind) s fun b s' => Step s s' ∧ (b = true → s.pos < s'.pos) := by
  refine Returns.branch ?_ ?_
  · intro hat
    refine (bump_moves (n := left s + 1) s hs (atEnd_of_isAt hk hat) (by omega)).bind ?_
    rintro _ s' ⟨hstep, hlt, -⟩
    exact Returns.pure ⟨hstep, fun _ => hlt⟩
  · intro _
    exact Returns.pure ⟨Step.refl s, by simp⟩

theorem eat_runs {kind : SyntaxKind} (hk : kind ≠ .eof) : Runs n Anything (eat kind) :=
  fun _ hs _ => (eat_returns hk hs).mono fun _ _ h => ⟨h.1, trivial⟩

theorem expect_runs (kind : SyntaxKind) : Runs n Anything (expect kind) :=
  Runs.branch bump_runs (error_runs _)

theorem bumpUnlessEnd_runs : Runs n Anything bumpUnlessEnd :=
  Runs.branch (Runs.pure trivial) bump_runs

theorem bumpUnlessEnd_moves : Moves n Anything bumpUnlessEnd := by
  intro s hs hend hleft
  refine Returns.branch ?_ fun _ => bump_moves s hs hend hleft
  intro h
  rw [hend] at h
  cases h

/-! ## Nodes -/

theorem Planted.emits {s s' : Parser} {cm : CompletedMarker} (h : Planted s s' cm)
    {segs : List Segment} (hsegs : s'.events = s.events ++ chainEvents segs) :
    Emits (between s.toks s.pos s'.pos) (leaves (chainEvents segs)) := by
  obtain ⟨es, hes, -, hemits⟩ := h.events
  rw [hes] at hsegs
  rwa [← List.append_cancel_left hsegs]

/-- Closing the node opened before the events `es`. -/
theorem complete_eq {m : Marker} {kind : SyntaxKind} {s : Parser} {before es : List Event}
    (hm : m.pos = before.length) (hes : s.events = before ++ (.tombstone :: es)) :
    m.complete kind s =
      some (⟨before.length⟩, { s with events := before ++ chainEvents [(kind, es)] }) := by
  have hget : s.events[m.pos]? = some (.start .tombstone none) := by
    rw [hes, hm, List.getElem?_append_right le_rfl]
    simp [Event.tombstone]
  have hset : s.events.set m.pos (.start kind none) ++ [.finish] =
      before ++ chainEvents [(kind, es)] := by
    rw [hes, hm, List.set_append_right _ _ le_rfl]
    simp [chainEvents]
  rw [← hm]
  simp only [Marker.complete, hget, hset]

/-- Opening, filling and closing a node plants it. -/
theorem node_returns {body : P SyntaxKind} {s : Parser} {R : ℕ → Prop}
    (hbody : ∀ t, t = { s with events := s.events ++ [Event.tombstone] } →
      Returns body t fun kind s' => Step t s' ∧ R s'.pos ∧ IsNode kind) :
    Returns (node body) s fun cm s' => Planted s s' cm ∧ R s'.pos := by
  refine Returns.bind (P := fun m t => m.pos = s.events.length ∧
    t = { s with events := s.events ++ [Event.tombstone] }) ⟨_, _, rfl, rfl, rfl⟩ ?_
  rintro m t ⟨hm, ht⟩
  refine (hbody t ht).bind ?_
  rintro kind s' ⟨hstep, hR, hkind⟩
  obtain ⟨es, hes, hflat, hemits⟩ := hstep.events
  subst ht
  have hevents : s'.events = s.events ++ (.tombstone :: es) := by
    rw [hes]
    simp
  refine ⟨_, _, complete_eq hm hevents, ⟨⟨hstep.src, hstep.toks, hstep.units, hstep.unit,
    hstep.limit, hstep.blockIndent, hstep.depth, hstep.pos_le, hstep.bound,
    chainEvents [(kind, es)], rfl, (Linked.single hkind hflat).flat_events, ?_⟩,
    [(kind, es)], Linked.single hkind hflat, rfl, rfl⟩, hR⟩
  simpa [chainEvents] using hemits

/-- `precede` links the node it finds to the one it opens. -/
theorem precede_eq {cm : CompletedMarker} {p : Parser} {kind : SyntaxKind} {link : Option ℕ}
    (h : (p.events ++ [Event.tombstone])[cm.pos]? = some (.start kind link)) :
    cm.precede p = some (⟨p.events.length⟩,
      { p with
        events := (p.events ++ [Event.tombstone]).set cm.pos
          (.start kind (some (p.events.length - cm.pos))) }) := by
  unfold CompletedMarker.precede
  simp only [bind, StateT.bind, start, Option.bind_some, h]

/-- The step appended this chain, and `cm` is its outermost node. -/
structure Chained (s s' : Parser) (cm : CompletedMarker) (segs : List Segment) : Prop
    extends Step s s' where
  linked : Linked segs
  appended : s'.events = s.events ++ chainEvents segs
  cm_pos : cm.pos = s.events.length + lastStart segs

theorem Chained.planted {s s' : Parser} {cm : CompletedMarker} {segs : List Segment}
    (h : Chained s s' cm segs) : Planted s s' cm :=
  ⟨h.toStep, segs, h.linked, h.appended, h.cm_pos⟩

theorem Planted.chained {s s' : Parser} {cm : CompletedMarker} (h : Planted s s' cm) :
    ∃ segs, Chained s s' cm segs := by
  obtain ⟨segs, hlinked, hevents, hpos⟩ := h.chain
  exact ⟨segs, h.toStep, hlinked, hevents, hpos⟩

/-- Opening a node over a chain makes it the outermost one, around what the body appends. -/
theorem wrap_chained {cm : CompletedMarker} {kind : SyntaxKind} {body : P Unit}
    {s s₁ : Parser} {segs : List Segment} {Q : List Event → ℕ → Prop} (hkind : IsNode kind)
    (hcm : Chained s s₁ cm segs)
    (hbody : ∀ es, Returns body { s₁ with events := es } fun _ s' =>
      Step { s₁ with events := es } s' ∧ ∀ fs, s'.events = es ++ fs → Q fs s'.pos) :
    Returns (cm.wrap kind body) s₁ fun cm' s' => ∃ es, Chained s s' cm' (segs ++ [(kind, es)]) ∧
      s₁.pos ≤ s'.pos ∧ Q es s'.pos := by
  have hlinked := hcm.linked
  have hevents := hcm.appended
  have hpos := hcm.cm_pos
  obtain ⟨last, hlast⟩ := chainEvents_lastStart hlinked.ne_nil
  have hlt := lastStart_lt hlinked.ne_nil
  have hlen : s₁.events.length = s.events.length + (chainEvents segs).length := by
    rw [hevents, List.length_append]
  let linked := (chainEvents segs).set (lastStart segs)
    (.start last (some ((chainEvents segs).length - lastStart segs)))
  have hget : (s₁.events ++ [Event.tombstone])[cm.pos]? = some (.start last none) := by
    rw [hevents, List.append_assoc, hpos, List.getElem?_append_right (by omega),
      Nat.add_sub_cancel_left, List.getElem?_append_left hlt, hlast]
  have hset : (s₁.events ++ [Event.tombstone]).set cm.pos
      (.start last (some (s₁.events.length - cm.pos))) = s.events ++ (linked ++ [.tombstone]) := by
    have hdist : s₁.events.length - cm.pos = (chainEvents segs).length - lastStart segs := by
      omega
    rw [hdist, hevents, List.append_assoc, hpos, List.set_append_right _ _ (by omega),
      Nat.add_sub_cancel_left, List.set_append_left _ _ hlt]
  refine Returns.bind (P := fun m t => m.pos = s₁.events.length ∧
    t = { s₁ with events := s.events ++ (linked ++ [.tombstone]) }) ?_ ?_
  · refine ⟨⟨s₁.events.length⟩, _, ?_, rfl, rfl⟩
    rw [← hset]
    exact precede_eq hget
  · rintro m t ⟨hm, rfl⟩
    refine (hbody _).bind ?_
    rintro _ s' ⟨hstep, hQ⟩
    obtain ⟨es, hes, hflat, hemits⟩ := hstep.events
    have hllen : linked.length = (chainEvents segs).length := List.length_set
    have hevents' : s'.events = (s.events ++ linked) ++ (.tombstone :: es) := by
      rw [hes]
      simp
    have hm' : m.pos = (s.events ++ linked).length := by
      rw [hm, hlen, List.length_append, hllen]
    have hchain : s.events ++ linked ++ chainEvents [(kind, es)] =
        s.events ++ chainEvents (segs ++ [(kind, es)]) := by
      rw [chainEvents_snoc hlinked.ne_nil hlast, List.append_assoc]
      rfl
    have hgrown := hlinked.snoc hkind hflat
    have hleaves : leaves (chainEvents (segs ++ [(kind, es)])) =
        leaves (chainEvents segs) ++ leaves es := by
      rw [chainEvents_snoc hlinked.ne_nil hlast, leaves_append, leaves_set hlast]
      simp
    have hfirst := hcm.planted.emits hevents
    refine ⟨_, _, complete_eq hm' hevents', es, ⟨⟨hstep.src.trans hcm.src,
      hstep.toks.trans hcm.toks, hstep.units.trans hcm.units, hstep.unit.trans hcm.unit,
      hstep.limit.trans hcm.limit, hstep.blockIndent.trans hcm.blockIndent,
      hstep.depth.trans hcm.depth, hcm.pos_le.trans hstep.pos_le, ?_,
      chainEvents (segs ++ [(kind, es)]), hchain, hgrown.flat_events, ?_⟩, hgrown, hchain, ?_⟩,
      hstep.pos_le, hQ es hes⟩
    · intro h
      have h₁ := hcm.bound h
      have h₂ := hstep.bound (by rw [hcm.limit]; exact h₁)
      rwa [hcm.limit] at h₂
    · rw [hleaves, ← between_append s.toks hcm.pos_le hstep.pos_le]
      rw [hcm.toks] at hemits
      exact hfirst.append hemits
    · change (s.events ++ linked).length = _
      rw [lastStart_snoc hlinked.ne_nil, List.length_append, hllen]

/-- Opening a node over a planted one grows its chain. -/
theorem wrap_returns {cm : CompletedMarker} {kind : SyntaxKind} {body : P Unit}
    {s s₁ : Parser} {R : ℕ → Prop} (hkind : IsNode kind) (hcm : Planted s s₁ cm)
    (hbody : ∀ es, Returns body { s₁ with events := es } fun _ s' =>
      Step { s₁ with events := es } s' ∧ R s'.pos) :
    Returns (cm.wrap kind body) s₁ fun cm' s' => Planted s s' cm' ∧ s₁.pos ≤ s'.pos ∧
      R s'.pos := by
  obtain ⟨segs, hsegs⟩ := hcm.chained
  refine (wrap_chained (Q := fun _ pos => R pos) hkind hsegs fun es =>
    (hbody es).mono fun _ _ h => ⟨h.1, fun _ _ => h.2⟩).mono ?_
  rintro cm' s' ⟨es, hcm', hle, hR⟩
  exact ⟨hcm'.planted, hle, hR⟩

/-- What follows a planted node: it stays planted, perhaps under more nodes. -/
def Regrows (n : ℕ) (f : CompletedMarker → P CompletedMarker) : Prop :=
  ∀ s s₁ cm, Ok s → Planted s s₁ cm → left s₁ < n →
    Returns (f cm) s₁ fun cm' s₂ => Planted s s₂ cm' ∧ s₁.pos ≤ s₂.pos

theorem Plants.bind {x : P CompletedMarker} {f : CompletedMarker → P CompletedMarker}
    (hx : Plants n x) (hf : Regrows n f) : Plants n (x >>= f) := by
  intro s hs hleft
  refine (hx s hs hleft).bind ?_
  rintro cm s₁ ⟨hcm, hmoved⟩
  refine (hf s s₁ cm hs hcm (lt_of_le_of_lt hcm.left_le hleft)).mono ?_
  rintro cm' s₂ ⟨hcm', hle⟩
  exact ⟨hcm', fun h => lt_of_lt_of_le (hmoved h) hle⟩

theorem wrap_moves {kind : SyntaxKind} {body : P Unit} (hkind : IsNode kind)
    (hbody : Moves n Anything body) {s s₁ : Parser} {cm : CompletedMarker} (hs : Ok s)
    (hcm : Planted s s₁ cm) (hend : s₁.atEnd = false) (hleft : left s₁ < n) :
    Returns (cm.wrap kind body) s₁ fun cm' s₂ => Planted s s₂ cm' ∧ s₁.pos < s₂.pos := by
  have hw := wrap_returns (R := fun pos => s₁.pos < pos) hkind hcm fun es =>
    (hbody { s₁ with events := es } ((hcm.ok hs).withEvents es) hend hleft).mono
      fun _ _ h => ⟨h.1, h.2.1⟩
  exact hw.mono fun _ _ h => ⟨h.1, h.2.2⟩

theorem Regrows.wrap {c : Parser → Bool} {kind : SyntaxKind} {body : P Unit}
    (hc : ∀ p, c p = true → p.atEnd = false) (hkind : IsNode kind)
    (hbody : Moves n Anything body) :
    Regrows n fun cm => Returning.branch c (cm.wrap kind body) (Pure.pure cm) := by
  intro s s₁ cm hs hcm hleft
  refine Returns.branch ?_ fun _ => Returns.pure ⟨hcm, le_rfl⟩
  intro hcs
  exact (wrap_moves hkind hbody hs hcm (hc s₁ hcs) hleft).mono fun _ _ h => ⟨h.1, h.2.le⟩

theorem Regrows.wrap_runs {c : Parser → Bool} {kind : SyntaxKind} {body : P Unit}
    (hkind : IsNode kind) (hbody : Runs n Anything body) :
    Regrows n fun cm => Returning.branch c (cm.wrap kind body) (Pure.pure cm) := by
  intro s s₁ cm hs hcm hleft
  refine Returns.branch (fun _ => ?_) fun _ => Returns.pure ⟨hcm, le_rfl⟩
  have hw := wrap_returns (R := fun _ => True) hkind hcm fun es =>
    (hbody { s₁ with events := es } ((hcm.ok hs).withEvents es) hleft).mono
      fun _ _ h => ⟨h.1, trivial⟩
  exact hw.mono fun _ _ h => ⟨h.1, h.2.1⟩

theorem Regrows.loop {body : CompletedMarker → P (ForInStep CompletedMarker)} {fuel : ℕ}
    (hbody : ∀ s s₁ cm, Ok s → Planted s s₁ cm → left s₁ < n →
      Returns (body cm) s₁ fun r s₂ =>
        match r with
        | .done cm' => Planted s s₂ cm' ∧ s₁.pos ≤ s₂.pos
        | .yield cm' => Planted s s₂ cm' ∧ s₁.pos < s₂.pos)
    (hfuel : n ≤ fuel) : Regrows n (loop fuel body) := by
  intro s s₁ cm hs hcm hleft
  refine Returns.loop (μ := fun _ t => left t)
    (I := fun cm' t => Planted s t cm' ∧ s₁.pos ≤ t.pos) ?_ fuel cm s₁ ⟨hcm, le_rfl⟩
    (lt_of_lt_of_le hleft hfuel)
  rintro cm' t ⟨hcm', hle⟩
  have hleft' : left t ≤ left s₁ := by
    rw [left, left, hcm'.toks, hcm.toks]
    exact leftFrom_anti s.toks hle
  refine (hbody s t cm' hs hcm' (lt_of_le_of_lt hleft' hleft)).mono ?_
  rintro r t' hr
  cases r with
  | done cm'' => exact ⟨hr.1, hle.trans hr.2⟩
  | yield cm'' =>
      refine ⟨⟨hr.1, hle.trans hr.2.le⟩, ?_⟩
      have hpos : t.pos < t.toks.length := by
        have h₁ := hr.1.bound hs.pos_le
        have h₂ := hs.limit_le
        rw [hcm'.toks]
        exact lt_of_lt_of_le hr.2 (h₁.trans h₂)
      rw [left, left, hr.1.toks, ← hcm'.toks]
      exact leftFrom_lt (fun u hu => ((hcm'.ok hs).spans u hu).1) hpos hr.2

theorem Regrows.whileLoop {c : Parser → Bool} {kind : SyntaxKind} {body : P Unit} {fuel : ℕ}
    (hc : ∀ p, c p = true → p.atEnd = false) (hkind : IsNode kind)
    (hbody : Moves n Anything body) (hfuel : n ≤ fuel) :
    Regrows n (whileLoop fuel c fun cm => cm.wrap kind body) := by
  refine Regrows.loop ?_ hfuel
  intro s s₁ cm hs hcm hleft
  refine Returns.branch ?_ fun _ => Returns.pure ⟨hcm, le_rfl⟩
  intro hcs
  exact Returns.map (wrap_moves hkind hbody hs hcm (hc s₁ hcs) hleft)

/-! ## Contracts of nodes -/

theorem node_grows {body : P SyntaxKind} (hbody : Moves n IsNode body) : Grows n (node body) := by
  intro s hs hend hleft
  refine node_returns (R := fun pos => s.pos < pos) ?_
  rintro t rfl
  exact hbody _ (hs.withEvents (s.events ++ [.tombstone])) hend hleft

theorem node_returns_step {body : P SyntaxKind} (hbody : Runs n IsNode body) {s : Parser}
    (hs : Ok s) (hleft : left s < n) : Returns (node body) s fun cm s' => Planted s s' cm := by
  refine (node_returns (R := fun _ => True) ?_).mono fun _ _ h => h.1
  rintro t rfl
  refine Returns.mono (hbody _ (hs.withEvents (s.events ++ [.tombstone])) hleft) ?_
  rintro kind s' ⟨hstep, hkind⟩
  exact ⟨hstep, trivial, hkind⟩

theorem node_plants {body : P SyntaxKind} (hruns : Runs n IsNode body)
    (hmoves : Moves n IsNode body) : Plants n (node body) := by
  intro s hs hleft
  cases hend : s.atEnd with
  | false => exact (node_grows hmoves s hs hend hleft).mono fun _ _ h => ⟨h.1, fun _ => h.2⟩
  | true => exact (node_returns_step hruns hs hleft).mono fun _ _ h => ⟨h, by simp⟩

theorem node_runs {body : P SyntaxKind} (hbody : Runs n IsNode body) :
    Runs n Anything (ignore (node body)) := by
  intro s hs hleft
  exact (node_returns_step hbody hs hleft).bind fun _ _ h => Returns.pure ⟨h.toStep, trivial⟩

theorem Moves.bump_pure {kind : SyntaxKind} (hkind : IsNode kind) :
    Moves n IsNode (do bump; pure kind) := by
  intro s hs hend hleft
  refine (bump_moves s hs hend hleft).bind ?_
  rintro _ s' ⟨hstep, hlt, -⟩
  exact Returns.pure ⟨hstep, hlt, hkind⟩

/-- A quiet action, before one that consumes a token. -/
theorem Quiet.moves {x : P Unit} {f : Unit → P α} (hx : Quiet x)
    (hf : ∀ a, Moves n V (f a)) : Moves n V (x >>= f) := by
  intro s hs hend hleft
  refine (hx s).bind ?_
  rintro a s₁ ⟨hstep, hpos⟩
  have hend₁ : s₁.atEnd = false := by
    rw [← hend]
    simp only [Parser.atEnd, hstep.limit, hstep.toks, hpos]
  refine (hf a s₁ (hstep.ok hs) hend₁ (lt_of_le_of_lt hstep.left_le hleft)).mono ?_
  rintro b s₂ ⟨hstep₂, hlt, hb⟩
  exact ⟨hstep.trans hstep₂, hpos ▸ hlt, hb⟩

theorem leaf_plants {kind : SyntaxKind} (hkind : IsNode kind) : Plants n (leaf kind) :=
  node_plants (bump_runs.bind fun _ _ => Runs.pure hkind) (Moves.bump_pure hkind)

theorem checkedLeaf_plants {bad : Parser → Bool} {msg : Message} {kind : SyntaxKind}
    (hkind : IsNode kind) : Plants n (checkedLeaf bad msg kind) := by
  have hquiet : Quiet (branch bad (error msg) (pure ())) := (error_quiet msg).branch pure_quiet
  refine node_plants ?_ ?_
  · exact hquiet.runs.bind fun _ _ => bump_runs.bind fun _ _ => Runs.pure hkind
  · exact hquiet.moves fun _ => Moves.bump_pure hkind

theorem errorAtom_plants (msg : Message) : Plants n (errorAtom msg) := by
  have hkind : IsNode .error := by decide
  refine node_plants ?_ ?_
  · exact (error_runs msg).bind fun _ _ =>
      bumpUnlessEnd_runs.bind fun _ _ => Runs.pure hkind
  · refine (error_quiet msg).moves fun _ => ?_
    intro s hs hend hleft
    refine (bumpUnlessEnd_moves s hs hend hleft).bind ?_
    rintro _ s' ⟨hstep, hlt, -⟩
    exact Returns.pure ⟨hstep, hlt, hkind⟩

theorem errAndBump_moves (msg : Message) : Moves n Anything (errAndBump msg) :=
  Moves.ignore (errorAtom_plants msg).grows

/-! ## Recovery -/

theorem atEnd_of_not_stops {recovery : TokenSet} {p : Parser}
    (h : (!recoveryStops recovery p) = true) : p.atEnd = false := by
  simp only [recoveryStops, Bool.not_eq_true', Bool.or_eq_false_iff] at h
  exact h.1.1

theorem recoveryStops_congr (recovery : TokenSet) {s t : Parser} (htoks : t.toks = s.toks)
    (hlimit : t.limit = s.limit) (hpos : t.pos = s.pos) (hindent : t.blockIndent = s.blockIndent) :
    recoveryStops recovery t = recoveryStops recovery s := by
  obtain ⟨⟩ := s
  obtain ⟨⟩ := t
  subst htoks hlimit hpos hindent
  rfl

/-- Not at a stop, recovery consumes a token. -/
theorem errRecover_moves {fuel : ℕ} (hfuel : n ≤ fuel) (msg : Message) {recovery : TokenSet}
    {s : Parser} (hs : Ok s) (hstops : recoveryStops recovery s = false) (hleft : left s < n) :
    Returns (errRecover fuel msg recovery) s fun _ s' => Step s s' ∧ s.pos < s'.pos := by
  refine Returns.branch (fun h => ?_) fun _ => ?_
  · rw [hstops] at h
    cases h
  refine Returns.bind (node_returns (R := fun pos => s.pos < pos) ?_)
    fun _ s' h => Returns.pure ⟨h.1.toStep, h.2⟩
  rintro t rfl
  refine (error_quiet msg _).bind ?_
  rintro _ t ⟨hquiet, hpos⟩
  have ht : Ok t := hquiet.ok (hs.withEvents (s.events ++ [.tombstone]))
  have hleft' : left t < n := lt_of_le_of_lt hquiet.left_le hleft
  refine Returns.bind (Returns.whileLoop (μ := fun _ u => left u) (I := fun _ u => Step t u)
    ?_ (Step.refl t) (lt_of_lt_of_le hleft' hfuel)) ?_
  · intro _ u hu hc
    refine (bump_moves (n := left u + 1) u (hu.ok ht) (atEnd_of_not_stops hc)
      (Nat.lt_succ_self _)).mono ?_
    rintro _ v ⟨hstep, hlt, -⟩
    exact ⟨hu.trans hstep, hstep.left_lt (hu.ok ht) hlt⟩
  · rintro _ u ⟨hu, hc⟩
    refine Returns.pure ⟨hquiet.trans hu, lt_of_le_of_ne (hpos ▸ hu.pos_le) ?_, by decide⟩
    intro heq
    have hsame := recoveryStops_congr recovery (s := s) (t := u)
      (hu.toks.trans hquiet.toks) (hu.limit.trans hquiet.limit) heq.symm
      (hu.blockIndent.trans hquiet.blockIndent)
    rw [hstops] at hsame
    rw [hsame] at hc
    cases hc

/-! ## Scopes -/

theorem withIndent_runs {x : P α} (anchor : ℕ) (hx : Runs n V x) :
    Runs n V (withIndent anchor x) := by
  intro s hs hleft
  refine Returns.get_bind ?_
  refine Returns.bind (P := fun _ t => t = { s with blockIndent := anchor })
    (Returns.update rfl) ?_
  rintro _ t rfl
  refine (hx { s with blockIndent := anchor } ⟨hs.limit_le, hs.pos_le, hs.spans⟩ hleft).bind ?_
  rintro a s₁ ⟨hstep, ha⟩
  refine Returns.bind (P := fun _ t => t = { s₁ with blockIndent := s.blockIndent })
    (Returns.update rfl) ?_
  rintro _ t rfl
  exact Returns.pure ⟨⟨hstep.src, hstep.toks, hstep.units, hstep.unit, hstep.limit, rfl,
    hstep.depth, hstep.pos_le, hstep.bound, hstep.events⟩, ha⟩

theorem guarded_plants {body : P CompletedMarker} (hbody : Plants n body) :
    Plants n (guarded body) := by
  intro s hs hleft
  have hdeep : ∀ x : P CompletedMarker, Plants n x →
      Returns x { s with depth := s.depth + 1 } fun cm t =>
        Planted { s with depth := s.depth + 1 } t cm ∧ (s.atEnd = false → s.pos < t.pos) :=
    fun x hx => hx _ ⟨hs.limit_le, hs.pos_le, hs.spans⟩ hleft
  refine Returns.bind (P := fun cm t => Planted { s with depth := s.depth + 1 } t cm ∧
    (s.atEnd = false → s.pos < t.pos)) ?_ ?_
  · refine Returns.bind (P := fun _ t => t = { s with depth := s.depth + 1 })
      ⟨_, _, rfl, rfl⟩ ?_
    rintro deep t rfl
    cases deep with
    | true => exact hdeep _ (errorAtom_plants _)
    | false => exact hdeep _ hbody
  · rintro cm t ⟨hcm, hmoved⟩
    refine Returns.bind (P := fun _ u => u = { t with depth := t.depth - 1 })
      (Returns.update rfl) ?_
    rintro _ u rfl
    refine Returns.pure ⟨⟨⟨hcm.src, hcm.toks, hcm.units, hcm.unit, hcm.limit, hcm.blockIndent,
      ?_, hcm.pos_le, hcm.bound, hcm.events⟩, hcm.chain⟩, hmoved⟩
    change t.depth - 1 = s.depth
    rw [hcm.depth]
    exact Nat.add_sub_cancel s.depth 1

end Sky.Syntax
