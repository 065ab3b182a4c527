import Sky.Verification.Syntax.Expressions

/-! # The parser makes progress

The top level moves from unit to unit and consumes a token in every round, so
`source_file` returns with a budget of one more than the length of the source, at the end
of the input, and its events consume each significant token once. -/

namespace Sky.Syntax

open Sky.Returning

/-! ## The top level -/

/-- A parser between two units: the limit is the end of the current one. -/
structure Top (s : Parser) : Prop extends Ok s where
  increasing : s.units.Pairwise (· < ·)
  within : ∀ u ∈ s.units, u ≤ s.toks.length
  limit_eq : s.limit = s.units[s.unit + 1]?.getD s.toks.length

/-- A step that may begin other units. -/
structure TopStep (s s' : Parser) : Prop where
  src : s'.src = s.src
  toks : s'.toks = s.toks
  units : s'.units = s.units
  blockIndent : s'.blockIndent = s.blockIndent
  pos_le : s.pos ≤ s'.pos
  top : Top s'
  events : ∃ es, s'.events = s.events ++ es ∧ Flat es ∧
    Emits (between s.toks s.pos s'.pos) (leaves es)

theorem TopStep.refl {s : Parser} (h : Top s) : TopStep s s :=
  ⟨rfl, rfl, rfl, rfl, le_rfl, h, [], by simp, .nil, by simpa using Emits.nil⟩

theorem TopStep.trans {a b c : Parser} (hab : TopStep a b) (hbc : TopStep b c) :
    TopStep a c := by
  obtain ⟨es, hes, hflat, hemits⟩ := hab.events
  obtain ⟨fs, hfs, hflat', hemits'⟩ := hbc.events
  refine ⟨hbc.src.trans hab.src, hbc.toks.trans hab.toks, hbc.units.trans hab.units,
    hbc.blockIndent.trans hab.blockIndent, hab.pos_le.trans hbc.pos_le, hbc.top, es ++ fs,
    ?_, hflat.append hflat', ?_⟩
  · rw [hfs, hes, List.append_assoc]
  · rw [← between_append a.toks hab.pos_le hbc.pos_le, leaves_append]
    rw [hab.toks] at hemits'
    exact hemits.append hemits'

theorem Step.topStep {s s' : Parser} (h : Step s s') (hs : Top s) : TopStep s s' := by
  refine ⟨h.src, h.toks, h.units, h.blockIndent, h.pos_le, ⟨h.ok hs.toOk, ?_, ?_, ?_⟩, h.events⟩
  · rw [h.units]
    exact hs.increasing
  · rw [h.units, h.toks]
    exact hs.within
  · rw [h.limit, h.units, h.unit, h.toks]
    exact hs.limit_eq

theorem TopStep.left_le {s s' : Parser} (h : TopStep s s') : left s' ≤ left s := by
  rw [left, h.toks]
  exact leftFrom_anti s.toks h.pos_le

theorem TopStep.left_lt {s s' : Parser} (h : TopStep s s') (hs : Top s) (hlt : s.pos < s'.pos) :
    left s' < left s := by
  have hpos : s.pos < s.toks.length := by
    have h₁ := h.top.pos_le.trans h.top.limit_le
    rw [h.toks] at h₁
    omega
  rw [left, h.toks, left]
  exact leftFrom_lt (fun t ht => (hs.spans t ht).1) hpos hlt

variable {n : ℕ} {α : Type} {V : α → Prop}

theorem Runs.top {x : P α} (hx : Runs n V x) {s : Parser} (hs : Top s) (hleft : left s < n) :
    Returns x s fun _ s' => TopStep s s' :=
  (hx s hs.toOk hleft).mono fun _ _ h => h.1.topStep hs

theorem Moves.top {x : P α} (hx : Moves n V x) {s : Parser} (hs : Top s) (hend : s.atEnd = false)
    (hleft : left s < n) : Returns x s fun _ s' => TopStep s s' ∧ s.pos < s'.pos :=
  (hx s hs.toOk hend hleft).mono fun _ _ h => ⟨h.1.topStep hs, h.2.1⟩

/-- Beginning a unit keeps the cursor; then only the end of the tokens reads as the end. -/
theorem beginUnit_top {s : Parser} (hs : Top s) :
    Returns beginUnit s fun _ s' => TopStep s s' ∧ s'.pos = s.pos ∧
      (s'.atEnd = true → s'.pos = s'.toks.length) := by
  refine Returns.update ?_
  have hle := hs.pos_le
  have hlen := hs.limit_le
  split
  · rename_i hstay
    refine ⟨TopStep.refl hs, rfl, fun hend => ?_⟩
    have heq := hs.atEnd_iff.mp hend
    omega
  · rename_i hmove
    have hpos : s.pos = s.limit := by omega
    have hlt : s.pos < s.toks.length := by omega
    have hunit : s.units[s.unit + 1]? = some s.pos := by
      have hlimit := hs.limit_eq
      cases hu : s.units[s.unit + 1]? with
      | none =>
          rw [hu, Option.getD_none] at hlimit
          omega
      | some u =>
          rw [hu, Option.getD_some] at hlimit
          rw [hpos, hlimit]
    have hnext : s.pos < s.units[s.unit + 2]?.getD s.toks.length ∧
        s.units[s.unit + 2]?.getD s.toks.length ≤ s.toks.length := by
      cases hu : s.units[s.unit + 2]? with
      | none => exact ⟨hlt, le_rfl⟩
      | some u =>
          obtain ⟨h₁, he₁⟩ := List.getElem?_eq_some_iff.mp hunit
          obtain ⟨h₂, he₂⟩ := List.getElem?_eq_some_iff.mp hu
          have hinc := List.pairwise_iff_getElem.mp hs.increasing _ _ h₁ h₂ (by omega)
          rw [he₁, he₂] at hinc
          exact ⟨hinc, hs.within u (he₂ ▸ List.getElem_mem h₂)⟩
    refine ⟨⟨rfl, rfl, rfl, rfl, le_rfl, ⟨⟨hnext.2, hnext.1.le, hs.spans⟩, hs.increasing,
      hs.within, rfl⟩, [], (List.append_nil _).symm, .nil, ?_⟩, rfl, ?_⟩
    · change Emits (between s.toks s.pos s.pos) []
      rw [between_self]
      exact .nil
    · intro hend
      have hmin : min (s.units[s.unit + 2]?.getD s.toks.length) s.toks.length ≤ s.pos := by
        simpa [Parser.atEnd] using hend
      omega

/-- The declarations: every round begins a unit and consumes a token, until the end. -/
theorem declarations_top {e : Entries} (h : Level n e) {s : Parser} (hs : Top s)
    (hleft : left s < n) :
    Returns (loop e.fuel (fun _ => do
      beginUnit
      branch (·.atEnd) (pure (.done ())) do
        topLevel e
        pure (.yield ())) ()) s fun _ s' => TopStep s s' ∧ s'.pos = s'.toks.length := by
  refine Returns.loop (μ := fun _ t => left t) (I := fun _ t => TopStep s t) ?_ e.fuel () s
    (TopStep.refl hs) (lt_of_lt_of_le hleft h.le_fuel)
  intro _ t ht
  refine (beginUnit_top ht.top).bind ?_
  rintro _ u ⟨hu, hpos, hend⟩
  have hsu := ht.trans hu
  refine Returns.branch (fun hat => Returns.pure ⟨hsu, hend hat⟩) fun hat => ?_
  refine ((topLevel_moves h).top hu.top hat (lt_of_le_of_lt hsu.left_le hleft)).bind ?_
  rintro _ v ⟨hv, hlt⟩
  refine Returns.pure ⟨hsu.trans hv, ?_⟩
  exact (hu.trans hv).left_lt ht.top (hpos ▸ hlt)

/-- The imports: every round consumes a token. -/
theorem imports_top {e : Entries} (h : Level n e) {s : Parser} (hs : Top s) (hleft : left s < n) :
    Returns (whileLoop e.fuel (·.isAt .importKw)
      (fun _ => do importDecl e.fuel; beginUnit) ()) s fun _ s' => TopStep s s' := by
  refine Returns.mono (Returns.whileLoop (μ := fun _ t => left t) (I := fun _ t => TopStep s t)
    ?_ (TopStep.refl hs) (lt_of_lt_of_le hleft h.le_fuel)) fun _ _ ht => ht.1
  intro _ t ht hat
  refine ((importDecl_moves h.le_fuel).top ht.top (atEnd_of_isAt (by decide) hat)
    (lt_of_le_of_lt ht.left_le hleft)).bind ?_
  rintro _ u ⟨hu, hlt⟩
  refine (beginUnit_top hu.top).mono ?_
  rintro _ v ⟨hv, hpos, -⟩
  exact ⟨(ht.trans hu).trans hv, (hu.trans hv).left_lt ht.top (hpos ▸ hlt)⟩

theorem withIndent_top {x : P α} {s : Parser} {R : ℕ → Prop} (anchor : ℕ) (hs : Top s)
    (hx : ∀ t, Top t → t.toks = s.toks → t.pos = s.pos →
      Returns x t fun _ t' => TopStep t t' ∧ R t'.pos) :
    Returns (withIndent anchor x) s fun _ s' => TopStep s s' ∧ R s'.pos := by
  refine Returns.get_bind ?_
  refine Returns.bind (P := fun _ t => t = { s with blockIndent := anchor })
    (Returns.update rfl) ?_
  rintro _ t rfl
  refine (hx { s with blockIndent := anchor } ⟨⟨hs.limit_le, hs.pos_le, hs.spans⟩,
    hs.increasing, hs.within, hs.limit_eq⟩ rfl rfl).bind ?_
  rintro a t' ⟨hstep, hR⟩
  refine Returns.bind (P := fun _ u => u = { t' with blockIndent := s.blockIndent })
    (Returns.update rfl) ?_
  rintro _ u rfl
  have htop := hstep.top
  exact Returns.pure ⟨⟨hstep.src, hstep.toks, hstep.units, rfl, hstep.pos_le,
    ⟨⟨htop.limit_le, htop.pos_le, htop.spans⟩, htop.increasing, htop.within, htop.limit_eq⟩,
    hstep.events⟩, hR⟩

/-- What `source_file` does: it reads every token, and its events are one chain. -/
structure Parsed (s s' : Parser) : Prop where
  pos : s'.pos = s.toks.length
  chain : ∃ segs, Linked segs ∧ s'.events = s.events ++ chainEvents segs ∧
    Emits (between s.toks s.pos s.toks.length) (leaves (chainEvents segs))

theorem sourceFile_parsed {e : Entries} (h : Level n e) {s : Parser} (hs : Top s)
    (hleft : left s < n) : Returns (sourceFile e) s fun _ s' => Parsed s s' := by
  refine Returns.bind (P := fun _ s' => Parsed s s') ?_ fun _ _ h => Returns.pure h
  refine Returns.bind (P := fun m t => m.pos = s.events.length ∧
    t = { s with events := s.events ++ [Event.tombstone] }) ⟨_, _, rfl, rfl, rfl⟩ ?_
  rintro m t ⟨hm, ht⟩
  have htop : Top t := by
    rw [ht]
    exact ⟨hs.toOk.withEvents _, hs.increasing, hs.within, hs.limit_eq⟩
  have hleft₀ : left t < n := by
    rw [ht]
    exact hleft
  refine Returns.bind (P := fun kind s' => kind = .sourceFile ∧ TopStep t s' ∧
    s'.pos = t.toks.length) ?_ ?_
  · refine (beginUnit_top htop).bind ?_
    rintro _ s₁ ⟨h₁, -⟩
    refine (((moduleHeader_runs h.le_fuel).branch (Runs.pure trivial)).top h₁.top
      (lt_of_le_of_lt h₁.left_le hleft₀)).bind ?_
    intro _ s₂ h₂
    refine (beginUnit_top h₂.top).bind ?_
    rintro _ s₃ ⟨h₃, -⟩
    have h₁₃ := (h₁.trans h₂).trans h₃
    refine (imports_top h h₃.top (lt_of_le_of_lt h₁₃.left_le hleft₀)).bind ?_
    intro _ s₄ h₄
    have h₁₄ := h₁₃.trans h₄
    have hleft₄ : left s₄ < n := lt_of_le_of_lt h₁₄.left_le hleft₀
    refine (withIndent_top (R := fun pos => pos = s₄.toks.length) 1 h₄.top ?_).bind ?_
    · intro u hu htoks hpos
      refine (declarations_top h hu ?_).mono ?_
      · rw [left, htoks, hpos]
        exact hleft₄
      · rintro _ u' ⟨hstep, hend⟩
        exact ⟨hstep, by rw [hend, hstep.toks, htoks]⟩
    · rintro _ s₅ ⟨h₅, hpos⟩
      exact Returns.pure ⟨rfl, h₁₄.trans h₅, by rw [hpos, h₁₄.toks]⟩
  · rintro kind s' ⟨rfl, hstep, hpos⟩
    obtain ⟨es, hes, hflat, hemits⟩ := hstep.events
    subst ht
    have hevents : s'.events = s.events ++ (.tombstone :: es) := by
      rw [hes]
      simp
    refine ⟨_, _, complete_eq hm hevents, hpos, [(.sourceFile, es)],
      Linked.single (by decide) hflat, rfl, ?_⟩
    rw [hpos] at hemits
    simpa [chainEvents] using hemits

/-! ## Lexical units -/

/-- Tokens with text within the source. -/
def WithinSource (src : List Char) (toks : List PToken) : Prop :=
  ∀ t ∈ toks, t.start < t.stop ∧ t.stop ≤ src.length

theorem between_within {src : List Char} {toks : List PToken} (h : WithinSource src toks)
    (a b : ℕ) : WithinSource src ((toks.take b).drop a) :=
  fun t ht => h t (List.mem_of_mem_take (List.mem_of_mem_drop ht))

theorem leftFrom_between (toks : List PToken) (a b : ℕ) :
    leftFrom ((toks.take b).drop a) 0 ≤ leftFrom toks 0 := by
  have hsub : ((toks.take b).drop a).Sublist toks :=
    (List.drop_sublist a _).trans (List.take_sublist b _)
  exact (hsub.map _).sum_le_sum (by simp)

theorem new_top {src : List Char} {toks : List PToken} (h : WithinSource src toks) :
    Top (Parser.new src toks) :=
  ⟨new_ok h, by simp [Parser.new, Parser.withUnits], by simp [Parser.new, Parser.withUnits], rfl⟩

section

variable {logos : Logos} (hlogos : logos.Partitions) {fuel : ℕ} {src : List Char}
  {toks : List PToken} (hwithin : WithinSource src toks) (hfuel : leftFrom toks 0 < fuel)

include hlogos hwithin hfuel

/-- The trial parse of a keyword line returns. -/
theorem keywordNamesADeclaration_returns (units : List ℕ) (i : ℕ) (t : PToken) :
    ∃ b, keywordNamesADeclaration logos fuel src toks units i t = some b := by
  unfold keywordNamesADeclaration
  split
  · exact ⟨_, rfl⟩
  dsimp only
  split
  · exact ⟨_, rfl⟩
  split
  · exact ⟨_, rfl⟩
  split
  · exact ⟨_, rfl⟩
  · rename_i first _
    obtain ⟨_, s', hrun, -⟩ := sourceFile_parsed (entries_level hlogos fuel)
      (new_top (between_within hwithin first _))
      (lt_of_le_of_lt (leftFrom_between toks first _) hfuel)
    exact ⟨_, by rw [hrun]; rfl⟩

theorem lineStart_returns (units : List ℕ) (i : ℕ) (t : PToken) :
    ∃ b, lineStart logos fuel src toks units i t = some b := by
  unfold lineStart
  dsimp only
  split
  · exact ⟨_, rfl⟩
  · split
    · exact keywordNamesADeclaration_returns hlogos hwithin hfuel units i t
    · exact ⟨_, rfl⟩

/-- The unit starts are found, in order. -/
theorem lexicalUnitsFrom_returns (rest : List PToken) :
    ∀ (i : ℕ) (units : List ℕ), units.Pairwise (· < ·) → (∀ u ∈ units, u < i) →
      ∃ units', lexicalUnitsFrom logos fuel src toks rest i units = some units' ∧
        units'.Pairwise (· < ·) ∧ ∀ u ∈ units', u < i + rest.length := by
  induction rest with
  | nil => intro i units hinc hlt; exact ⟨units, rfl, hinc, hlt⟩
  | cons t rest ih =>
      intro i units hinc hlt
      obtain ⟨begins, hbegins⟩ := lineStart_returns hlogos hwithin hfuel units i t
      have hstay : ∀ u ∈ units, u < i + 1 := fun u hu => (hlt u hu).trans (Nat.lt_succ_self i)
      have hgrow : (units ++ [i]).Pairwise (· < ·) ∧ ∀ u ∈ units ++ [i], u < i + 1 := by
        refine ⟨List.pairwise_append.mpr ⟨hinc, by simp, ?_⟩, ?_⟩
        · intro u hu v hv
          rw [List.mem_singleton.mp hv]
          exact hlt u hu
        · intro u hu
          rcases List.mem_append.mp hu with hu | hu
          · exact hstay u hu
          · rw [List.mem_singleton.mp hu]
            exact Nat.lt_succ_self i
      have hlen : i + 1 + rest.length = i + (t :: rest).length := by
        rw [List.length_cons]
        omega
      rw [lexicalUnitsFrom, hbegins, ← hlen]
      simp only [Option.bind_eq_bind, Option.bind_some]
      split
      · exact ih (i + 1) units hinc hstay
      · exact ih (i + 1) (units ++ [i]) hgrow.1 hgrow.2

theorem newFile_top : ∃ p, Parser.newFile logos fuel src toks = some p ∧ Top p ∧
    p.toks = toks ∧ p.pos = 0 ∧ p.events = [] := by
  obtain ⟨units, hunits, hinc, hlt⟩ := lexicalUnitsFrom_returns hlogos hwithin hfuel
    toks 0 [] .nil (by simp)
  have hwithin' : ∀ u ∈ units, u ≤ toks.length := by
    intro u hu
    have := hlt u hu
    omega
  have hlimit : units[1]?.getD toks.length ≤ toks.length := by
    cases hu : units[1]? with
    | none => exact le_rfl
    | some u => exact hwithin' u (List.mem_of_getElem? hu)
  refine ⟨Parser.withUnits src toks units, ?_, ⟨⟨hlimit, Nat.zero_le _, hwithin⟩, hinc, hwithin',
    rfl⟩, rfl, rfl, rfl⟩
  rw [Parser.newFile, lexicalUnits, hunits]
  rfl

/-- A file parse returns at the end of the tokens with one chain of events. -/
theorem runGrammar_parsed : ∃ done segs, runGrammar logos fuel src toks = some done ∧
    done.pos = toks.length ∧ Linked segs ∧ done.events = chainEvents segs ∧
    Emits toks (leaves (chainEvents segs)) := by
  obtain ⟨p, hp, htop, htoks, hpos, hevents⟩ := newFile_top hlogos hwithin hfuel
  obtain ⟨_, done, hrun, hparsed⟩ := sourceFile_parsed (entries_level hlogos fuel) htop
    (by rw [left, htoks, hpos]; exact hfuel)
  obtain ⟨segs, hlinked, hsegs, hemits⟩ := hparsed.chain
  rw [htoks, hpos] at hemits
  refine ⟨done, segs, ?_, ?_, hlinked, ?_, ?_⟩
  · rw [runGrammar, hp]
    change (sourceFile (entries logos fuel) p >>= _) = _
    rw [hrun]
    rfl
  · rw [hparsed.pos, htoks]
  · rw [hsegs, hevents]
    rfl
  · simpa [between] using hemits

end

/-! ## Progress -/

/-- The event consumes a significant token. -/
def Event.consumes : Event → Bool
  | .token _ | .skip => true
  | .start _ _ | .finish | .rawSlice _ _ _ => false

/-- The event consumes this token: under its own kind, or to cover it again by slices. -/
def Consumes (e : Event) (t : PToken) : Prop := e = .token t.kind ∨ e = .skip

theorem Slices.consumes {a b : ℕ} {ss : List Event} (h : Slices a b ss) :
    ss.filter Event.consumes = [] := by
  induction h with
  | nil => rfl
  | cons _ _ ih => simpa [Event.consumes] using ih

theorem Emits.consumes {ts : List PToken} {es : List Event} (h : Emits ts es) :
    List.Forall₂ Consumes (es.filter Event.consumes) ts := by
  induction h with
  | nil => exact .nil
  | token _ ih => exact .cons (.inl rfl) ih
  | skip hs _ ih =>
      have hskip : Event.consumes .skip = true := rfl
      rw [List.filter_cons_of_pos hskip, List.filter_append, hs.consumes, List.nil_append]
      exact .cons (.inr rfl) ih

theorem filter_consumes_leaves (es : List Event) :
    (leaves es).filter Event.consumes = es.filter Event.consumes := by
  rw [leaves, List.filter_filter]
  refine List.filter_congr fun e _ => ?_
  cases e <;> rfl

/-- Every round of every loop consumes a token or is the last. -/
structure LoopsProgress (n : ℕ) (e : Entries) : Prop where
  declarations : Moves n Anything (topLevel e)
  imports : Moves n Anything (importDecl e.fuel)
  bindings : ∀ anchor, Rounds n Anything (letRound e anchor)
  branches : ∀ anchor, Rounds n Anything (caseRound e anchor)
  tupleItems : ∀ item, Plants n item → Rounds n Anything (tupleRound item)
  listItems : ∀ item, Plants n item → Rounds n Anything (listRound item)
  fields : ∀ close item, Runs n Anything item → Rounds n Anything (commaRound close item)
  recovery : ∀ msg recovery s, Ok s → recoveryStops recovery s = false → left s < n →
    Returns (errRecover e.fuel msg recovery) s fun _ s' => Step s s' ∧ s.pos < s'.pos

theorem Level.loopsProgress {n : ℕ} {e : Entries} (h : Level n e) : LoopsProgress n e where
  declarations := topLevel_moves h
  imports := importDecl_moves h.le_fuel
  bindings := letRound_rounds h
  branches := caseRound_rounds h
  tupleItems _ hitem := tupleRound_rounds hitem
  listItems _ hitem := listRound_rounds hitem
  fields close _ hitem := commaRound_rounds close hitem
  recovery msg _ _ hs hstops hleft := errRecover_moves h.le_fuel msg hs hstops hleft

/-- A scanner for sources whose tokens are single characters. -/
def charLogos : Logos where
  lexer src := src.zipIdx.map fun (c, i) => (charClass c, i, i + 1)
  isUppercase := Char.isUpper
where
  charClass : Char → Option Lx
    | ' ' | '\t' | '\r' => some .ws
    | '\n' => some .nl
    | '(' => some .lParen
    | ')' => some .rParen
    | ',' => some .comma
    | '=' | ':' | '+' => some .op
    | c => if c.isAlpha then some .ident else if c.isDigit then some .int else none

theorem spans_of_consecutive {f : Char × ℕ → LexToken}
    (hf : ∀ c i, (f (c, i)).start = i ∧ (f (c, i)).stop = i + 1) (src : List Char) (k : ℕ) :
    Spans k (k + src.length) ((src.zipIdx k).map f) := by
  induction src generalizing k with
  | nil => exact .nil
  | cons c src ih =>
      have hrest := ih (k + 1)
      obtain ⟨hstart, hstop⟩ := hf c k
      rw [List.zipIdx_cons, List.map_cons, List.length_cons]
      have hlen : k + (src.length + 1) = k + 1 + src.length := by omega
      rw [hlen]
      have hcons : Spans (f (c, k)).start (k + 1 + src.length)
          (f (c, k) :: (src.zipIdx (k + 1)).map f) := by
        refine .cons (by omega) ?_
        rw [hstop]
        exact hrest
      rwa [hstart] at hcons

theorem charLogos_partitions : charLogos.Partitions := by
  intro src
  rw [lex, charLogos, List.map_map, ← Nat.zero_add src.length]
  exact spans_of_consecutive (fun _ _ => ⟨rfl, rfl⟩) src 0

/-- The parser makes progress on every source: with a budget above the source's length,
the lexical units are found, every loop consumes a token a round or exits, and
`source_file` returns at the end of the tokens with events that consume each significant
token exactly once and in order. -/
theorem source_file_progress {logos : Logos} (hlogos : logos.Partitions) (src : List Char)
    {fuel : ℕ} (hfuel : src.length < fuel) :
    LoopsProgress fuel (entries logos fuel) ∧
      ∃ done, runGrammar logos fuel src (layout src (lex logos src)) = some done ∧
        done.pos = (layout src (lex logos src)).length ∧
        List.Forall₂ Consumes (done.events.filter Event.consumes)
          (layout src (lex logos src)) := by
  refine ⟨(entries_level hlogos fuel).loopsProgress, ?_⟩
  have hspans := hlogos src
  obtain ⟨done, segs, hrun, hpos, -, hevents, hemits⟩ := runGrammar_parsed hlogos
    (layout_spans hspans) (lt_of_le_of_lt (leftFrom_layout hspans) hfuel)
  refine ⟨done, hrun, hpos, ?_⟩
  rw [hevents, ← filter_consumes_leaves]
  exact hemits.consumes

theorem source_file_progress_binding :
    LoopsProgress 4 (entries charLogos 4) ∧
      ∃ done, runGrammar charLogos 4 ['f', '=', 'x']
          (layout ['f', '=', 'x'] (lex charLogos ['f', '=', 'x'])) = some done ∧
        done.pos = (layout ['f', '=', 'x'] (lex charLogos ['f', '=', 'x'])).length ∧
        List.Forall₂ Consumes (done.events.filter Event.consumes)
          (layout ['f', '=', 'x'] (lex charLogos ['f', '=', 'x'])) :=
  source_file_progress charLogos_partitions ['f', '=', 'x'] (by decide)

/-! ## The parser is lossless

The events of a file are one chain that consumes every significant token, so the tree
they build spells the source: trivia in place, each token once, and the interior of a
multiline string by its slices. -/

/-- Every source parses, with a budget above its length, and the leaves of its tree spell
it. -/
theorem parse_lossless {logos : Logos} (hlogos : logos.Partitions) (src : List Char) {fuel : ℕ}
    (hfuel : src.length < fuel) :
    ∃ p, parse logos fuel src = some p ∧ p.reprint = src := by
  have hspans := hlogos src
  obtain ⟨done, segs, hrun, -, hlinked, hevents, hemits⟩ := runGrammar_parsed hlogos
    (layout_spans hspans) (lt_of_le_of_lt (leftFrom_layout hspans) hfuel)
  obtain ⟨green, hbuild, htext, -⟩ := buildTree_chain hspans hlinked hemits
  refine ⟨{ green := green, errors := done.diags }, ?_, htext⟩
  simp only [parse, hrun, hevents, hbuild, Option.bind_eq_bind, Option.bind_some]
  rfl

theorem parse_lossless_unclosed :
    ∃ p, parse charLogos 6 ['f', '=', '(', 'x', '\n'] = some p ∧
      p.reprint = ['f', '=', '(', 'x', '\n'] :=
  parse_lossless charLogos_partitions ['f', '=', '(', 'x', '\n'] (by decide)

end Sky.Syntax
