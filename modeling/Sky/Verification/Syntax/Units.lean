import Sky.Verification.Syntax.Progress
import Sky.Verification.Syntax.Twin

/-! # A file unit by unit

`source_file` reads the header, the imports and the declarations by loops that cross from one
lexical unit to the next. Here the same parse is cut at the ends of the units. -/

namespace Sky.Syntax

open Sky.Returning

/-! ## The parse of one unit -/

/-- What a unit is read as. -/
inductive Section where
  | header
  | imports
  | declarations
  deriving DecidableEq

/-- The declarations of a unit, up to its end. -/
def declarations (e : Entries) : P Unit :=
  whileLoop e.fuel (fun p => !p.atEnd) (fun _ => topLevel e) ()

/-- The imports of a unit, and the rest of it as declarations. -/
def imports (e : Entries) : P Section := do
  whileLoop e.fuel (·.isAt .importKw) (fun _ => importDecl e.fuel) ()
  branch (·.atEnd) (pure .imports) do
    modify fun p => { p with blockIndent := 1 }
    declarations e
    pure .declarations

/-- The parse of a unit; what the next one is read as. -/
def readUnit (e : Entries) : Section → P Section
  | .header => do
      branch (·.isAt .moduleKw) (moduleHeader e.fuel) (pure ())
      imports e
  | .imports => imports e
  | .declarations => do
      declarations e
      pure .declarations

/-- The parser that `begin_unit` leaves. -/
def Parser.begun (p : Parser) : Parser :=
  if p.pos < p.limit ∨ p.toks.length ≤ p.pos then p
  else
    { p with
      unit := p.unit + 1
      limit := p.units[p.unit + 2]?.getD p.toks.length
      unitErrored := false }

/-- What the parse of a unit adds to the file's, and what the next unit is read as. -/
structure Piece where
  events : List Event
  diags : List Diagnostic
  after : Section

def piece (s : Parser) (after : Section) (s' : Parser) : Piece where
  events := s'.events.drop s.events.length
  diags := s'.diags.drop s.diags.length
  after := after

/-- From the start of a unit or the end of one, the units ahead are read in turn. -/
inductive Reads (e : Entries) : Section → Parser → List Piece → Parser → Prop where
  | done {sec s} (h : s.toks.length ≤ s.pos) : Reads e sec s [] s
  | unit {sec s sec₁ s₁ ps s'} (h : s.pos < s.toks.length)
      (hunit : readUnit e sec s.begun = some (sec₁, s₁)) (hrest : Reads e sec₁ s₁ ps s') :
      Reads e sec s (piece s.begun sec₁ s₁ :: ps) s'

/-- The file's parser with its own node open. -/
def opened (p : Parser) : Parser := { p with events := p.events ++ [.tombstone] }

/-! ## One round -/

def declRound (e : Entries) : Unit → P (ForInStep Unit) := fun _ => do
  beginUnit
  branch (·.atEnd) (pure (.done ())) do
    topLevel e
    pure (.yield ())

def importRound (e : Entries) : Unit → P (ForInStep Unit) := fun _ => do
  beginUnit
  branch (·.isAt .importKw)
    (do
      importDecl e.fuel
      pure (.yield ()))
    (pure (.done ()))

variable {e : Entries} {s s₁ s' : Parser} {n k m : ℕ}

theorem begun_inside (h : s.pos < s.limit) : s.begun = s := if_pos (Or.inl h)

theorem begun_of_not_atEnd (h : s.atEnd = false) : s.begun = s := by
  refine begun_inside ?_
  have hmin := of_decide_eq_false h
  omega

theorem begun_done (h : s.toks.length ≤ s.pos) : s.begun = s := if_pos (Or.inr h)

theorem declRound_eq (s : Parser) : declRound e () s =
    branch (·.atEnd) (pure (.done ())) (do topLevel e; pure (.yield ())) s.begun := rfl

theorem importRound_eq (s : Parser) : importRound e () s =
    branch (·.isAt .importKw) (do importDecl e.fuel; pure (.yield ())) (pure (.done ())) s.begun :=
  rfl

theorem begun_pos (s : Parser) : s.begun.pos = s.pos := by
  rw [Parser.begun]
  split <;> rfl

theorem begun_left (s : Parser) : left s.begun = left s := by
  rw [Parser.begun]
  split <;> rfl

theorem begun_top (hs : Top s) : TopStep s s.begun := by
  obtain ⟨_, u, hu, htop, -⟩ := beginUnit_top hs
  obtain ⟨-, rfl⟩ := Prod.mk.inj (Option.some.inj hu)
  exact htop

theorem begun_atEnd (hs : Top s) (h : s.pos < s.toks.length) : s.begun.atEnd = false := by
  obtain ⟨_, u, hu, htop, hpos, hend⟩ := beginUnit_top hs
  obtain ⟨-, rfl⟩ := Prod.mk.inj (Option.some.inj hu)
  rw [Bool.eq_false_iff]
  intro hat
  have hlast := hend hat
  rw [hpos, htop.toks] at hlast
  omega

theorem begun_begun (hs : Top s) : s.begun.begun = s.begun := by
  by_cases h : s.pos < s.toks.length
  · exact begun_of_not_atEnd (begun_atEnd hs h)
  · have hdone := begun_done (s := s) (by omega)
    rw [hdone, hdone]

/-- A loop of rounds that begin a unit starts where the unit does. -/
theorem loop_begun {f : Unit → P (ForInStep Unit)} {g : P (ForInStep Unit)}
    (hf : ∀ s, f () s = g s.begun) (hs : Top s) : loop m f () s.begun = loop m f () s := by
  cases m with
  | zero => rfl
  | succ m =>
      have hround : f () s.begun = f () s := by rw [hf, hf, begun_begun hs]
      change (f () s.begun >>= fun p => _) = (f () s >>= fun p => _)
      rw [hround]

/-- The declarations of a unit are rounds of the file's loop. -/
theorem declarations_rounds (h : whileLoop k (fun p : Parser => !p.atEnd) (fun _ => topLevel e) () s =
    some ((), s₁)) {r : Unit × Parser} (hrest : loop m (declRound e) () s₁ = some r) :
    ∃ m', loop m' (declRound e) () s = some r := by
  induction k generalizing s with
  | zero => exact absurd h (by simp [whileLoop, loop])
  | succ k ih =>
      rcases whileLoop_cases h with ⟨-, -, rfl⟩ | ⟨hcond, ⟨⟩, t, ht, hloop⟩
      · exact ⟨m, hrest⟩
      · obtain ⟨m', hm'⟩ := ih hloop
        refine ⟨m' + 1, (loop_yield ?_).trans hm'⟩
        have hend : s.atEnd = false := by simpa using hcond
        rw [declRound_eq, begun_of_not_atEnd hend, branch, if_neg (by simp [hend])]
        exact bind_of_eq ht

/-- The imports of a unit are rounds of the file's loop. -/
theorem imports_rounds (h : whileLoop k (fun p : Parser => p.isAt .importKw)
    (fun _ => importDecl e.fuel) () s = some ((), s₁)) {r : Unit × Parser}
    (hrest : loop m (importRound e) () s₁ = some r) :
    ∃ m', loop m' (importRound e) () s = some r := by
  induction k generalizing s with
  | zero => exact absurd h (by simp [whileLoop, loop])
  | succ k ih =>
      rcases whileLoop_cases h with ⟨-, -, rfl⟩ | ⟨hcond, ⟨⟩, t, ht, hloop⟩
      · exact ⟨m, hrest⟩
      · obtain ⟨m', hm'⟩ := ih hloop
        refine ⟨m' + 1, (loop_yield ?_).trans hm'⟩
        have hend := atEnd_of_isAt (by decide) hcond
        rw [importRound_eq, begun_of_not_atEnd hend, branch, if_pos hcond]
        exact bind_of_eq ht

/-! ## Every unit is read -/

theorem declarations_return (h : Level n e) (hs : Top s) (hleft : left s < n) :
    Returns (declarations e) s fun _ s' => Step s s' ∧ s'.atEnd = true := by
  refine (Returns.whileLoop (μ := fun _ t => left t) (I := fun _ t => Step s t) ?_
    (Step.refl s) (lt_of_lt_of_le hleft h.le_fuel)).mono ?_
  · intro _ t ht hcond
    have hok := ht.ok hs.toOk
    have hend : t.atEnd = false := by simpa using hcond
    refine (topLevel_moves h t hok hend (lt_of_le_of_lt ht.left_le hleft)).mono ?_
    rintro _ u ⟨hu, hlt, -⟩
    exact ⟨ht.trans hu, hu.left_lt hok hlt⟩
  · rintro _ t ⟨ht, hcond⟩
    exact ⟨ht, by simpa using hcond⟩

theorem importLoop_return (h : Level n e) (hs : Top s) (hleft : left s < n) :
    Returns (whileLoop e.fuel (·.isAt .importKw) (fun _ => importDecl e.fuel) ()) s fun _ s' =>
      Step s s' ∧ s'.isAt .importKw = false := by
  refine Returns.whileLoop (μ := fun _ t => left t) (I := fun _ t => Step s t) ?_
    (Step.refl s) (lt_of_lt_of_le hleft h.le_fuel)
  intro _ t ht hcond
  have hok := ht.ok hs.toOk
  refine (importDecl_moves h.le_fuel t hok (atEnd_of_isAt (by decide) hcond)
    (lt_of_le_of_lt ht.left_le hleft)).mono ?_
  rintro _ u ⟨hu, hlt, -⟩
  exact ⟨ht.trans hu, hu.left_lt hok hlt⟩

/-- The anchor in a section: declarations go on past column 1. -/
def Section.indent : Section → ℕ
  | .header | .imports => 0
  | .declarations => 1

/-- A unit is read from `s` to its end at `s'`. -/
structure UnitRead (s : Parser) (sec : Section) (s' : Parser) : Prop where
  after : sec ≠ .header
  step : Step { s with blockIndent := sec.indent } s'
  atEnd : s'.atEnd = true

theorem Top.withIndent (h : Top s) (anchor : ℕ) : Top { s with blockIndent := anchor } :=
  ⟨⟨h.limit_le, h.pos_le, h.spans⟩, h.increasing, h.within, h.limit_eq⟩

theorem Step.withIndent (h : Step s s') (anchor : ℕ) :
    Step { s with blockIndent := anchor } { s' with blockIndent := anchor } :=
  ⟨h.src, h.toks, h.units, h.unit, h.limit, rfl, h.depth, h.pos_le, h.bound, h.events⟩

theorem withIndent_self {b : ℕ} (h : s.blockIndent = b) : { s with blockIndent := b } = s := by
  rw [← h]

theorem imports_return (h : Level n e) (hs : Top s) (hleft : left s < n)
    (hindent : s.blockIndent = 0) :
    Returns (imports e) s fun sec s' => UnitRead s sec s' := by
  refine (importLoop_return h hs hleft).bind ?_
  rintro _ t ⟨hstep, -⟩
  have htop := (hstep.topStep hs).top
  refine Returns.branch (fun hend => Returns.pure ⟨by simp, ?_, hend⟩) fun _ => ?_
  · rwa [Section.indent, withIndent_self hindent]
  · refine Returns.bind (P := fun _ u => u = { t with blockIndent := 1 }) (Returns.update rfl) ?_
    rintro _ _ rfl
    refine (declarations_return h (htop.withIndent 1)
      (lt_of_le_of_lt hstep.left_le hleft)).bind ?_
    rintro _ v ⟨hv, hend⟩
    exact Returns.pure ⟨by simp, (hstep.withIndent 1).trans hv, hend⟩

theorem header_runs (h : Level n e) :
    Runs n Anything (branch (·.isAt .moduleKw) (moduleHeader e.fuel) (pure ())) :=
  (moduleHeader_runs h.le_fuel).branch (Runs.pure trivial)

theorem readUnit_return (h : Level n e) (hs : Top s) (hleft : left s < n) {sec : Section}
    (hindent : s.blockIndent = sec.indent) :
    Returns (readUnit e sec) s fun sec' s' => UnitRead s sec' s' := by
  cases sec with
  | header =>
      refine (header_runs h s hs.toOk hleft).bind ?_
      rintro _ t ⟨hstep, -⟩
      refine (imports_return h (hstep.topStep hs).top (lt_of_le_of_lt hstep.left_le hleft)
        (hstep.blockIndent.trans hindent)).mono ?_
      intro sec' s' hread
      exact ⟨hread.after, (hstep.withIndent _).trans hread.step, hread.atEnd⟩
  | imports => exact imports_return h hs hleft hindent
  | declarations =>
      refine (declarations_return h hs hleft).bind ?_
      rintro _ t ⟨hstep, hend⟩
      refine Returns.pure ⟨by simp, ?_, hend⟩
      rwa [withIndent_self hindent]

/-- A unit is read to its end. -/
theorem UnitRead.left_lt {sec : Section} (h : UnitRead s sec s') (hs : Top s)
    (hend : s.atEnd = false) : left s' < left s := by
  have hstep := h.step
  have hok : Ok { s with blockIndent := sec.indent } := (hs.withIndent _).toOk
  have hpos := (hstep.ok hok).atEnd_iff.1 h.atEnd
  obtain ⟨_, -, -, hinside⟩ := hs.inside hend
  have hlimit : s'.limit = s.limit := hstep.limit
  exact hstep.left_lt hok (show s.pos < s'.pos by omega)

theorem UnitRead.top {sec : Section} (h : UnitRead s sec s') (hs : Top s) : Top s' :=
  (h.step.topStep (hs.withIndent _)).top

theorem Top.atEnd_last (hs : Top s) (h : s.toks.length ≤ s.pos) : s.atEnd = true := by
  have hlimit := hs.limit_le
  have hpos := hs.pos_le
  exact hs.atEnd_iff.2 (by omega)

theorem declarations_done (hs : Top s) (h : s.toks.length ≤ s.pos) :
    loop 1 (declRound e) () s = some ((), s) := by
  refine loop_done ?_
  rw [declRound_eq, begun_done h, branch, if_pos (hs.atEnd_last h)]
  rfl

/-- The declarations from `s` on are those of its units. -/
theorem declarations_read (h : Level n e) (hs : Top s) (hleft : left s < n) :
    ∃ ps s' m, Reads e .declarations s ps s' ∧ loop m (declRound e) () s = some ((), s') := by
  induction hl : left s using Nat.strong_induction_on generalizing s with
  | _ l ih =>
      subst hl
      by_cases hmore : s.pos < s.toks.length
      · have hbegun := begun_top hs
        have hend := begun_atEnd hs hmore
        have hleft' : left s.begun < n := by rwa [begun_left]
        obtain ⟨_, t, ht, hstep, hlast⟩ := declarations_return h hbegun.top hleft'
        have htop := (hstep.topStep hbegun.top).top
        have hlt : s.begun.pos < t.pos := by
          have hpos := htop.atEnd_iff.1 hlast
          obtain ⟨_, -, -, hinside⟩ := hbegun.top.inside hend
          rw [hpos, hstep.limit]
          exact hinside
        have hdecrease := hstep.left_lt hbegun.top.toOk hlt
        rw [begun_left] at hdecrease
        obtain ⟨ps, s', m, hreads, hloop⟩ := ih (left t) hdecrease htop (by omega) rfl
        obtain ⟨m', hm'⟩ := declarations_rounds ht hloop
        refine ⟨_, s', m', .unit hmore ?_ hreads, ?_⟩
        · exact bind_of_eq ht
        · rwa [loop_begun declRound_eq hs] at hm'
      · exact ⟨[], s, 1, .done (by omega), declarations_done hs (by omega)⟩

/-- What `source_file` does once the header is read. -/
def importTail (e : Entries) (m : ℕ) : P Unit := do
  loop m (importRound e) ()
  withIndent 1 (loop m (declRound e) ())

theorem withIndent_run {α : Type} {x : P α} {anchor : ℕ} {a : α}
    (h : x { s with blockIndent := anchor } = some (a, s')) :
    withIndent anchor x s = some (a, { s' with blockIndent := s.blockIndent }) := by
  change (x { s with blockIndent := anchor } >>= _) = _
  rw [h]
  rfl

theorem importTail_run {m₁ m₂ : ℕ} {t u : Parser}
    (hi : loop m₁ (importRound e) () s = some ((), t))
    (hd : loop m₂ (declRound e) () { t with blockIndent := 1 } = some ((), u)) :
    importTail e (max m₁ m₂) s = some ((), { u with blockIndent := t.blockIndent }) := by
  refine (bind_of_eq (loop_mono (le_max_left _ _) hi)).trans ?_
  exact withIndent_run (loop_mono (le_max_right _ _) hd)

theorem withIndent_cases {α : Type} {x : P α} {anchor : ℕ} {a : α}
    (h : withIndent anchor x s = some (a, s')) :
    ∃ t, x { s with blockIndent := anchor } = some (a, t) ∧
      s' = { t with blockIndent := s.blockIndent } := by
  obtain ⟨_, _, hget, hrest⟩ := bind_eq_some h
  obtain ⟨rfl, rfl⟩ := Prod.mk.inj (Option.some.inj hget)
  obtain ⟨_, _, hset, hrest⟩ := bind_eq_some hrest
  obtain ⟨-, rfl⟩ := Prod.mk.inj (Option.some.inj hset)
  obtain ⟨b, t, ht, hrest⟩ := bind_eq_some hrest
  obtain ⟨rfl, rfl⟩ := Prod.mk.inj (Option.some.inj hrest)
  exact ⟨t, ht, rfl⟩

theorem importTail_cases (h : importTail e m s = some ((), s')) :
    ∃ t u, loop m (importRound e) () s = some ((), t) ∧
      loop m (declRound e) () { t with blockIndent := 1 } = some ((), u) ∧
      s' = { u with blockIndent := t.blockIndent } := by
  obtain ⟨_, t, ht, hrest⟩ := bind_eq_some h
  obtain ⟨u, hu, heq⟩ := withIndent_cases hrest
  exact ⟨t, u, ht, hu, heq⟩

theorem importTail_unique {m₁ m₂ : ℕ} {t u : Parser} (h : importTail e m₁ s = some ((), t))
    (h' : importTail e m₂ s = some ((), u)) : t = u := by
  obtain ⟨t₁, t₂, hi, hd, rfl⟩ := importTail_cases h
  obtain ⟨u₁, u₂, hi', hd', rfl⟩ := importTail_cases h'
  obtain ⟨-, rfl⟩ := Prod.mk.inj (loop_unique hi hi')
  obtain ⟨-, rfl⟩ := Prod.mk.inj (loop_unique hd hd')
  rfl

theorem importTail_begun (hs : Top s) : importTail e m s.begun = importTail e m s := by
  change (loop m (importRound e) () s.begun >>= fun p => _) =
    (loop m (importRound e) () s >>= fun p => _)
  rw [loop_begun importRound_eq hs]

/-- What is left of the file once the imports of a unit are read. -/
theorem imports_tail (h : Level n e) (hs : Top s) (hleft : left s < n) {sec : Section}
    (hunit : imports e s = some (sec, s₁))
    (hnext : sec = .imports → ∃ ps s' m, Reads e .imports s₁ ps s' ∧
      importTail e m s₁ = some ((), { s' with blockIndent := s₁.blockIndent })) :
    ∃ ps s' m, Reads e sec s₁ ps s' ∧
      importTail e m s = some ((), { s' with blockIndent := s.blockIndent }) := by
  obtain ⟨_, t, ht, hstep, hkw⟩ := importLoop_return h hs hleft
  have htop := (hstep.topStep hs).top
  have hafter := (bind_of_eq ht).symm.trans hunit
  cases hend : t.atEnd with
  | true =>
      rw [branch, if_pos hend] at hafter
      obtain ⟨rfl, rfl⟩ := Prod.mk.inj (Option.some.inj hafter)
      obtain ⟨ps, s', m, hreads, htail⟩ := hnext rfl
      obtain ⟨u, v, hu, hv, heq⟩ := importTail_cases htail
      obtain ⟨m', hm'⟩ := imports_rounds ht hu
      refine ⟨ps, s', max m' m, hreads, (importTail_run hm' hv).trans ?_⟩
      rw [← heq, hstep.blockIndent]
  | false =>
      rw [branch, if_neg (by simp [hend])] at hafter
      obtain ⟨_, _, hset, hafter⟩ := bind_eq_some hafter
      obtain ⟨-, rfl⟩ := Prod.mk.inj (Option.some.inj hset)
      obtain ⟨_, v, hv, hsec⟩ := bind_eq_some hafter
      obtain ⟨rfl, rfl⟩ := Prod.mk.inj (Option.some.inj hsec)
      have htop' : Top { t with blockIndent := 1 } :=
        ⟨⟨htop.limit_le, htop.pos_le, htop.spans⟩, htop.increasing, htop.within, htop.limit_eq⟩
      have hleft' : left t < n := lt_of_le_of_lt hstep.left_le hleft
      obtain ⟨_, v', hv', hstep', -⟩ := declarations_return h htop' hleft'
      obtain ⟨-, rfl⟩ := Prod.mk.inj (Option.some.inj (hv'.symm.trans hv))
      obtain ⟨ps, s', m, hreads, hloop⟩ := declarations_read h (hstep'.topStep htop').top
        (lt_of_le_of_lt hstep'.left_le hleft')
      obtain ⟨m₂, hm₂⟩ := declarations_rounds hv hloop
      have hdone : loop 1 (importRound e) () t = some ((), t) := by
        refine loop_done ?_
        rw [importRound_eq, begun_of_not_atEnd hend, branch, if_neg (by simp [hkw])]
        rfl
      obtain ⟨m₁, hm₁⟩ := imports_rounds ht hdone
      refine ⟨ps, s', max m₁ m₂, hreads, (importTail_run hm₁ hm₂).trans ?_⟩
      rw [hstep.blockIndent]

/-- The imports and declarations from `s` on are those of its units. -/
theorem imports_read (h : Level n e) (hs : Top s) (hleft : left s < n)
    (hindent : s.blockIndent = 0) :
    ∃ ps s' m, Reads e .imports s ps s' ∧
      importTail e m s = some ((), { s' with blockIndent := s.blockIndent }) := by
  induction hl : left s using Nat.strong_induction_on generalizing s with
  | _ l ih =>
      subst hl
      by_cases hmore : s.pos < s.toks.length
      · have hbegun := begun_top hs
        have hleft' : left s.begun < n := by rwa [begun_left]
        have hindent' : s.begun.blockIndent = 0 := hbegun.blockIndent.trans hindent
        obtain ⟨sec, t, ht, hread⟩ := imports_return h hbegun.top hleft' hindent'
        have hdecrease := hread.left_lt hbegun.top (begun_atEnd hs hmore)
        rw [begun_left] at hdecrease
        obtain ⟨ps, s', m, hreads, htail⟩ := imports_tail h hbegun.top hleft' ht (by
          rintro rfl
          exact ih (left t) hdecrease (hread.top hbegun.top) (by omega) hread.step.blockIndent rfl)
        refine ⟨_, s', m, .unit hmore ht hreads, ?_⟩
        rw [hbegun.blockIndent, importTail_begun hs] at htail
        exact htail
      · have hdone := begun_done (s := s) (by omega)
        have hend := hs.atEnd_last (by omega)
        have hkw : s.isAt .importKw = false := by
          rw [Bool.eq_false_iff]
          intro hat
          rw [atEnd_of_isAt (by decide) hat] at hend
          exact absurd hend (by simp)
        have hi : loop 1 (importRound e) () s = some ((), s) := by
          refine loop_done ?_
          rw [importRound_eq, hdone, branch, if_neg (by simp [hkw])]
          rfl
        exact ⟨[], s, 1, .done (by omega),
          importTail_run hi (declarations_done (hs.withIndent 1) (by simpa using hmore))⟩

/-! ## The file -/

/-- The loop of the imports makes the rounds. -/
theorem imports_loop (m : ℕ) (s : Parser) :
    whileLoop m (·.isAt .importKw) (fun _ => do importDecl e.fuel; beginUnit) () s.begun =
      loop m (importRound e) () s := by
  induction m generalizing s with
  | zero => rfl
  | succ m ih =>
      have hround := importRound_eq (e := e) s
      cases hkw : s.begun.isAt .importKw with
      | false =>
          rw [branch, if_neg (by simp [hkw])] at hround
          rw [loop_done hround]
          exact whileLoop_stop (c := fun p : Parser => p.isAt .importKw) hkw
      | true =>
          rw [branch, if_pos hkw] at hround
          refine (whileLoop_step (c := fun p : Parser => p.isAt .importKw) hkw).trans ?_
          cases ht : importDecl e.fuel s.begun with
          | none =>
              rw [bind_none ht] at hround
              rw [bind_none ht]
              exact (bind_none hround).symm
          | some x =>
              obtain ⟨⟨⟩, t⟩ := x
              rw [bind_of_eq ht] at hround
              rw [bind_of_eq ht, loop_yield hround, ← ih t]
              rfl

/-- The parse of a file is that of its units, one after another, inside the file's node. -/
theorem sourceFile_reads (h : Level n e) (hs : Top s) (hleft : left s < n)
    (hindent : s.blockIndent = 0) (hmore : s.pos < s.toks.length)
    (hrun : sourceFile e s = some ((), s')) :
    ∃ ps t cm, Reads e .header (opened s) ps t ∧
      (⟨s.events.length⟩ : Marker).complete .sourceFile { t with blockIndent := 0 } =
        some (cm, s') := by
  obtain ⟨_, v, hnode, hx⟩ := bind_eq_some hrun
  obtain ⟨-, rfl⟩ := Prod.mk.inj (Option.some.inj hx)
  obtain ⟨_, _, hstart, hbody⟩ := bind_eq_some hnode
  obtain ⟨rfl, rfl⟩ := Prod.mk.inj (Option.some.inj hstart)
  obtain ⟨kind, w, hfile, hcomplete⟩ := bind_eq_some hbody
  obtain ⟨_, _, hbegin, hfile⟩ := bind_eq_some hfile
  obtain ⟨-, rfl⟩ := Prod.mk.inj (Option.some.inj hbegin)
  obtain ⟨_, u, hheader, hfile⟩ := bind_eq_some hfile
  obtain ⟨_, _, hbegin, hfile⟩ := bind_eq_some hfile
  obtain ⟨-, rfl⟩ := Prod.mk.inj (Option.some.inj hbegin)
  obtain ⟨_, t, himports, hfile⟩ := bind_eq_some hfile
  obtain ⟨_, x, hdecls, hfile⟩ := bind_eq_some hfile
  obtain ⟨rfl, rfl⟩ := Prod.mk.inj (Option.some.inj hfile)
  have hopened : Top (opened s) := ⟨hs.toOk.withEvents _, hs.increasing, hs.within, hs.limit_eq⟩
  have hbegun := begun_top hopened
  have hindent' : (opened s).begun.blockIndent = 0 := hbegun.blockIndent.trans hindent
  have hleft' : left (opened s).begun < n := (begun_left _).trans_lt hleft
  obtain ⟨_, u', hheader', hstep, -⟩ := header_runs h _ hbegun.top.toOk hleft'
  obtain ⟨-, rfl⟩ := Prod.mk.inj (Option.some.inj (hheader.symm.trans hheader'))
  have htop := (hstep.topStep hbegun.top).top
  have hleft_u := lt_of_le_of_lt hstep.left_le hleft'
  have hindent_u := hstep.blockIndent.trans hindent'
  obtain ⟨sec, t', hunit, hread⟩ := imports_return h htop hleft_u hindent_u
  have hleft_t : left t' < n := lt_of_le_of_lt hread.step.left_le hleft_u
  obtain ⟨ps, r, m, hreads, htail⟩ := imports_tail h htop hleft_u hunit (by
    rintro rfl
    exact imports_read h (hread.top htop) hleft_t hread.step.blockIndent)
  have hrounds := (imports_loop e.fuel u).symm.trans himports
  have hfile : importTail e e.fuel u = some ((), x) := (bind_of_eq hrounds).trans hdecls
  rw [importTail_unique hfile htail, hindent_u] at hcomplete
  exact ⟨_, r, _, .unit hmore ((bind_of_eq hheader).trans hunit) hreads, hcomplete⟩

end Sky.Syntax
