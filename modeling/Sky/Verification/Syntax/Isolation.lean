import Sky.Verification.Syntax.Units

/-! # Units of two files

Two parses that begin a unit of the same tokens and text read it alike and add the same, up to the
shift of the text. So files with the same units before or after some place are read alike there. -/

namespace Sky.Syntax

open Sky.Returning

/-! ## Related parsers read a unit alike -/

namespace Simulation

variable {R : Parser → Parser → Prop} {M O : ℕ → ℕ → Prop} {logos : Logos} {e e' : Entries}
  (h : Simulation R M O) (he : FollowsEntries logos R M e e')
include h he

theorem declarations : Follows R R (· = ·) (declarations e) (declarations e') :=
  Follows.whileLoop (fun s t hst => by rw [(h.view s t hst).atEnd])
    (fun _ _ _ => (topLevel h he).on) he.fuel rfl

theorem imports : Follows R R (· = ·) (imports e) (imports e') := by
  refine Follows.bind (A := (· = ·)) (Follows.whileLoop (h.isAt _)
    (fun _ _ _ => (h.importDecl he.fuel).on) he.fuel rfl) fun _ _ _ => ?_
  refine Follows.branch (fun s t hst => (h.view s t hst).atEnd) (Follows.pure rfl).on ?_
  exact (h.indent 1).bind fun _ _ _ => (declarations h he).bind fun _ _ _ => Follows.pure rfl

theorem readUnit (sec : Section) : Follows R R (· = ·) (readUnit e sec) (readUnit e' sec) := by
  cases sec with
  | header =>
      exact Follows.bind (A := (· = ·)) (Follows.branch (h.isAt _) (h.moduleHeader he.fuel).on
        (Follows.pure rfl)) fun _ _ _ => imports h he
  | imports => exact imports h he
  | declarations => exact (declarations h he).bind fun _ _ _ => Follows.pure rfl

end Simulation

/-! ## Units of a file -/

/-- A parser at the start of unit `j` of a file. -/
structure UnitStart (src : List Char) (toks : List PToken) (units : List ℕ) (j : ℕ) (sec : Section)
    (s : Parser) : Prop extends Top s where
  src_eq : s.src = src
  toks_eq : s.toks = toks
  units_eq : s.units = units
  unit_eq : s.unit = j
  pos_eq : units[j]? = some s.pos
  inside : s.pos < s.limit
  bound : ∀ u ∈ units, u < toks.length
  fresh : s.unitErrored = false
  depth_eq : s.depth = 0
  indent : s.blockIndent = sec.indent

/-- A parser that is about to begin unit `j` of a file, or is at the end of the file. -/
structure Boundary (src : List Char) (toks : List PToken) (units : List ℕ) (j : ℕ) (sec : Section)
    (s : Parser) : Prop where
  top : Top s
  toks_eq : s.toks = toks
  last : toks.length ≤ s.pos → units[j]? = none
  next : s.pos < toks.length → UnitStart src toks units j sec s.begun

variable {logos : Logos} {n j : ℕ} {src : List Char} {toks : List PToken} {units : List ℕ}
  {sec sec' : Section} {s s' : Parser}

/-- A unit that is read is read to its end. -/
theorem UnitStart.read (hlogos : logos.Partitions) (hs : UnitStart src toks units j sec s)
    (hleft : left s < n) (hread : readUnit (entries logos n) sec s = some (sec', s')) :
    UnitRead s sec' s' ∧ left s' < left s := by
  obtain ⟨_, _, ht, hunit⟩ := readUnit_return (entries_level hlogos n) hs.toTop hleft hs.indent
  obtain ⟨rfl, rfl⟩ := Prod.mk.inj (Option.some.inj (ht.symm.trans hread))
  have hend : s.atEnd = false := by
    rw [Bool.eq_false_iff]
    intro hend
    exact hs.inside.ne (hs.atEnd_iff.1 hend)
  exact ⟨hunit, hunit.left_lt hs.toTop hend⟩

/-- The end of a unit is where the next one begins. -/
theorem UnitStart.next (hs : UnitStart src toks units j sec s) (hread : UnitRead s sec' s') :
    Boundary src toks units (j + 1) sec' s' := by
  have htop := hread.top hs.toTop
  have hstep := hread.step
  have hpos : s'.pos = s'.limit := htop.atEnd_iff.1 hread.atEnd
  have htoks : s'.toks = toks := hstep.toks.trans hs.toks_eq
  have hunits : s'.units = units := hstep.units.trans hs.units_eq
  have hunit : s'.unit = j := hstep.unit.trans hs.unit_eq
  have hlimit := htop.limit_eq
  rw [hunits, hunit, htoks, ← hpos] at hlimit
  refine ⟨htop, htoks, fun hlast => ?_, fun hmore => ?_⟩
  · by_contra hne
    obtain ⟨u, hu⟩ := Option.ne_none_iff_exists'.1 hne
    rw [hu, Option.getD_some] at hlimit
    have hlt := hs.bound u (List.mem_of_getElem? hu)
    omega
  have hbegun := begun_top htop
  have hmoved : s'.begun = { s' with
      unit := s'.unit + 1
      limit := s'.units[s'.unit + 2]?.getD s'.toks.length
      unitErrored := false } := if_neg (by rw [htoks]; omega)
  have hinside : s'.begun.pos < s'.begun.limit := by
    obtain ⟨_, -, -, h⟩ := hbegun.top.inside (begun_atEnd htop (htoks ▸ hmore))
    exact h
  refine { hbegun.top with
    src_eq := hbegun.src.trans (hstep.src.trans hs.src_eq)
    toks_eq := hbegun.toks.trans htoks
    units_eq := hbegun.units.trans hunits
    unit_eq := by rw [hmoved, ← hunit]
    pos_eq := ?_
    inside := hinside
    bound := hs.bound
    fresh := by rw [hmoved]
    depth_eq := by rw [hmoved]; exact hstep.depth.trans hs.depth_eq
    indent := hbegun.blockIndent.trans hstep.blockIndent }
  rw [begun_pos]
  cases hu : units[j + 1]? with
  | none =>
      rw [hu, Option.getD_none] at hlimit
      omega
  | some u =>
      rw [hu, Option.getD_some] at hlimit
      rw [hlimit]

def Piece.moved (b b' : ℕ) (q : Piece) : Piece where
  events := q.events.map (Event.moved b b')
  diags := q.diags.map (Diagnostic.moved b b')
  after := q.after

section

variable {w : Window} {u v u₁ v₁ : Parser}

/-- Two parsers at the start of their unit. -/
theorem Twin.start_unit (hu : u.src = w.src ∧ u.toks = w.toks ∧ u.limit = w.a + w.n ∧ u.pos = w.a)
    (hv : v.src = w.src' ∧ v.toks = w.toks' ∧ v.limit = w.a' + w.n ∧ v.pos = w.a')
    (hindent : v.blockIndent = u.blockIndent) (hdepth : v.depth = u.depth)
    (herrored : v.unitErrored = u.unitErrored) : Twin w u v u v where
  src := hu.1
  src' := hv.1
  toks := hu.2.1
  toks' := hv.2.1
  limit := hu.2.2.1
  limit' := hv.2.2.1
  blockIndent := hindent
  depth := hdepth
  unitErrored := herrored
  pos := ⟨0, Nat.zero_le _, hu.2.2.2, hv.2.2.2⟩
  events := ⟨[], by simp, by simp⟩
  diags := ⟨[], by simp, by simp, Nat.zero_le _, fun _ => rfl⟩

theorem Twin.read (hlogos : logos.Partitions) (hw : w.Same) (h : Twin w u v u v)
    (hu : readUnit (entries logos n) sec u = some (sec', u₁)) :
    ∃ v₁, readUnit (entries logos n) sec v = some (sec', v₁) ∧ Twin w u v u₁ v₁ := by
  have hsim : Simulation (Twin w u v) (Places u v) w.Offsets := Twin.simulation hw
  have hfollows := hsim.entries_follows hlogos Twin.guard n
  obtain ⟨_, v₁, hv, rfl, h₁⟩ := hsim.readUnit hfollows sec u v h sec' u₁ hu
  exact ⟨v₁, hv, h₁⟩

theorem Twin.piece_eq (h : Twin w u v u₁ v₁) :
    piece v sec v₁ = (piece u sec u₁).moved w.b w.b' := by
  obtain ⟨es, hes, hes'⟩ := h.events
  obtain ⟨ds, hds, hds', -⟩ := h.diags
  rw [piece, piece, Piece.moved, hes, hes', hds, hds', List.drop_left, List.drop_left,
    List.drop_left, List.drop_left]

/-- What a unit adds comes after what was there. -/
theorem Twin.added (sec : Section) (h : Twin w u v u₁ v₁) :
    u₁.events = u.events ++ (piece u sec u₁).events ∧ u₁.diags = u.diags ++ (piece u sec u₁).diags ∧
      (piece u sec u₁).diags.length ≤ 1 := by
  obtain ⟨es, hes, -⟩ := h.events
  obtain ⟨ds, hds, -, hlength, -⟩ := h.diags
  rw [piece, hes, hds, List.drop_left, List.drop_left]
  exact ⟨rfl, rfl, hlength⟩

end

/-- The unit at `s` beside itself. -/
def selfWindow (s : Parser) : Window where
  src := s.src
  src' := s.src
  toks := s.toks
  toks' := s.toks
  a := s.pos
  a' := s.pos
  n := s.limit - s.pos
  b := 0
  b' := 0
  len := s.src.length

theorem selfWindow_same (hs : Ok s) (hinside : s.pos < s.limit) : (selfWindow s).Same where
  text := rfl
  within := (Nat.zero_add _).le
  within' := (Nat.zero_add _).le
  tokens := by
    intro i hi
    have hlimit := hs.limit_le
    have hlt : s.pos + i < s.toks.length := by
      change i < s.limit - s.pos at hi
      omega
    have hget := List.getElem?_eq_getElem hlt
    have hspan := hs.spans _ (List.getElem_mem hlt)
    exact ⟨_, hget, hget, Nat.zero_le _, hspan.1.le, hspan.2.trans (Nat.zero_add _).ge⟩
  nonempty := Nat.sub_pos_of_lt hinside
  last := by
    have hlimit := hs.limit_le
    have heq : s.pos + (s.limit - s.pos) = s.limit := by omega
    change (s.pos + (s.limit - s.pos) < s.toks.length ∧ s.pos + (s.limit - s.pos) < s.toks.length) ∨
      (s.pos + (s.limit - s.pos) = s.toks.length ∧ s.pos + (s.limit - s.pos) = s.toks.length ∧
        s.src.length = 0 + s.src.length ∧ s.src.length = 0 + s.src.length)
    rw [heq, Nat.zero_add]
    omega

theorem selfTwin (hinside : s.pos < s.limit) : Twin (selfWindow s) s s s s := by
  have hlimit : s.limit = s.pos + (s.limit - s.pos) := by omega
  exact Twin.start_unit ⟨rfl, rfl, hlimit, rfl⟩ ⟨rfl, rfl, hlimit, rfl⟩ rfl rfl rfl

theorem begun_events (s : Parser) : s.begun.events = s.events := by
  rw [Parser.begun]
  split <;> rfl

theorem begun_diags (s : Parser) : s.begun.diags = s.diags := by
  rw [Parser.begun]
  split <;> rfl

/-- What is added unit by unit makes up the whole, with a diagnostic at most for each. -/
theorem Reads.added (hlogos : logos.Partitions) {ps : List Piece}
    (h : Reads (entries logos n) sec s ps s') (hs : Boundary src toks units j sec s)
    (hleft : left s < n) :
    s'.events = s.events ++ ps.flatMap (·.events) ∧ s'.diags = s.diags ++ ps.flatMap (·.diags) ∧
      ∀ q ∈ ps, q.diags.length ≤ 1 := by
  induction h generalizing j with
  | done h => simp
  | @unit sec s sec₁ s₁ ps s' h hunit hrest ih =>
      have hstart := hs.next (hs.toks_eq ▸ h)
      obtain ⟨hread, hlt⟩ := hstart.read hlogos (by rwa [begun_left]) hunit
      obtain ⟨v, -, htwin⟩ := (selfTwin hstart.inside).read hlogos
        (selfWindow_same hstart.toOk hstart.inside) hunit
      obtain ⟨hevents, hdiags, hone⟩ := htwin.added sec₁
      rw [begun_left] at hlt
      obtain ⟨hevents', hdiags', hall⟩ := ih (hstart.next hread) (hlt.trans hleft)
      rw [begun_events] at hevents
      rw [begun_diags] at hdiags
      refine ⟨?_, ?_, List.forall_mem_cons.2 ⟨hone, hall⟩⟩
      · rw [hevents', hevents, List.flatMap_cons, List.append_assoc]
      · rw [hdiags', hdiags, List.flatMap_cons, List.append_assoc]

/-! ## The units of two files -/

/-- Unit `j` of two files, as a window. -/
structure UnitWindow (src src' : List Char) (toks toks' : List PToken) (units units' : List ℕ)
    (j : ℕ) (w : Window) : Prop extends w.Same where
  src_eq : w.src = src
  src_eq' : w.src' = src'
  toks_eq : w.toks = toks
  toks_eq' : w.toks' = toks'
  start : units[j]? = some w.a
  start' : units'[j]? = some w.a'
  stop : units[j + 1]?.getD toks.length = w.a + w.n
  stop' : units'[j + 1]?.getD toks'.length = w.a' + w.n

section

variable {src' : List Char} {toks' : List PToken} {units' : List ℕ} {w : Window}
  {t t' : Parser} {sec₂ : Section} {k b b' : ℕ} {ps ps' : List Piece}

theorem UnitStart.limit (hs : UnitStart src toks units j sec s) :
    s.limit = units[j + 1]?.getD toks.length := by
  rw [hs.limit_eq, hs.units_eq, hs.unit_eq, hs.toks_eq]

theorem UnitStart.twin (hs : UnitStart src toks units j sec s)
    (ht : UnitStart src' toks' units' j sec t)
    (hw : UnitWindow src src' toks toks' units units' j w) : Twin w s t s t := by
  have hpos : s.pos = w.a := Option.some.inj (hs.pos_eq.symm.trans hw.start)
  have hpos' : t.pos = w.a' := Option.some.inj (ht.pos_eq.symm.trans hw.start')
  refine Twin.start_unit ⟨hs.src_eq.trans hw.src_eq.symm, hs.toks_eq.trans hw.toks_eq.symm, ?_, hpos⟩
    ⟨ht.src_eq.trans hw.src_eq'.symm, ht.toks_eq.trans hw.toks_eq'.symm, ?_, hpos'⟩
    (ht.indent.trans hs.indent.symm) (ht.depth_eq.trans hs.depth_eq.symm)
    (ht.fresh.trans hs.fresh.symm)
  · rw [hs.limit, hw.stop]
  · rw [ht.limit, hw.stop']

theorem Piece.moved_zero (q : Piece) : q.moved 0 0 = q := by
  have hevent : ∀ x : Event, x.moved 0 0 = x := by
    intro x
    cases x <;> rfl
  have hdiag : ∀ x : Diagnostic, x.moved 0 0 = x := fun _ => rfl
  rw [Piece.moved, List.map_congr_left (fun x _ => hevent x),
    List.map_congr_left (fun x _ => hdiag x), List.map_id', List.map_id']

variable (hlogos : logos.Partitions)
include hlogos

/-- A unit that both files have is read alike. -/
theorem UnitStart.alike (hs : UnitStart src toks units j sec s)
    (ht : UnitStart src' toks' units' j sec t)
    (hw : UnitWindow src src' toks toks' units units' j w)
    (hread : readUnit (entries logos n) sec s = some (sec', s')) :
    ∃ t', readUnit (entries logos n) sec t = some (sec', t') ∧
      piece t sec' t' = (piece s sec' s').moved w.b w.b' := by
  obtain ⟨t', ht', htwin⟩ := (hs.twin ht hw).read hlogos hw.toSame hread
  exact ⟨t', ht', htwin.piece_eq⟩

omit hlogos in
/-- A unit ahead is read next. -/
theorem Boundary.cases (hs : Boundary src toks units j sec s) {i : ℕ} (hj : units[j]? = some i)
    {e : Entries} (h : Reads e sec s ps s') :
    ∃ sec₁ s₁ qs, ps = piece s.begun sec₁ s₁ :: qs ∧ UnitStart src toks units j sec s.begun ∧
      readUnit e sec s.begun = some (sec₁, s₁) ∧ Reads e sec₁ s₁ qs s' := by
  cases h with
  | done hend =>
      rw [hs.last (hs.toks_eq ▸ hend)] at hj
      exact absurd hj (by simp)
  | unit hmore hunit hrest => exact ⟨_, _, _, rfl, hs.next (hs.toks_eq ▸ hmore), hunit, hrest⟩

omit hlogos in
/-- With no unit ahead the file is read. -/
theorem Boundary.stops (hs : Boundary src toks units j sec s) (hj : units[j]? = none) {e : Entries}
    (h : Reads e sec s ps s') : ps = [] := by
  cases h with
  | done => rfl
  | unit hmore =>
      have hstart := (hs.next (hs.toks_eq ▸ hmore)).pos_eq
      rw [hj] at hstart
      exact absurd hstart (by simp)

/-- Files with the same units up to `k` are read alike up to there. -/
theorem reads_before (hw : ∀ j < k, ∃ w, UnitWindow src src' toks toks' units units' j w ∧
      w.b = 0 ∧ w.b' = 0)
    (h : Reads (entries logos n) sec s ps s') (h' : Reads (entries logos n) sec t ps' t')
    (hs : Boundary src toks units j sec s) (ht : Boundary src' toks' units' j sec t)
    (hleft : left s < n) (hleft' : left t < n) (hj : j ≤ k) :
    ∃ qs ps₁ ps₁' sec₁ s₁ t₁, ps = qs ++ ps₁ ∧ ps' = qs ++ ps₁' ∧ qs.length = k - j ∧
      Boundary src toks units k sec₁ s₁ ∧ Boundary src' toks' units' k sec₁ t₁ ∧
      Reads (entries logos n) sec₁ s₁ ps₁ s' ∧ Reads (entries logos n) sec₁ t₁ ps₁' t' ∧
      left s₁ < n ∧ left t₁ < n := by
  induction hd : k - j generalizing j sec s t ps ps' with
  | zero =>
      obtain rfl : j = k := by omega
      exact ⟨[], ps, ps', sec, s, t, rfl, rfl, rfl, hs, ht, h, h', hleft, hleft'⟩
  | succ d ih =>
      obtain ⟨w, hunit, hb, hb'⟩ := hw j (by omega)
      obtain ⟨sec₁, s₁, qs, rfl, hstart, hread, hrest⟩ := hs.cases hunit.start h
      obtain ⟨sec₂, t₁, qs', rfl, hstart', hread', hrest'⟩ := ht.cases hunit.start' h'
      obtain ⟨t₂, hread₂, hpiece⟩ := hstart.alike hlogos hstart' hunit hread
      obtain ⟨rfl, rfl⟩ := Prod.mk.inj (Option.some.inj (hread₂.symm.trans hread'))
      rw [hb, hb', Piece.moved_zero] at hpiece
      obtain ⟨hunit₁, hlt⟩ := hstart.read hlogos (by rwa [begun_left]) hread
      obtain ⟨hunit₂, hlt'⟩ := hstart'.read hlogos (by rwa [begun_left]) hread'
      rw [begun_left] at hlt hlt'
      obtain ⟨rs, ps₁, ps₁', sec₂, s₂, t₃, rfl, rfl, hlength, hall⟩ := ih hrest hrest'
        (hstart.next hunit₁) (hstart'.next hunit₂) (hlt.trans hleft) (hlt'.trans hleft')
        (by omega) (by omega)
      refine ⟨piece s.begun sec₁ s₁ :: rs, ps₁, ps₁', sec₂, s₂, t₃, rfl, ?_, ?_, hall⟩
      · rw [hpiece]
        rfl
      · rw [List.length_cons, hlength]

omit hlogos in
/-- A unit that does not begin with `import` is read as declarations. -/
theorem UnitStart.readUnit_declarations (logos : Logos) (n : ℕ)
    (hs : UnitStart src toks units j sec s)
    (hsec : sec ≠ .header) (hkw : s.isAt .importKw = false) :
    readUnit (entries logos n) sec s =
        readUnit (entries logos n) .declarations { s with blockIndent := 1 } ∧
      UnitStart src toks units j .declarations { s with blockIndent := 1 } := by
  have hstart : UnitStart src toks units j .declarations { s with blockIndent := 1 } :=
    { hs.toTop.withIndent 1 with
      src_eq := hs.src_eq
      toks_eq := hs.toks_eq
      units_eq := hs.units_eq
      unit_eq := hs.unit_eq
      pos_eq := hs.pos_eq
      inside := hs.inside
      bound := hs.bound
      fresh := hs.fresh
      depth_eq := hs.depth_eq
      indent := rfl }
  refine ⟨?_, hstart⟩
  cases sec with
  | header => exact absurd rfl hsec
  | declarations => rw [withIndent_self (show s.blockIndent = 1 from hs.indent)]
  | imports =>
      have hend : s.atEnd = false := by
        rw [Bool.eq_false_iff]
        intro hend
        exact hs.inside.ne (hs.atEnd_iff.1 hend)
      have hloop : whileLoop (entries logos n).fuel (fun p : Parser => p.isAt .importKw)
          (fun _ => importDecl (entries logos n).fuel) () s = some ((), s) := by
        rw [entries_fuel]
        exact whileLoop_stop hkw
      refine (bind_of_eq hloop).trans ?_
      rw [branch, if_neg (by simp [hend])]
      rfl

omit hlogos in
theorem UnitStart.isAt (hs : UnitStart src toks units j sec s) {i : ℕ} (hi : units[j]? = some i)
    {kind : SyntaxKind} (h : kindAt toks i ≠ some kind) : s.isAt kind = false := by
  obtain rfl : i = s.pos := Option.some.inj (hi.symm.trans hs.pos_eq)
  have hlimit := hs.limit_le
  have hinside := hs.inside
  obtain ⟨u, hu⟩ : ∃ u, toks[s.pos]? = some u :=
    ⟨_, List.getElem?_eq_getElem (by rw [← hs.toks_eq]; omega)⟩
  rw [kindAt, hu] at h
  have htok : s.tok s.pos = some u := by
    rw [Parser.tok, if_pos hinside, hs.toks_eq, hu]
  have hcurrent : s.current = u.kind := by
    rw [Parser.current, Parser.nth, Nat.add_zero, htok]
  rw [Parser.isAt, hcurrent]
  exact beq_false_of_ne fun heq => h (congrArg some heq)

/-- Files with the same units from `k` on are read alike from there, in one section or without
imports. -/
theorem reads_after (hw : ∀ j ≥ k, (units[j]? = none ∧ units'[j]? = none) ∨
      ∃ w, UnitWindow src src' toks toks' units units' j w ∧ w.b = b ∧ w.b' = b')
    (h : Reads (entries logos n) sec s ps s') (h' : Reads (entries logos n) sec₂ t ps' t')
    (hs : Boundary src toks units j sec s) (ht : Boundary src' toks' units' j sec₂ t)
    (hleft : left s < n) (hleft' : left t < n) (hj : k ≤ j)
    (hsec : sec = sec₂ ∨ (sec ≠ .header ∧ sec₂ ≠ .header ∧
      ∀ j ≥ k, ∀ i, units[j]? = some i → kindAt toks i ≠ some .importKw)) :
    ps' = ps.map (Piece.moved b b') := by
  induction ps generalizing j sec sec₂ s t ps' with
  | nil =>
      rcases hw j hj with ⟨-, hnone⟩ | ⟨w, hunit, -⟩
      · exact ht.stops hnone h'
      · obtain ⟨_, _, _, hcons, -⟩ := hs.cases hunit.start h
        exact absurd hcons (by simp)
  | cons q ps ih =>
      rcases hw j hj with ⟨hnone, -⟩ | ⟨w, hunit, hb, hb'⟩
      · exact absurd (hs.stops hnone h) (by simp)
      · obtain ⟨sec₁, s₁, qs, heq, hstart, hread, hrest⟩ := hs.cases hunit.start h
        obtain ⟨rfl, rfl⟩ := List.cons.inj heq
        obtain ⟨sec₃, t₁, qs', rfl, hstart', hread', hrest'⟩ := ht.cases hunit.start' h'
        obtain ⟨hunit₁, hlt⟩ := hstart.read hlogos (by rwa [begun_left]) hread
        obtain ⟨hunit₂, hlt'⟩ := hstart'.read hlogos (by rwa [begun_left]) hread'
        have halike : ∃ t₂, readUnit (entries logos n) sec₂ t.begun = some (sec₁, t₂) ∧
            piece t.begun sec₁ t₂ = (piece s.begun sec₁ s₁).moved b b' := by
          rw [← hb, ← hb']
          rcases hsec with rfl | ⟨hsec, hsec', hno⟩
          · exact hstart.alike hlogos hstart' hunit hread
          · have hkw := hno j hj w.a hunit.start
            have hkw' : kindAt toks' w.a' ≠ some .importKw := by
              obtain ⟨u, hu, hu', -⟩ := hunit.tokens 0 hunit.nonempty
              rw [hunit.toks_eq, Nat.add_zero] at hu
              rw [hunit.toks_eq', Nat.add_zero] at hu'
              rw [kindAt, hu] at hkw
              rw [kindAt, hu']
              exact hkw
            obtain ⟨hdecl, hstart₁⟩ := hstart.readUnit_declarations logos n hsec
              (hstart.isAt hunit.start hkw)
            obtain ⟨hdecl', hstart₁'⟩ := hstart'.readUnit_declarations logos n hsec'
              (hstart'.isAt hunit.start' hkw')
            rw [hdecl] at hread
            rw [hdecl']
            obtain ⟨t₂, hread₂, hpiece⟩ := hstart₁.alike hlogos hstart₁' hunit hread
            exact ⟨t₂, hread₂, hpiece⟩
        obtain ⟨t₂, hread₂, hpiece⟩ := halike
        obtain ⟨rfl, rfl⟩ := Prod.mk.inj (Option.some.inj (hread₂.symm.trans hread'))
        rw [begun_left] at hlt hlt'
        have htail := ih hrest hrest' (hstart.next hunit₁) (hstart'.next hunit₂) (hlt.trans hleft)
          (hlt'.trans hleft') (Nat.le_succ_of_le hj) (.inl rfl)
        rw [List.map_cons, hpiece, htail]

end

/-! ## A file and its units -/

theorem lexicalUnitsFrom_prefix {fuel : ℕ} (rest : List PToken) :
    ∀ {i : ℕ} {us vs : List ℕ}, lexicalUnitsFrom logos fuel src toks rest i us = some vs →
      us <+: vs := by
  induction rest with
  | nil =>
      intro i us vs h
      rw [Option.some.inj h]
  | cons t rest ih =>
      intro i us vs h
      obtain ⟨begins, -, hrest⟩ := Option.bind_eq_some_iff.1 h
      split at hrest
      · exact ih hrest
      · exact (List.prefix_append us [i]).trans (ih hrest)

/-- The first unit begins at the first token. -/
theorem lexicalUnits_first {fuel : ℕ} (htoks : toks ≠ [])
    (h : lexicalUnits logos fuel src toks = some units) : units[0]? = some 0 := by
  obtain ⟨t, rest, rfl⟩ := List.exists_cons_of_ne_nil htoks
  rw [lexicalUnits, lexicalUnitsFrom] at h
  obtain ⟨begins, hbegins, hrest⟩ := Option.bind_eq_some_iff.1 h
  obtain rfl : true = begins := Option.some.inj hbegins
  change lexicalUnitsFrom logos fuel src (t :: rest) rest 1 [0] = some units at hrest
  obtain ⟨vs, rfl⟩ := lexicalUnitsFrom_prefix rest hrest
  rfl

/-- What the parse of a file adds unit by unit, inside the file's node. -/
structure FileOf (e : Entries) (p : Parser) (ps : List Piece) (done : Parser) : Prop where
  reads : ∃ t, Reads e .header (opened p) ps t
  length : ps.length = p.units.length
  events : done.events = .start .sourceFile none :: ps.flatMap (·.events) ++ [.finish]
  diags : done.diags = ps.flatMap (·.diags)
  one : ∀ q ∈ ps, q.diags.length ≤ 1

section

variable {p done : Parser}

/-- The file's parser at its first unit. -/
theorem opened_boundary (hp : Top p) (hpos : p.pos = 0) (hunit : p.unit = 0)
    (hfirst : p.units[0]? = some 0) (hbound : ∀ u ∈ p.units, u < p.toks.length)
    (hfresh : p.unitErrored = false) (hdepth : p.depth = 0) (hindent : p.blockIndent = 0) :
    Boundary p.src p.toks p.units 0 .header (opened p) := by
  have htop : Top (opened p) := ⟨hp.toOk.withEvents _, hp.increasing, hp.within, hp.limit_eq⟩
  have hsome : 0 < p.toks.length := hbound 0 (List.mem_of_getElem? hfirst)
  have hinside : (opened p).pos < (opened p).limit := by
    change p.pos < p.limit
    rw [hp.limit_eq, hunit, hpos]
    cases hu : p.units[0 + 1]? with
    | none => exact hsome
    | some u =>
        obtain ⟨h₁, he₁⟩ := List.getElem?_eq_some_iff.mp hfirst
        obtain ⟨h₂, he₂⟩ := List.getElem?_eq_some_iff.mp hu
        have hinc := List.pairwise_iff_getElem.mp hp.increasing _ _ h₁ h₂ (by omega)
        rwa [he₁, he₂] at hinc
  refine ⟨htop, rfl, fun hlast => ?_, fun _ => ?_⟩
  · change p.toks.length ≤ p.pos at hlast
    omega
  · rw [begun_inside hinside]
    exact { htop with
      src_eq := rfl
      toks_eq := rfl
      units_eq := rfl
      unit_eq := hunit
      pos_eq := hfirst.trans (congrArg some hpos.symm)
      inside := hinside
      bound := hbound
      fresh := hfresh
      depth_eq := hdepth
      indent := hindent }

theorem Reads.length (hlogos : logos.Partitions) {ps : List Piece}
    (h : Reads (entries logos n) sec s ps s') (hs : Boundary src toks units j sec s)
    (hleft : left s < n) (hj : j ≤ units.length) : ps.length = units.length - j := by
  induction h generalizing j with
  | done h =>
      have hnone := hs.last (hs.toks_eq ▸ h)
      rw [List.getElem?_eq_none_iff] at hnone
      simp
      omega
  | unit h hunit hrest ih =>
      have hstart := hs.next (hs.toks_eq ▸ h)
      have hlt := (List.getElem?_eq_some_iff.1 hstart.pos_eq).1
      obtain ⟨hread, hdecrease⟩ := hstart.read hlogos (by rwa [begun_left]) hunit
      rw [begun_left] at hdecrease
      rw [List.length_cons, ih (hstart.next hread) (hdecrease.trans hleft) hlt]
      omega

/-- The parse of a file is made up by its units. -/
theorem fileOf_reads (hlogos : logos.Partitions) {ps : List Piece} {t : Parser} {cm : CompletedMarker}
    (hfile : Boundary p.src p.toks p.units 0 .header (opened p)) (hleft : left p < n)
    (hevents : p.events = []) (hdiags : p.diags = [])
    (hreads : Reads (entries logos n) .header (opened p) ps t)
    (hcomplete : (⟨p.events.length⟩ : Marker).complete .sourceFile { t with blockIndent := 0 } =
      some (cm, done)) : FileOf (entries logos n) p ps done := by
  obtain ⟨he, hd, hone⟩ := hreads.added hlogos hfile hleft
  change t.events = p.events ++ [.tombstone] ++ _ at he
  change t.diags = p.diags ++ _ at hd
  rw [hevents] at he
  rw [hdiags] at hd
  have hopen : t.events = .tombstone :: ps.flatMap (·.events) := he
  have hget : t.events[p.events.length]? = some (.start .tombstone none) := by
    rw [hopen, hevents]
    rfl
  unfold Marker.complete at hcomplete
  dsimp only at hcomplete
  rw [hget] at hcomplete
  obtain ⟨-, rfl⟩ := Prod.mk.inj (Option.some.inj hcomplete)
  refine ⟨⟨t, hreads⟩, hreads.length hlogos hfile hleft (Nat.zero_le _), ?_, hd, hone⟩
  change t.events.set p.events.length _ ++ _ = _
  rw [hopen, hevents]
  rfl

end

end Sky.Syntax
