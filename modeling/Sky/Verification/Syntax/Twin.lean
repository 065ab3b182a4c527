import Sky.Verification.Syntax.Simulation

/-! # One unit in two files

A unit's tokens and text may stand at different places of two files. Parsers that read it there
look at the same tokens, and add events and diagnostics that differ by the shift of the text. -/

namespace Sky.Syntax

open Sky.Returning

/-! ## Shifted text -/

/-- Where the offset `o` of the text at `b` is in the text at `b'`. -/
def shift (b b' o : ℕ) : ℕ := o - b + b'

def PToken.moved (b b' : ℕ) (t : PToken) : PToken :=
  { t with start := shift b b' t.start, stop := shift b b' t.stop }

def Event.moved (b b' : ℕ) : Event → Event
  | .rawSlice kind x y => .rawSlice kind (shift b b' x) (shift b b' y)
  | e => e

def Diagnostic.moved (b b' : ℕ) (d : Diagnostic) : Diagnostic :=
  { d with start := shift b b' d.start, stop := shift b b' d.stop }

theorem shift_add (b b' k : ℕ) : shift b b' (b + k) = b' + k := by
  rw [shift]
  omega

theorem slice_slice (src : List Char) (b : ℕ) {n i j : ℕ} (hj : j ≤ n) :
    slice src (b + i) (b + j) = slice (slice src b (b + n)) i j := by
  rw [slice, slice, slice, List.take_drop, List.drop_drop, List.take_take,
    min_eq_left (Nat.add_le_add_left hj b)]

/-! ## Windows -/

/-- A unit of two files: the place of its tokens, their number, the place of its text. -/
structure Window where
  src : List Char
  src' : List Char
  toks : List PToken
  toks' : List PToken
  a : ℕ
  a' : ℕ
  n : ℕ
  b : ℕ
  b' : ℕ
  len : ℕ

/-- The unit's tokens and text are the same at both places. -/
structure Window.Same (w : Window) : Prop where
  text : slice w.src w.b (w.b + w.len) = slice w.src' w.b' (w.b' + w.len)
  within : w.b + w.len ≤ w.src.length
  within' : w.b' + w.len ≤ w.src'.length
  tokens : ∀ i < w.n, ∃ u, w.toks[w.a + i]? = some u ∧
    w.toks'[w.a' + i]? = some (u.moved w.b w.b') ∧
    w.b ≤ u.start ∧ u.start ≤ u.stop ∧ u.stop ≤ w.b + w.len
  nonempty : 0 < w.n
  last : (w.a + w.n < w.toks.length ∧ w.a' + w.n < w.toks'.length) ∨
    (w.a + w.n = w.toks.length ∧ w.a' + w.n = w.toks'.length ∧
      w.src.length = w.b + w.len ∧ w.src'.length = w.b' + w.len)

/-- The offsets of the same character. -/
def Window.Offsets (w : Window) (o o' : ℕ) : Prop := ∃ k ≤ w.len, o = w.b + k ∧ o' = w.b' + k

/-- Two parsers in the unit, which they entered as `p` and `p'`. -/
structure Twin (w : Window) (p p' s t : Parser) : Prop where
  src : s.src = w.src
  src' : t.src = w.src'
  toks : s.toks = w.toks
  toks' : t.toks = w.toks'
  limit : s.limit = w.a + w.n
  limit' : t.limit = w.a' + w.n
  blockIndent : t.blockIndent = s.blockIndent
  depth : t.depth = s.depth
  unitErrored : t.unitErrored = s.unitErrored
  pos : ∃ i ≤ w.n, s.pos = w.a + i ∧ t.pos = w.a' + i
  events : ∃ es, s.events = p.events ++ es ∧ t.events = p'.events ++ es.map (Event.moved w.b w.b')
  diags : ∃ ds, s.diags = p.diags ++ ds ∧ t.diags = p'.diags ++ ds.map (Diagnostic.moved w.b w.b') ∧
    ds.length ≤ 1 ∧ (s.unitErrored = false → ds = [])

/-- Events at one place after those of `p` and of `p'`. -/
def Places (p p' : Parser) (c c' : ℕ) : Prop :=
  ∃ k, c = p.events.length + k ∧ c' = p'.events.length + k

variable {w : Window} {p p' s t : Parser}

theorem Window.offsets {o : ℕ} (hb : w.b ≤ o) (ho : o ≤ w.b + w.len) :
    w.Offsets o (shift w.b w.b' o) := by
  refine ⟨o - w.b, by omega, by omega, ?_⟩
  rw [shift, Nat.add_comm]

namespace Window.Same

variable (hw : w.Same)
include hw

theorem slice_eq {x y x' y' : ℕ} (hx : w.Offsets x x') (hy : w.Offsets y y') :
    slice w.src x y = slice w.src' x' y' := by
  obtain ⟨i, -, rfl, rfl⟩ := hx
  obtain ⟨j, hj, rfl, rfl⟩ := hy
  rw [slice_slice _ _ hj, hw.text, ← slice_slice _ _ hj]

end Window.Same

namespace Twin

variable (h : Twin w p p' s t) (hw : w.Same)
include h hw

/-- The tokens ahead are the same. -/
theorem tok (k : ℕ) : (s.tok (s.pos + k) = none ∧ t.tok (t.pos + k) = none) ∨
    ∃ u, s.tok (s.pos + k) = some u ∧ t.tok (t.pos + k) = some (u.moved w.b w.b') ∧
      w.b ≤ u.start ∧ u.start ≤ u.stop ∧ u.stop ≤ w.b + w.len := by
  obtain ⟨i, -, hs, ht⟩ := h.pos
  rw [Parser.tok, Parser.tok, h.limit, h.limit', h.toks, h.toks', hs, ht]
  by_cases hk : i + k < w.n
  · obtain ⟨u, hu, hu', hspan⟩ := hw.tokens (i + k) hk
    refine .inr ⟨u, ?_, ?_, hspan⟩
    · rw [if_pos (by omega), Nat.add_assoc]
      exact hu
    · rw [if_pos (by omega), Nat.add_assoc]
      exact hu'
  · exact .inl ⟨if_neg (by omega), if_neg (by omega)⟩

theorem cursor : (s.tok s.pos = none ∧ t.tok t.pos = none) ∨
    ∃ u, s.tok s.pos = some u ∧ t.tok t.pos = some (u.moved w.b w.b') ∧
      w.b ≤ u.start ∧ u.start ≤ u.stop ∧ u.stop ≤ w.b + w.len := h.tok hw 0

theorem atEnd : s.atEnd = t.atEnd := by
  obtain ⟨i, -, hs, ht⟩ := h.pos
  have hlength : w.a + w.n ≤ w.toks.length ∧ w.a' + w.n ≤ w.toks'.length := by
    rcases hw.last with hlast | hlast
    · omega
    · omega
  rw [Parser.atEnd, Parser.atEnd, h.limit, h.limit', h.toks, h.toks', hs, ht]
  refine decide_eq_decide.2 ?_
  omega

theorem view : SameView s t where
  nth k := by
    rw [Parser.nth, Parser.nth]
    rcases h.tok hw k with ⟨hs, ht⟩ | ⟨u, hs, ht, -⟩
    · rw [hs, ht]
    · rw [hs, ht]
      rfl
  nthWsBefore k := by
    rw [Parser.nthWsBefore, Parser.nthWsBefore]
    rcases h.tok hw k with ⟨hs, ht⟩ | ⟨u, hs, ht, -⟩
    · rw [hs, ht]
    · rw [hs, ht]
      rfl
  curText := by
    rw [Parser.curText, Parser.curText]
    rcases h.cursor hw with ⟨hs, ht⟩ | ⟨u, hs, ht, hb, hu, he⟩
    · rw [hs, ht]
    · rw [hs, ht]
      have heq := hw.slice_eq (w.offsets hb (by omega)) (w.offsets (by omega) he)
      rw [h.src, h.src']
      exact heq
  newlineBefore := by
    rw [Parser.newlineBefore, Parser.newlineBefore]
    rcases h.cursor hw with ⟨hs, ht⟩ | ⟨u, hs, ht, -⟩
    · rw [hs, ht]
    · rw [hs, ht]
      rfl
  col := by
    rw [Parser.col, Parser.col]
    rcases h.cursor hw with ⟨hs, ht⟩ | ⟨u, hs, ht, -⟩
    · rw [hs, ht]
    · rw [hs, ht]
      rfl
  atEnd := h.atEnd hw
  blockIndent := h.blockIndent.symm

omit hw in
/-- Events that correspond are added. -/
theorem addEvents (es : List Event) :
    Twin w p p' { s with events := s.events ++ es }
      { t with events := t.events ++ es.map (Event.moved w.b w.b') } := by
  obtain ⟨fs, hs, ht⟩ := h.events
  refine { h with events := ⟨fs ++ es, ?_, ?_⟩ }
  · rw [hs, List.append_assoc]
  · rw [ht, List.map_append, List.append_assoc]

omit hw in
/-- The token at the cursor is consumed. -/
theorem consume (hend : s.atEnd = false) (e : Event) (he : e.moved w.b w.b' = e) :
    Twin w p p' { s with events := s.events ++ [e], pos := s.pos + 1 }
      { t with events := t.events ++ [e], pos := t.pos + 1 } := by
  obtain ⟨i, hi, hs, ht⟩ := h.pos
  have hlt : i < w.n := by
    have hmin := of_decide_eq_false hend
    rw [h.limit, hs] at hmin
    omega
  have hadded := h.addEvents [e]
  rw [List.map_singleton, he] at hadded
  exact { hadded with pos := ⟨i + 1, hlt, by simp [hs, Nat.add_assoc], by simp [ht, Nat.add_assoc]⟩ }

omit h in
theorem bump : Follows (Twin w p p') (Twin w p p') (· = ·) bump bump := by
  refine Follows.update fun s t h => ?_
  have hend := h.atEnd hw
  have hcurrent := (h.view hw).current
  split
  next hs => 
      rw [if_pos (by rw [← hend]; exact hs)]
      exact h
  next hs =>
      rw [if_neg (by rw [← hend]; exact hs), ← hcurrent]
      exact h.consume (by simpa using hs) _ rfl

omit h in
theorem skipRaw : Follows (Twin w p p') (Twin w p p') (· = ·) skipRaw skipRaw := by
  refine Follows.update fun s t h => ?_
  have hend := h.atEnd hw
  split
  next hs =>
      rw [if_pos (by rw [← hend]; exact hs)]
      exact h
  next hs =>
      rw [if_neg (by rw [← hend]; exact hs)]
      exact h.consume (by simpa using hs) _ rfl

omit h hw in
theorem start : Follows (Twin w p p') (Twin w p p') (fun m m' => Places p p' m.pos m'.pos) start
    start := by
  intro s t h m s' hx
  obtain ⟨rfl, rfl⟩ := Prod.mk.inj (Option.some.inj hx)
  obtain ⟨es, hs, ht⟩ := h.events
  refine ⟨_, _, rfl, ⟨es.length, ?_, ?_⟩, h.addEvents [Event.tombstone]⟩
  · rw [hs, List.length_append]
  · rw [ht, List.length_append, List.length_map]

omit hw in
/-- An event that opens a node is renamed. -/
theorem setEvent {c c' : ℕ} (hc : Places p p' c c') (kind : SyntaxKind) (fp : Option ℕ) :
    Twin w p p' { s with events := s.events.set c (.start kind fp) }
      { t with events := t.events.set c' (.start kind fp) } := by
  obtain ⟨k, rfl, rfl⟩ := hc
  obtain ⟨es, hs, ht⟩ := h.events
  refine { h with events := ⟨es.set k (.start kind fp), ?_, ?_⟩ }
  · change s.events.set _ _ = _
    rw [hs, List.set_append_right _ _ (by omega), Nat.add_sub_cancel_left]
  · change t.events.set _ _ = _
    rw [ht, List.set_append_right _ _ (by omega), Nat.add_sub_cancel_left, List.map_set]
    rfl

omit hw in
theorem getEvent {c c' : ℕ} (hc : Places p p' c c') :
    t.events[c']? = (s.events[c]?).map (Event.moved w.b w.b') := by
  obtain ⟨k, rfl, rfl⟩ := hc
  obtain ⟨es, hs, ht⟩ := h.events
  rw [hs, ht, List.getElem?_append_right (by omega), List.getElem?_append_right (by omega),
    Nat.add_sub_cancel_left, Nat.add_sub_cancel_left, List.getElem?_map]

omit h hw in
theorem complete (m m' : Marker) (kind : SyntaxKind) (hm : Places p p' m.pos m'.pos) :
    Follows (Twin w p p') (Twin w p p') (Marks (Places p p')) (m.complete kind)
      (m'.complete kind) := by
  intro s t h c s' hx
  have hget := h.getEvent hm
  unfold Marker.complete at hx ⊢
  split at hx
  next k fp hs =>
      obtain ⟨rfl, rfl⟩ := Prod.mk.inj (Option.some.inj hx)
      rw [hs] at hget
      rw [hget]
      exact ⟨_, _, rfl, hm, (h.setEvent hm kind fp).addEvents [.finish]⟩
  next => exact absurd hx (by simp)

omit h hw in
theorem precede (c c' : CompletedMarker) (hc : Marks (Places p p') c c') :
    Follows (Twin w p p') (Twin w p p') (fun m m' => Places p p' m.pos m'.pos) c.precede
      c'.precede := by
  refine start.bind fun m m' hm => ?_
  intro s t h m₁ s' hx
  have hget := h.getEvent hc
  dsimp only at hx ⊢
  split at hx
  next kind fp hs =>
      obtain ⟨rfl, rfl⟩ := Prod.mk.inj (Option.some.inj hx)
      rw [hs] at hget
      rw [hget]
      refine ⟨_, _, rfl, hm, ?_⟩
      have hdist : m.pos - c.pos = m'.pos - c'.pos := by
        obtain ⟨i, hi, hi'⟩ := hm
        obtain ⟨j, hj, hj'⟩ := hc
        omega
      rw [← hdist]
      exact h.setEvent hc kind _
  next e he hs =>
      obtain ⟨rfl, rfl⟩ := Prod.mk.inj (Option.some.inj hx)
      rw [hs] at hget
      rw [hget]
      cases e with
      | start kind fp => exact absurd rfl (he kind fp)
      | _ => exact ⟨_, _, rfl, hm, h⟩
  next => exact absurd hx (by simp)

/-- A diagnostic at the cursor points at the same text. -/
theorem curSpan : t.curSpan =
    (shift w.b w.b' s.curSpan.1, shift w.b w.b' s.curSpan.2) := by
  obtain ⟨i, hi, hs, ht⟩ := h.pos
  rw [Parser.curSpan, Parser.curSpan]
  rcases h.cursor hw with ⟨hs_tok, ht_tok⟩ | ⟨u, hs_tok, ht_tok, -⟩
  · have hn : i = w.n := by
      by_contra hne
      obtain ⟨u, hu, -⟩ := hw.tokens i (by omega)
      rw [Parser.tok, h.limit, hs, if_pos (by omega), h.toks, hu] at hs_tok
      exact absurd hs_tok (by simp)
    have hpos := hw.nonempty
    obtain ⟨u, hu, hu', -⟩ := hw.tokens (w.n - 1) (by omega)
    have hprev : s.pos - 1 = w.a + (w.n - 1) := by omega
    have hprev' : t.pos - 1 = w.a' + (w.n - 1) := by omega
    rw [hs_tok, ht_tok, h.toks, h.toks', h.src, h.src', hprev, hprev', hu, hu']
    dsimp only
    rcases hw.last with ⟨hlast, hlast'⟩ | ⟨hlast, hlast', hsrc, hsrc'⟩
    · rw [if_pos (by omega), if_pos (by omega)]
      rfl
    · rw [if_neg (by omega), if_neg (by omega), hsrc, hsrc', shift_add]
  · rw [hs_tok, ht_tok]
    rfl

omit h in
theorem error (msg : Message) : Follows (Twin w p p') (Twin w p p') (· = ·) (error msg)
    (error msg) := by
  refine Follows.update fun s t h => ?_
  obtain ⟨ds, hs, ht, hlength, hfresh⟩ := h.diags
  have herrored := h.unitErrored
  split
  next hse =>
      rw [if_pos (by rw [herrored]; exact hse)]
      exact h
  next hse =>
      have hds := hfresh (by simpa using hse)
      subst hds
      rw [if_neg (by rw [herrored]; exact hse), h.curSpan hw]
      exact { h with
        unitErrored := rfl
        diags := ⟨[{ code := "E0001", message := msg, start := s.curSpan.1, stop := s.curSpan.2 }],
          by simp [hs], by simp [ht, Diagnostic.moved], le_rfl, by simp⟩ }

omit h in
theorem simulation : Simulation (Twin w p p') (Places p p') w.Offsets where
  view _ _ h := h.view hw
  start := start
  complete := complete
  precede := precede
  bump := bump hw
  error := error hw
  indent anchor := Follows.update fun _ _ h => { h with blockIndent := rfl }
  skipRaw := skipRaw hw
  emitSlice := by
    rintro kind x y x' y' ⟨i, -, rfl, rfl⟩ ⟨j, -, rfl, rfl⟩
    refine Follows.update fun s t h => ?_
    have hadded := h.addEvents [.rawSlice kind (w.b + i) (w.b + j)]
    rwa [List.map_singleton, Event.moved, shift_add, shift_add] at hadded
  source := by
    intro s t h x y x' y' hx hy
    rw [h.src, h.src']
    exact hw.slice_eq hx hy
  span := by
    intro s t h u hu
    rcases h.cursor hw with ⟨hnone, -⟩ | ⟨v, hv, ht, hb, huv, he⟩
    · rw [hu] at hnone
      exact absurd hnone (by simp)
    · obtain rfl : u = v := Option.some.inj (hu.symm.trans hv)
      refine ⟨_, ht, ⟨huv, ?_⟩, ⟨?_, ?_⟩, ?_, ?_⟩
      · rw [h.src]
        exact he.trans hw.within
      · exact Nat.add_le_add_right (Nat.sub_le_sub_right huv _) _
      · rw [h.src']
        have := hw.within'
        change u.stop - w.b + w.b' ≤ _
        omega
      · change (u.stop - w.b + w.b') - (u.start - w.b + w.b') = _
        omega
      · intro k hk
        refine ⟨u.start - w.b + k, by omega, by omega, ?_⟩
        change u.start - w.b + w.b' + k = _
        omega
  no_span := by
    intro s t h hs
    rcases h.cursor hw with ⟨-, ht⟩ | ⟨v, hv, -⟩
    · exact ht
    · rw [hs] at hv
      exact absurd hv (by simp)

omit h hw in
theorem guard : Guard (Twin w p p') (Twin w p p') True where
  enter := by
    intro s t h deep s' hx
    obtain ⟨rfl, rfl⟩ := Prod.mk.inj (Option.some.inj hx)
    refine ⟨_, _, rfl, ⟨by rw [h.depth], fun _ => trivial⟩, ?_⟩
    exact { h with depth := congrArg (· + 1) h.depth }
  leave := Follows.update fun _ _ h => { h with depth := congrArg (· - 1) h.depth }

end Twin

end Sky.Syntax
