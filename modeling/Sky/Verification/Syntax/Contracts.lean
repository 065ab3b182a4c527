import Sky.Model.Syntax.Parser
import Sky.Verification.Syntax.Markup

/-! # Contracts of parser actions

Every production is a `Step`: it appends well-formed events that consume exactly the tokens the
cursor passed, and leaves the rest of the parser as it was. A contract says when it returns, with a
bound on the text of the tokens ahead: `Runs`, `Moves`, `Plants` and `Grows`, the first two for any
result, the last two for a finished node; `Moves` and `Grows` need a token at the cursor and consume
it. One rule for each way to combine actions. -/

namespace Sky.Syntax

open Sky.Returning

/-! ## What an action does -/

/-! ## Tokens passed -/

/-- The items of `l` from `a` to `b`. -/
def between {α : Type} (l : List α) (a b : ℕ) : List α := (l.take b).drop a

@[simp] theorem between_self {α : Type} (l : List α) (a : ℕ) : between l a a = [] := by
  simp [between]

theorem between_append {α : Type} (l : List α) {a b c : ℕ} (hab : a ≤ b) (hbc : b ≤ c) :
    between l a b ++ between l b c = between l a c := by
  have h := List.take_append_drop (b - a) (between l a c)
  have htake : (between l a c).take (b - a) = between l a b := by
    rw [between, List.take_drop, List.take_take, Nat.add_sub_cancel' hab, min_eq_left hbc, between]
  have hdrop : (between l a c).drop (b - a) = between l b c := by
    rw [between, List.drop_drop, Nat.add_sub_cancel' hab, between]
  rw [htake, hdrop] at h
  exact h

theorem between_succ {α : Type} {l : List α} {a : ℕ} {x : α} (h : l[a]? = some x) :
    between l a (a + 1) = [x] := by
  obtain ⟨hlt, rfl⟩ := List.getElem?_eq_some_iff.mp h
  rw [between, List.drop_take, List.drop_eq_getElem_cons hlt, Nat.add_sub_cancel_left]
  rfl

/-- The length of the text of the tokens from `i` on. -/
def leftFrom (toks : List PToken) (i : ℕ) : ℕ := ((toks.drop i).map fun t => t.stop - t.start).sum

def left (s : Parser) : ℕ := leftFrom s.toks s.pos

theorem leftFrom_succ {toks : List PToken} {i : ℕ} {t : PToken} (h : toks[i]? = some t) :
    leftFrom toks i = (t.stop - t.start) + leftFrom toks (i + 1) := by
  obtain ⟨hlt, rfl⟩ := List.getElem?_eq_some_iff.mp h
  rw [leftFrom, List.drop_eq_getElem_cons hlt, List.map_cons, List.sum_cons, leftFrom]

theorem leftFrom_anti (toks : List PToken) {i j : ℕ} (h : i ≤ j) :
    leftFrom toks j ≤ leftFrom toks i := by
  induction j, h using Nat.le_induction with
  | base => exact le_rfl
  | succ j _ ih =>
      cases ht : toks[j]? with
      | none =>
          have : toks.length ≤ j := List.getElem?_eq_none_iff.mp ht
          simp [leftFrom, List.drop_eq_nil_of_le, Nat.le_succ_of_le this]
      | some t =>
          have := leftFrom_succ ht
          omega

theorem leftFrom_lt {toks : List PToken} (hspans : ∀ t ∈ toks, t.start < t.stop) {i j : ℕ}
    (hi : i < toks.length) (hij : i < j) : leftFrom toks j < leftFrom toks i := by
  have hspan := hspans _ (List.getElem_mem hi)
  have hsucc := leftFrom_succ (List.getElem?_eq_getElem hi)
  have hanti : leftFrom toks j ≤ leftFrom toks (i + 1) := leftFrom_anti toks hij
  omega

/-! ## Well-formed parsers and steps -/

/-- The cursor is within the unit, the unit within the tokens, and the tokens have text
within the source. -/
structure Ok (s : Parser) : Prop where
  limit_le : s.limit ≤ s.toks.length
  pos_le : s.pos ≤ s.limit
  spans : ∀ t ∈ s.toks, t.start < t.stop ∧ t.stop ≤ s.src.length

theorem Ok.atEnd_iff {s : Parser} (h : Ok s) : s.atEnd = true ↔ s.pos = s.limit := by
  have h₁ := h.limit_le
  have h₂ := h.pos_le
  simp only [Parser.atEnd, decide_eq_true_eq, min_eq_left h₁]
  omega

theorem Ok.inside {s : Parser} (h : Ok s) (hs : s.atEnd = false) :
    ∃ t, s.tok s.pos = some t ∧ s.toks[s.pos]? = some t ∧ s.pos < s.limit := by
  have hne : ¬ s.pos = s.limit := by
    rw [← h.atEnd_iff, hs]
    simp
  have hlt : s.pos < s.limit := lt_of_le_of_ne h.pos_le hne
  have hlen : s.pos < s.toks.length := lt_of_lt_of_le hlt h.limit_le
  exact ⟨s.toks[s.pos], by simp [Parser.tok, hlt], by simp, hlt⟩

theorem current_of_atEnd {s : Parser} (hs : s.atEnd = true) : s.current = .eof := by
  have hle : min s.limit s.toks.length ≤ s.pos := by simpa [Parser.atEnd] using hs
  have hnone : s.tok s.pos = none := by
    unfold Parser.tok
    split
    · rename_i hlt
      exact List.getElem?_eq_none_iff.mpr (by omega)
    · rfl
  simp [Parser.current, Parser.nth, hnone]

theorem atEnd_of_current {s : Parser} (h : s.current ≠ .eof) : s.atEnd = false := by
  cases hs : s.atEnd with
  | false => rfl
  | true => exact absurd (current_of_atEnd hs) h

/-- An action moved the cursor from `s` to `s'`. -/
structure Step (s s' : Parser) : Prop where
  src : s'.src = s.src
  toks : s'.toks = s.toks
  units : s'.units = s.units
  unit : s'.unit = s.unit
  limit : s'.limit = s.limit
  blockIndent : s'.blockIndent = s.blockIndent
  depth : s'.depth = s.depth
  pos_le : s.pos ≤ s'.pos
  bound : s.pos ≤ s.limit → s'.pos ≤ s.limit
  events : ∃ es, s'.events = s.events ++ es ∧ Flat es ∧
    Emits (between s.toks s.pos s'.pos) (leaves es)

theorem Step.refl (s : Parser) : Step s s :=
  ⟨rfl, rfl, rfl, rfl, rfl, rfl, rfl, le_rfl, id, [], by simp, .nil, by simpa using Emits.nil⟩

theorem Step.trans {a b c : Parser} (hab : Step a b) (hbc : Step b c) : Step a c := by
  obtain ⟨es, hes, hflat, hemits⟩ := hab.events
  obtain ⟨fs, hfs, hflat', hemits'⟩ := hbc.events
  refine ⟨hbc.src.trans hab.src, hbc.toks.trans hab.toks, hbc.units.trans hab.units,
    hbc.unit.trans hab.unit, hbc.limit.trans hab.limit, hbc.blockIndent.trans hab.blockIndent,
    hbc.depth.trans hab.depth, hab.pos_le.trans hbc.pos_le, ?_, es ++ fs, ?_,
    hflat.append hflat', ?_⟩
  · intro h
    have hb := hab.bound h
    have hc := hbc.bound (by rw [hab.limit]; exact hb)
    rwa [hab.limit] at hc
  · rw [hfs, hes, List.append_assoc]
  · rw [← between_append a.toks hab.pos_le hbc.pos_le, leaves_append]
    rw [hab.toks] at hemits'
    exact hemits.append hemits'

theorem Step.ok {s s' : Parser} (h : Step s s') (hs : Ok s) : Ok s' := by
  refine ⟨?_, ?_, ?_⟩
  · rw [h.limit, h.toks]
    exact hs.limit_le
  · rw [h.limit]
    exact h.bound hs.pos_le
  · rw [h.toks, h.src]
    exact hs.spans

theorem Step.left_le {s s' : Parser} (h : Step s s') : left s' ≤ left s := by
  rw [left, h.toks]
  exact leftFrom_anti s.toks h.pos_le

theorem Step.left_lt {s s' : Parser} (h : Step s s') (hs : Ok s) (hlt : s.pos < s'.pos) :
    left s' < left s := by
  have hpos : s.pos < s.toks.length := by
    have := h.bound hs.pos_le
    have := hs.limit_le
    omega
  rw [left, h.toks, left]
  exact leftFrom_lt (fun t ht => (hs.spans t ht).1) hpos hlt

/-! ## Contracts -/

/-! ## Contracts -/

/-- The action returns with a result in `V`. -/
def Runs {α : Type} (n : ℕ) (V : α → Prop) (x : P α) : Prop :=
  ∀ s, Ok s → left s < n → Returns x s fun a s' => Step s s' ∧ V a

/-- Not at the end, the action consumes a token and returns with a result in `V`. -/
def Moves {α : Type} (n : ℕ) (V : α → Prop) (x : P α) : Prop :=
  ∀ s, Ok s → s.atEnd = false → left s < n →
    Returns x s fun a s' => Step s s' ∧ s.pos < s'.pos ∧ V a

/-- The step appended one chain, and `cm` is its outermost node. -/
structure Planted (s s' : Parser) (cm : CompletedMarker) : Prop extends Step s s' where
  chain : ∃ segs, Linked segs ∧ s'.events = s.events ++ chainEvents segs ∧
    cm.pos = s.events.length + lastStart segs

/-- The action returns a finished node, and consumes a token unless at the end. -/
def Plants (n : ℕ) (x : P CompletedMarker) : Prop :=
  ∀ s, Ok s → left s < n →
    Returns x s fun cm s' => Planted s s' cm ∧ (s.atEnd = false → s.pos < s'.pos)

/-- Not at the end, the action consumes a token and returns a finished node. -/
def Grows (n : ℕ) (x : P CompletedMarker) : Prop :=
  ∀ s, Ok s → s.atEnd = false → left s < n →
    Returns x s fun cm s' => Planted s s' cm ∧ s.pos < s'.pos

/-- Any result. -/
abbrev Anything {α : Type} : α → Prop := fun _ => True

/-- The kind of a node. -/
abbrev IsNode : SyntaxKind → Prop := (· ≠ .tombstone)

variable {α β τ : Type} {n m : ℕ} {U V : α → Prop} {W : β → Prop}

theorem Plants.mono {x : P CompletedMarker} (h : Plants n x) (hmn : m ≤ n) : Plants m x :=
  fun s hs hleft => h s hs (lt_of_lt_of_le hleft hmn)

theorem Plants.grows {x : P CompletedMarker} (h : Plants n x) : Grows n x :=
  fun s hs hend hleft => (h s hs hleft).mono fun _ _ hcm => ⟨hcm.1, hcm.2 hend⟩

/-! ## Sequencing -/

theorem Runs.pure {a : α} (ha : V a) : Runs n V (Pure.pure a) :=
  fun s _ _ => Returns.pure ⟨Step.refl s, ha⟩

theorem Runs.bind {x : P α} {f : α → P β} (hx : Runs n U x) (hf : ∀ a, U a → Runs n W (f a)) :
    Runs n W (x >>= f) := by
  intro s hs hleft
  refine (hx s hs hleft).bind ?_
  rintro a s₁ ⟨h₁, ha⟩
  refine (hf a ha s₁ (h₁.ok hs) (lt_of_le_of_lt h₁.left_le hleft)).mono ?_
  rintro b s₂ ⟨h₂, hb⟩
  exact ⟨h₁.trans h₂, hb⟩

theorem Runs.get_bind {f : Parser → P β} (hf : ∀ p, Runs n W (f p)) :
    Runs n W (MonadState.get >>= f) := fun s hs hleft => hf s s hs hleft

theorem Runs.branch {c : Parser → Bool} {x y : P α} (hx : Runs n V x) (hy : Runs n V y) :
    Runs n V (branch c x y) := by
  intro s hs hleft
  exact Returns.branch (fun _ => hx s hs hleft) (fun _ => hy s hs hleft)

theorem Runs.onlyIf {c : Bool} {x : P Unit} (hx : Runs n Anything x) :
    Runs n Anything (onlyIf c x) := by
  cases c with
  | false => exact Runs.pure trivial
  | true => exact hx

/-- The first action consumes a token, so the others may recurse one level down. -/
theorem Moves.bind {x : P α} {f : α → P β} (hx : Moves (n + 1) U x)
    (hf : ∀ a, U a → Runs n W (f a)) : Moves (n + 1) W (x >>= f) := by
  intro s hs hend hleft
  refine (hx s hs hend hleft).bind ?_
  rintro a s₁ ⟨h₁, hlt, ha⟩
  have hdown := h₁.left_lt hs hlt
  refine (hf a ha s₁ (h₁.ok hs) (by omega)).mono ?_
  rintro b s₂ ⟨h₂, hb⟩
  exact ⟨h₁.trans h₂, lt_of_lt_of_le hlt h₂.pos_le, hb⟩

theorem Moves.seq {x : P α} {f : α → P β} (hx : Moves n U x)
    (hf : ∀ a, U a → Runs n W (f a)) : Moves n W (x >>= f) := by
  intro s hs hend hleft
  refine (hx s hs hend hleft).bind ?_
  rintro a s₁ ⟨h₁, hlt, ha⟩
  refine (hf a ha s₁ (h₁.ok hs) (lt_of_le_of_lt h₁.left_le hleft)).mono ?_
  rintro b s₂ ⟨h₂, hb⟩
  exact ⟨h₁.trans h₂, lt_of_lt_of_le hlt h₂.pos_le, hb⟩

theorem Moves.branch {c : Parser → Bool} {x y : P α} (hx : Moves n V x) (hy : Moves n V y) :
    Moves n V (branch c x y) := by
  intro s hs hend hleft
  exact Returns.branch (fun _ => hx s hs hend hleft) (fun _ => hy s hs hend hleft)

theorem Plants.branch_inside {c : Parser → Bool} {x y : P CompletedMarker}
    (hc : ∀ p, c p = true → p.atEnd = false) (hx : Grows n x) (hy : Plants n y) :
    Plants n (branch c x y) := by
  intro s hs hleft
  refine Returns.branch ?_ fun _ => hy s hs hleft
  intro hcs
  exact (hx s hs (hc s hcs) hleft).mono fun _ _ h => ⟨h.1, fun _ => h.2⟩

/-- Dispatch on the current kind: every kind but the end's may rely on a token. -/
theorem Plants.match_current {f : Parser → P CompletedMarker}
    (h : ∀ p, p.current ≠ .eof ∧ Grows n (f p) ∨ Plants n (f p)) :
    Plants n (MonadState.get >>= f) := by
  intro s hs hleft
  rcases h s with ⟨hcur, hg⟩ | hp
  · exact (hg s hs (atEnd_of_current hcur) hleft).mono fun _ _ h => ⟨h.1, fun _ => h.2⟩
  · exact hp s hs hleft

theorem Runs.ignore {x : P CompletedMarker} (h : Plants n x) : Runs n Anything (ignore x) := by
  intro s hs hleft
  exact (h s hs hleft).bind fun _ s' hcm => Returns.pure ⟨hcm.1.toStep, trivial⟩

theorem Moves.ignore {x : P CompletedMarker} (h : Grows n x) : Moves n Anything (ignore x) := by
  intro s hs hend hleft
  exact (h s hs hend hleft).bind fun _ s' hcm => Returns.pure ⟨hcm.1.toStep, hcm.2, trivial⟩

/-! ## Loops -/

/-- A round of a loop: it returns, and consumes a token unless it is the last. -/
def Rounds (n : ℕ) (V : τ → Prop) (body : τ → P (ForInStep τ)) : Prop :=
  ∀ a, V a → ∀ s, Ok s → left s < n → Returns (body a) s fun r s' => Step s s' ∧
    match r with
    | .done b => V b
    | .yield b => V b ∧ s.pos < s'.pos

theorem Runs.loop {V : τ → Prop} {body : τ → P (ForInStep τ)} {fuel : ℕ} {a : τ}
    (hbody : Rounds n V body) (hfuel : n ≤ fuel) (ha : V a) : Runs n V (loop fuel body a) := by
  intro s hs hleft
  refine Returns.loop (μ := fun _ t => left t) (I := fun b t => Step s t ∧ V b) ?_ fuel a s
    ⟨Step.refl s, ha⟩ (by omega)
  rintro b t ⟨hst, hb⟩
  refine (hbody b hb t (hst.ok hs) (lt_of_le_of_lt hst.left_le hleft)).mono ?_
  rintro r t' ⟨hstep, hr⟩
  cases r with
  | done b' => exact ⟨hst.trans hstep, hr⟩
  | yield b' => exact ⟨⟨hst.trans hstep, hr.1⟩, hstep.left_lt (hst.ok hs) hr.2⟩

theorem Runs.whileLoop {V : τ → Prop} {c : Parser → Bool} {body : τ → P τ} {fuel : ℕ} {a : τ}
    (hc : ∀ p, c p = true → p.atEnd = false) (hbody : ∀ a, V a → Moves n V (body a))
    (hfuel : n ≤ fuel) (ha : V a) : Runs n V (whileLoop fuel c body a) := by
  refine Runs.loop ?_ hfuel ha
  intro b hb s hs hleft
  refine Returns.branch ?_ ?_
  · intro hcs
    refine Returns.map ((hbody b hb s hs (hc s hcs) hleft).mono ?_)
    rintro b' s' ⟨hstep, hlt, hb'⟩
    exact ⟨hstep, hb', hlt⟩
  · intro _
    exact Returns.pure ⟨Step.refl s, hb⟩

theorem Rounds.done {V : τ → Prop} {f : τ → τ} (hf : ∀ a, V a → V (f a)) :
    Rounds n V fun a => pure (.done (f a)) :=
  fun a ha s _ _ => Returns.pure ⟨Step.refl s, hf a ha⟩

/-- A round that consumes a token may end either way. -/
theorem Rounds.of_moves {V : τ → Prop} {c : Parser → Bool} {x y : τ → P (ForInStep τ)}
    (hc : ∀ p, c p = true → p.atEnd = false)
    (hx : ∀ a, V a → Moves n (fun r => match r with | .done b => V b | .yield b => V b) (x a))
    (hy : Rounds n V y) : Rounds n V fun a => Returning.branch c (x a) (y a) := by
  intro a ha s hs hleft
  refine Returns.branch ?_ fun _ => hy a ha s hs hleft
  intro hcs
  refine (hx a ha s hs (hc s hcs) hleft).mono ?_
  rintro r s' ⟨hstep, hlt, hr⟩
  cases r with
  | done b => exact ⟨hstep, hr⟩
  | yield b => exact ⟨hstep, hr, hlt⟩

end Sky.Syntax
