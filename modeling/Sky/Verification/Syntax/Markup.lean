import Sky.Model.Syntax.Tree

/-! # Well-formed event lists

What a production appends to the events: leaves and chains of nodes. A chain is the nodes
that `precede` stacks over one another, each a first child of the next. -/

namespace Sky.Syntax

/-! ## Chains -/

/-- One node of a chain: its kind and what it holds besides the node before it. -/
abbrev Segment := SyntaxKind × List Event

/-- The events of a chain, each node linked to the next. -/
def chainEvents : List Segment → List Event
  | [] => []
  | [(kind, es)] => .start kind none :: (es ++ [.finish])
  | (kind, es) :: seg :: segs =>
      .start kind (some (es.length + 2)) :: (es ++ .finish :: chainEvents (seg :: segs))

/-- The place of the outermost node's `start`. -/
def lastStart : List Segment → ℕ
  | [] => 0
  | [_] => 0
  | (_, es) :: seg :: segs => es.length + 2 + lastStart (seg :: segs)

/-- The event list is a sequence of leaves and chains of named nodes. -/
inductive Flat : List Event → Prop where
  | nil : Flat []
  | token {kind es} : Flat es → Flat (.token kind :: es)
  | rawSlice {kind start stop es} : Flat es → Flat (.rawSlice kind start stop :: es)
  | skip {es} : Flat es → Flat (.skip :: es)
  | chain {segs es} (hne : segs ≠ []) (hnamed : ∀ seg ∈ segs, seg.1 ≠ .tombstone)
      (hsegs : ∀ seg ∈ segs, Flat seg.2) (hes : Flat es) : Flat (chainEvents segs ++ es)

/-- The nodes of a chain are named and hold well-formed events. -/
structure Linked (segs : List Segment) : Prop where
  ne_nil : segs ≠ []
  named : ∀ seg ∈ segs, seg.1 ≠ .tombstone
  flat : ∀ seg ∈ segs, Flat seg.2

theorem Linked.single {kind : SyntaxKind} {es : List Event} (hk : kind ≠ .tombstone)
    (hes : Flat es) : Linked [(kind, es)] := by
  refine ⟨by simp, ?_, ?_⟩
  · intro seg hseg
    rw [List.mem_singleton.mp hseg]
    exact hk
  · intro seg hseg
    rw [List.mem_singleton.mp hseg]
    exact hes

theorem Linked.snoc {segs : List Segment} {kind : SyntaxKind} {es : List Event}
    (h : Linked segs) (hk : kind ≠ .tombstone) (hes : Flat es) :
    Linked (segs ++ [(kind, es)]) := by
  refine ⟨by simp, ?_, ?_⟩
  · intro seg hseg
    rcases List.mem_append.mp hseg with hseg | hseg
    · exact h.named seg hseg
    · rw [List.mem_singleton.mp hseg]
      exact hk
  · intro seg hseg
    rcases List.mem_append.mp hseg with hseg | hseg
    · exact h.flat seg hseg
    · rw [List.mem_singleton.mp hseg]
      exact hes

theorem Flat.append {es fs : List Event} (hes : Flat es) (hfs : Flat fs) : Flat (es ++ fs) := by
  induction hes with
  | nil => exact hfs
  | token _ ih => exact .token ih
  | rawSlice _ ih => exact .rawSlice ih
  | skip _ ih => exact .skip ih
  | chain hne hnamed hsegs _ _ ih =>
      rw [List.append_assoc]
      exact .chain hne hnamed hsegs ih

theorem Linked.flat_events {segs : List Segment} (h : Linked segs) : Flat (chainEvents segs) := by
  have hc : Flat (chainEvents segs ++ []) :=
    .chain h.ne_nil h.named h.flat .nil
  simpa using hc

/-! ## Growing a chain -/

theorem chainEvents_cons (kind : SyntaxKind) (es : List Event) {segs : List Segment}
    (hne : segs ≠ []) : chainEvents ((kind, es) :: segs) =
      .start kind (some (es.length + 2)) :: (es ++ .finish :: chainEvents segs) := by
  cases segs with
  | nil => exact absurd rfl hne
  | cons seg segs => rfl

theorem lastStart_cons (seg : Segment) {segs : List Segment} (hne : segs ≠ []) :
    lastStart (seg :: segs) = seg.2.length + 2 + lastStart segs := by
  cases segs with
  | nil => exact absurd rfl hne
  | cons seg segs => rfl

/-- The outermost node's `start` is in place and not linked yet. -/
theorem chainEvents_lastStart {segs : List Segment} (hne : segs ≠ []) :
    ∃ kind, (chainEvents segs)[lastStart segs]? = some (.start kind none) := by
  induction segs with
  | nil => exact absurd rfl hne
  | cons seg segs ih =>
      obtain ⟨kind, es⟩ := seg
      by_cases hs : segs = []
      · subst hs
        exact ⟨kind, rfl⟩
      · obtain ⟨last, hlast⟩ := ih hs
        refine ⟨last, ?_⟩
        rw [chainEvents_cons kind es hs, lastStart_cons _ hs]
        have hidx : es.length + 2 + lastStart segs = (es.length + (lastStart segs + 1)) + 1 := by
          omega
        rw [hidx, List.getElem?_cons_succ, List.getElem?_append_right (by omega),
          Nat.add_sub_cancel_left, List.getElem?_cons_succ]
        exact hlast

theorem lastStart_lt {segs : List Segment} (hne : segs ≠ []) :
    lastStart segs < (chainEvents segs).length := by
  obtain ⟨kind, h⟩ := chainEvents_lastStart hne
  exact (List.getElem?_eq_some_iff.mp h).1

/-- Linking the outermost node to a new one and closing it grows the chain by one. -/
theorem chainEvents_snoc {segs : List Segment} (hne : segs ≠ []) {last : SyntaxKind}
    (hlast : (chainEvents segs)[lastStart segs]? = some (.start last none))
    (kind : SyntaxKind) (es : List Event) :
    chainEvents (segs ++ [(kind, es)]) =
      (chainEvents segs).set (lastStart segs)
        (.start last (some ((chainEvents segs).length - lastStart segs))) ++
        .start kind none :: (es ++ [.finish]) := by
  induction segs with
  | nil => exact absurd rfl hne
  | cons seg segs ih =>
      obtain ⟨first, fs⟩ := seg
      by_cases hs : segs = []
      · subst hs
        obtain ⟨rfl⟩ : first = last := by simpa [chainEvents, lastStart] using hlast
        simp [chainEvents, lastStart]
      · have hidx : fs.length + 2 + lastStart segs = (fs.length + (lastStart segs + 1)) + 1 := by
          omega
        have hlast' : (chainEvents segs)[lastStart segs]? = some (.start last none) := by
          rw [chainEvents_cons first fs hs, lastStart_cons _ hs, hidx,
            List.getElem?_cons_succ, List.getElem?_append_right (by omega),
            Nat.add_sub_cancel_left, List.getElem?_cons_succ] at hlast
          exact hlast
        have hlt := lastStart_lt hs
        rw [List.cons_append, chainEvents_cons first fs (by simp), ih hs hlast',
          chainEvents_cons first fs hs, lastStart_cons _ hs, hidx, List.set_cons_succ,
          List.set_append_right _ _ (by omega), Nat.add_sub_cancel_left, List.set_cons_succ]
        have hlen : (Event.start first (some (fs.length + 2)) ::
            (fs ++ Event.finish :: chainEvents segs)).length -
              (fs.length + (lastStart segs + 1) + 1) =
            (chainEvents segs).length - lastStart segs := by
          simp only [List.length_cons, List.length_append]
          omega
        rw [hlen]
        simp

theorem lastStart_snoc {segs : List Segment} (hne : segs ≠ []) (seg : Segment) :
    lastStart (segs ++ [seg]) = (chainEvents segs).length := by
  induction segs with
  | nil => exact absurd rfl hne
  | cons first segs ih =>
      obtain ⟨kind, es⟩ := first
      by_cases hs : segs = []
      · subst hs
        simp [lastStart, chainEvents]
      · rw [List.cons_append, lastStart_cons _ (by simp), ih hs, chainEvents_cons kind es hs]
        simp only [List.length_cons, List.length_append]
        omega

/-! ## Leaves -/

def Event.isLeaf : Event → Bool
  | .start _ _ | .finish => false
  | .token _ | .rawSlice _ _ _ | .skip => true

/-- The events that emit text. -/
def leaves (es : List Event) : List Event := es.filter Event.isLeaf

@[simp] theorem leaves_nil : leaves [] = [] := rfl

@[simp] theorem leaves_append (es fs : List Event) :
    leaves (es ++ fs) = leaves es ++ leaves fs := List.filter_append ..

@[simp] theorem leaves_start (kind : SyntaxKind) (fp : Option ℕ) (es : List Event) :
    leaves (.start kind fp :: es) = leaves es := rfl

@[simp] theorem leaves_finish (es : List Event) : leaves (.finish :: es) = leaves es := rfl

@[simp] theorem leaves_token (kind : SyntaxKind) (es : List Event) :
    leaves (.token kind :: es) = .token kind :: leaves es := rfl

@[simp] theorem leaves_rawSlice (kind : SyntaxKind) (start stop : ℕ) (es : List Event) :
    leaves (.rawSlice kind start stop :: es) = .rawSlice kind start stop :: leaves es := rfl

@[simp] theorem leaves_skip (es : List Event) : leaves (.skip :: es) = .skip :: leaves es := rfl

/-- Replacing one `start` by another keeps the leaves. -/
theorem leaves_set {es : List Event} {i : ℕ} {kind kind' : SyntaxKind} {fp fp' : Option ℕ}
    (h : es[i]? = some (.start kind fp)) : leaves (es.set i (.start kind' fp')) = leaves es := by
  induction es generalizing i with
  | nil => simp at h
  | cons e es ih =>
      cases i with
      | zero =>
          obtain rfl : e = .start kind fp := by simpa using h
          rfl
      | succ i =>
          have hi : es[i]? = some (.start kind fp) := by simpa using h
          rw [List.set_cons_succ]
          cases e <;> simp [ih hi]

/-! ## What the leaves emit -/

/-- The slices cover `src[start..stop]` without a gap. -/
inductive Slices : ℕ → ℕ → List Event → Prop where
  | nil {a} : Slices a a []
  | cons {kind a b c es} (hab : a ≤ b) (h : Slices b c es) :
      Slices a c (.rawSlice kind a b :: es)

/-- The leaves consume the tokens once each and in order: a token is emitted under its own
kind, or skipped and its text covered by the slices that follow. -/
inductive Emits : List PToken → List Event → Prop where
  | nil : Emits [] []
  | token {t ts es} (h : Emits ts es) : Emits (t :: ts) (.token t.kind :: es)
  | skip {t ts ss es} (hs : Slices t.start t.stop ss) (h : Emits ts es) :
      Emits (t :: ts) (.skip :: (ss ++ es))

theorem Slices.append {a b c : ℕ} {ss ts : List Event} (hss : Slices a b ss)
    (hts : Slices b c ts) : Slices a c (ss ++ ts) := by
  induction hss with
  | nil => exact hts
  | cons hab _ ih => exact .cons hab (ih hts)

theorem Emits.append {ts us : List PToken} {es fs : List Event} (hts : Emits ts es)
    (hus : Emits us fs) : Emits (ts ++ us) (es ++ fs) := by
  induction hts with
  | nil => exact hus
  | token _ ih => exact .token ih
  | skip hs _ ih =>
      simp only [List.cons_append, List.append_assoc]
      exact .skip hs ih

end Sky.Syntax
