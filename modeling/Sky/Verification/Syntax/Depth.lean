import Sky.Verification.Syntax.Progress
import Sky.Verification.Syntax.Simulation

/-! # How deep the productions nest

Types, patterns and operator expressions count their nesting and stop at `maxDepth`. The operand
of a unary minus and the rest of a `::` pattern are read without a count. -/

namespace Sky.Syntax

open Sky.Returning

/-! ## Bounded calls -/

/-- Productions that refuse every call. -/
def refused (fuel : ℕ) : Entries where
  fuel := fuel
  ty := fun _ => none
  pattern := fun _ => none
  patternCons := fun _ => none
  exprBp := fun _ _ => none
  primaryExpr := fun _ => none

/-- The productions that refuse a call inside `n` others. -/
def callsWithin (logos : Logos) (fuel : ℕ) : ℕ → Entries
  | 0 => refused fuel
  | n + 1 => level logos fuel (callsWithin logos fuel n)

/-- The productions that refuse a unary minus or a `::` pattern inside `r` others, of which `m` are
left, with no guarded production between them. At most `n` calls are inside one another. -/
def chainsWithin (logos : Logos) (fuel r : ℕ) : ℕ → ℕ → Entries
  | 0, _ => refused fuel
  | n + 1, 0 =>
      { level logos fuel (chainsWithin logos fuel r n r) with
        patternCons := fun _ => none
        primaryExpr := fun _ => none }
  | n + 1, m + 1 =>
      { level logos fuel (chainsWithin logos fuel r n r) with
        patternCons := patternCons (chainsWithin logos fuel r n m)
        primaryExpr := primaryExpr logos (chainsWithin logos fuel r n m) }

/-- The parse of `p` never has more than `n` calls inside one another. -/
def CallsWithin (logos : Logos) (p : Parser) (n : ℕ) : Prop :=
  ∃ fuel, (sourceFile (callsWithin logos fuel n) p).isSome

/-- In the parse of `p` no unary minus and no `::` pattern is inside more than `r` others of its
kind with no guarded production between them. -/
def ChainsWithin (logos : Logos) (p : Parser) (r : ℕ) : Prop :=
  ∃ fuel n, (sourceFile (chainsWithin logos fuel r n r) p).isSome

@[simp] theorem callsWithin_fuel (logos : Logos) (fuel n : ℕ) :
    (callsWithin logos fuel n).fuel = fuel := by
  cases n with
  | zero => rfl
  | succ n => rfl

@[simp] theorem chainsWithin_fuel (logos : Logos) (fuel r n m : ℕ) :
    (chainsWithin logos fuel r n m).fuel = fuel := by
  cases n with
  | zero => rfl
  | succ n =>
      cases m with
      | zero => rfl
      | succ m => rfl

/-! ## Tokens of the scanner -/

/-- Every token is one that the scanner reads in the source. -/
def Lexed (logos : Logos) (src : List Char) (toks : List PToken) : Prop :=
  ∀ t ∈ toks, t.lexToken ∈ lex logos src

def quotes : List Char := ['"', '"', '"']

/-- A multiline string reaches up to the first quotes after the opening ones. -/
def Logos.RawStrings (logos : Logos) : Prop :=
  ∀ src, ∀ t ∈ lex logos src, t.kind = .multilineString →
    quotes <+: slice src t.start t.stop ∧
      ∀ k ≥ 3, quotes <+: (slice src t.start t.stop).drop k → k + 3 = t.stop - t.start

theorem layout_lexed (logos : Logos) (src : List Char) :
    Lexed logos src (layout src (lex logos src)) := by
  intro t ht
  have hmem : t.lexToken ∈ (layout src (lex logos src)).map PToken.lexToken :=
    List.mem_map_of_mem ht
  rw [layout_lexToken] at hmem
  exact List.mem_of_mem_filter hmem

theorem slice_prefix_drop (src : List Char) (a b : ℕ) : slice src a b <+: src.drop a :=
  (List.take_prefix b src).drop a

/-- No multiline string begins in the body of an interpolation. -/
theorem interpolation_plain {logos : Logos} (hlogos : logos.Partitions) (hraw : logos.RawStrings)
    {src : List Char} {t : LexToken} (ht : t ∈ lex logos src) (hkind : t.kind = .multilineString)
    {i rel : ℕ} (h : Interpolates (slice src t.start t.stop) i rel) :
    ∀ u ∈ lex logos (slice src (t.start + (i + 2)) (t.start + (i + 2 + rel))),
      u.kind ≠ .multilineString := by
  intro u hu hu_kind
  obtain ⟨hopen, hnext⟩ := hraw src t ht hkind
  obtain ⟨hinner, -⟩ := hraw _ u hu hu_kind
  have hspan := (hlogos src).mem t ht
  have hlength := slice_length (a := t.start) hspan.2.2
  have hbody := findClose_le h.2.2
  have hclose := (closeOf_bounds (slice src t.start t.stop)).2
  rw [slice_length hclose] at hbody
  have hi : i ≠ 0 := by
    rintro rfl
    obtain ⟨rest, hrest⟩ := hopen
    have hfirst := h.1
    rw [← hrest] at hfirst
    simp [quotes] at hfirst
  have hprefix : quotes <+: (slice src t.start t.stop).drop (i + 2 + u.start) := by
    refine (hinner.trans (slice_prefix_drop _ _ _)).trans ?_
    rw [slice, slice, List.drop_drop, List.drop_drop]
    have heq : t.start + (i + 2) + u.start = t.start + (i + 2 + u.start) := by omega
    rw [heq]
    exact (List.take_prefix_take_left (by omega)).drop _
  have hlast := hnext _ (by omega) hprefix
  have hfits := hinner.length_le
  have hspan_u := (hlogos _).mem u hu
  rw [slice_length (a := t.start + (i + 2)) (by omega)] at hspan_u
  rw [slice_length (by rw [slice_length (by omega)]; exact hspan_u.2.2)] at hfits
  simp only [quotes, List.length_cons, List.length_nil] at hfits
  omega

/-! ## Runs over fixed tokens -/

/-- The two parsers are one, and it satisfies `φ`. -/
def Held (φ : Parser → Prop) (s t : Parser) : Prop := s = t ∧ φ s

/-- A parser over fixed tokens; `φ` says no more of it than its depth. -/
structure Region (src : List Char) (toks : List PToken) (φ : Parser → Prop) : Prop where
  src_eq : ∀ s, φ s → s.src = src
  toks_eq : ∀ s, φ s → s.toks = toks
  kept : ∀ s s' : Parser, s'.src = s.src → s'.toks = s.toks → s'.depth = s.depth → φ s → φ s'

section

variable {φ : Parser → Prop} {logos : Logos} {src : List Char} {toks : List PToken}

theorem mem_of_tok {s : Parser} {i : ℕ} {t : PToken} (h : s.tok i = some t) : t ∈ s.toks := by
  unfold Parser.tok at h
  split at h
  next => exact List.mem_of_getElem? h
  next => exact absurd h (by simp)

theorem held_follows {α : Type} {x : P α} (h : ∀ s a s', φ s → x s = some (a, s') → φ s') :
    Follows (Held φ) (Held φ) (· = ·) x x := by
  rintro s _ ⟨rfl, hs⟩ a s' hx
  exact ⟨a, s', hx, rfl, rfl, h s a s' hs hx⟩

theorem held_update (hφ : Region src toks φ) {f : Parser → Parser}
    (h : ∀ s, (f s).src = s.src ∧ (f s).toks = s.toks ∧ (f s).depth = s.depth) :
    Follows (Held φ) (Held φ) (· = ·) (modify f : P Unit) (modify f) := by
  refine Follows.update ?_
  rintro s _ ⟨rfl, hs⟩
  exact ⟨rfl, hφ.kept _ _ (h s).1 (h s).2.1 (h s).2.2 hs⟩

theorem held_simulation (hlogos : logos.Partitions) (hlexed : Lexed logos src toks)
    (hφ : Region src toks φ) : Simulation (Held φ) (· = ·) (· = ·) where
  view := by
    rintro s _ ⟨rfl, -⟩
    exact SameView.refl s
  start := by
    refine (held_follows fun s a s' hs hx => ?_).mono (fun _ _ h => congrArg _ h) fun _ _ h => h
    obtain ⟨-, rfl⟩ := Prod.mk.inj (Option.some.inj hx)
    exact hφ.kept s _ rfl rfl rfl hs
  complete := by
    rintro ⟨a⟩ ⟨_⟩ kind rfl
    refine (held_follows fun s c s' hs hx => ?_).mono (fun _ _ h => congrArg _ h) fun _ _ h => h
    unfold Marker.complete at hx
    split at hx
    next =>
        obtain ⟨-, rfl⟩ := Prod.mk.inj (Option.some.inj hx)
        exact hφ.kept s _ rfl rfl rfl hs
    next => exact absurd hx (by simp)
  precede := by
    rintro ⟨a⟩ ⟨_⟩ rfl
    refine (held_follows fun s c s' hs hx => ?_).mono (fun _ _ h => congrArg _ h) fun _ _ h => h
    obtain ⟨m, t, ht, hx⟩ := bind_eq_some hx
    obtain ⟨-, rfl⟩ := Prod.mk.inj (Option.some.inj ht)
    dsimp only at hx
    split at hx
    next =>
        obtain ⟨-, rfl⟩ := Prod.mk.inj (Option.some.inj hx)
        exact hφ.kept s _ rfl rfl rfl hs
    next =>
        obtain ⟨-, rfl⟩ := Prod.mk.inj (Option.some.inj hx)
        exact hφ.kept s _ rfl rfl rfl hs
    next => exact absurd hx (by simp)
  bump := held_update hφ fun s => by split <;> exact ⟨rfl, rfl, rfl⟩
  error msg := held_update hφ fun s => by split <;> exact ⟨rfl, rfl, rfl⟩
  indent anchor := held_update hφ fun s => ⟨rfl, rfl, rfl⟩
  skipRaw := held_update hφ fun s => by split <;> exact ⟨rfl, rfl, rfl⟩
  emitSlice := by
    rintro kind a b _ _ rfl rfl
    exact held_update hφ fun s => ⟨rfl, rfl, rfl⟩
  source := by
    rintro s _ ⟨rfl, -⟩ a b _ _ rfl rfl
    rfl
  span := by
    rintro s _ ⟨rfl, hs⟩ u hu
    have hmem : u ∈ toks := by
      rw [← hφ.toks_eq s hs]
      exact mem_of_tok hu
    have hspan := (hlogos src).mem _ (hlexed u hmem)
    have hle : u.start ≤ u.stop ∧ u.stop ≤ s.src.length := by
      rw [hφ.src_eq s hs]
      exact ⟨hspan.2.1.le, hspan.2.2⟩
    exact ⟨u, hu, hle, hle, rfl, fun _ _ => rfl⟩
  no_span := by
    rintro s _ ⟨rfl, -⟩ hs
    exact hs

theorem held_beginUnit (hφ : Region src toks φ) :
    Follows (Held φ) (Held φ) (· = ·) beginUnit beginUnit :=
  held_update hφ fun s => by split <;> exact ⟨rfl, rfl, rfl⟩

variable (hlogos : logos.Partitions) (hlexed : Lexed logos src toks)
include hlogos hlexed

/-- A multiline string is read alike if the bodies of its interpolations are. -/
theorem held_multiline (hφ : Region src toks φ) {e e' : Entries}
    (hbody : ∀ t ∈ toks, t.kind = .multilineString → ∀ i rel,
      Interpolates (slice src t.start t.stop) i rel →
        SameBody logos e.expr e'.expr (slice src (t.start + (i + 2)) (t.start + (i + 2 + rel)))) :
    FollowsMultiline logos (Held φ) (· = ·) e e' := by
  have h := held_simulation hlogos hlexed hφ
  have hstart : Follows (On (·.isAt .multilineString) (Held φ))
      (On (·.isAt .multilineString) (Held φ)) (fun m m' => m.pos = m'.pos) start start := by
    rintro s _ ⟨⟨rfl, hs⟩, hat⟩ m s' hx
    obtain ⟨-, rfl⟩ := Prod.mk.inj (Option.some.inj hx)
    exact ⟨m, _, hx, rfl, ⟨rfl, hφ.kept s _ rfl rfl rfl hs⟩, hat⟩
  have hmultiline : Follows (On (·.isAt .multilineString) (Held φ)) (Held φ) (· = ·)
      (multiline logos e.expr) (multiline logos e'.expr) := by
    refine h.multiline hlogos (fun _ _ hst => hst.1) ?_
    rintro s _ ⟨⟨rfl, hs⟩, hat⟩ t ht i rel hi s' _ ⟨rfl, hs'⟩
    have hmem : t ∈ s.toks := mem_of_tok ht
    have hkind : t.kind = .multilineString := by
      simpa [Parser.isAt, Parser.current, Parser.nth, ht] using hat
    rw [hφ.src_eq s hs] at hi
    rw [hφ.toks_eq s hs] at hmem
    rw [hφ.src_eq s' hs']
    exact hbody t hmem hkind i rel hi
  have hkind : Follows (On (·.isAt .multilineString) (Held φ)) (Held φ) (· = ·)
      (do multiline logos e.expr; pure SyntaxKind.multilineLiteral)
      (do multiline logos e'.expr; pure SyntaxKind.multilineLiteral) :=
    hmultiline.bind fun _ _ _ => Follows.pure rfl
  refine hstart.bind fun m m' hm => hkind.bind ?_
  rintro kind _ rfl
  exact h.complete m m' kind hm

end

/-- A parser over the tokens. -/
def Over (src : List Char) (toks : List PToken) (s : Parser) : Prop := s.src = src ∧ s.toks = toks

/-- A parser over the tokens, inside `d` guarded productions. -/
def AtDepth (src : List Char) (toks : List PToken) (d : ℕ) (s : Parser) : Prop :=
  Over src toks s ∧ s.depth = d

theorem over_region (src : List Char) (toks : List PToken) : Region src toks (Over src toks) where
  src_eq _ hs := hs.1
  toks_eq _ hs := hs.2
  kept _ _ hsrc htoks _ hs := ⟨hsrc.trans hs.1, htoks.trans hs.2⟩

theorem atDepth_region (src : List Char) (toks : List PToken) (d : ℕ) :
    Region src toks (AtDepth src toks d) where
  src_eq _ hs := hs.1.1
  toks_eq _ hs := hs.1.2
  kept _ _ hsrc htoks hdepth hs := ⟨⟨hsrc.trans hs.1.1, htoks.trans hs.1.2⟩, hdepth.trans hs.2⟩

theorem over_guard (src : List Char) (toks : List PToken) :
    Guard (Held (Over src toks)) (Held (Over src toks)) True where
  enter := by
    rintro s _ ⟨rfl, hs⟩ deep s' hx
    obtain ⟨-, rfl⟩ := Prod.mk.inj (Option.some.inj hx)
    exact ⟨deep, _, hx, ⟨rfl, fun _ => trivial⟩, rfl, hs⟩
  leave := by
    refine Follows.update ?_
    rintro s _ ⟨rfl, hs⟩
    exact ⟨rfl, hs⟩

theorem atDepth_guard (src : List Char) (toks : List PToken) (d : ℕ) :
    Guard (Held (AtDepth src toks d)) (Held (AtDepth src toks (d + 1))) (d < maxDepth) where
  enter := by
    rintro s _ ⟨rfl, hs⟩ deep s' hx
    obtain ⟨rfl, rfl⟩ := Prod.mk.inj (Option.some.inj hx)
    refine ⟨_, _, hx, ⟨rfl, fun hdeep => ?_⟩, rfl, hs.1, congrArg (· + 1) hs.2⟩
    have hle := of_decide_eq_false hdeep
    rw [hs.2] at hle
    omega
  leave := by
    refine Follows.update ?_
    rintro s _ ⟨rfl, hs⟩
    exact ⟨rfl, hs.1, by rw [hs.2, Nat.add_sub_cancel]⟩

/-! ## Calls and chains -/

section

variable {logos : Logos} {fuel : ℕ}

theorem refused_covers {R : Parser → Parser → Prop} {M : ℕ → ℕ → Prop} {e : Entries}
    (hfuel : fuel ≤ e.fuel) : Covers R M (refused fuel) e where
  fuel := hfuel
  ty := Follows.none
  pattern := Follows.none
  patternCons := Follows.none
  exprBp _ := Follows.none
  primaryExpr := Follows.none

theorem sameBody_of_covers {text : List Char} {e e' : Entries} {φ : Parser → Prop}
    (h : Covers (Held φ) (· = ·) e e') (hφ : φ (Parser.new text (layout text (lex logos text)))) :
    SameBody logos e.expr e'.expr text := by
  intro c sub hx
  obtain ⟨c', _, hy, -, rfl, -⟩ := h.exprBp 0 _ _ ⟨rfl, hφ⟩ c sub hx
  exact ⟨c', hy⟩

/-- The calls that a guarded production at depth `d` may need, where a multiline string needs
`base`. -/
def callsAt (base r d : ℕ) : ℕ := base + 1 + (maxDepth - d) * (r + 1)

theorem callsAt_succ (base r : ℕ) {d : ℕ} (h : d < maxDepth) :
    callsAt base r (d + 1) + r + 1 = callsAt base r d := by
  obtain ⟨k, hk⟩ : ∃ k, maxDepth - d = k + 1 := ⟨maxDepth - d - 1, by omega⟩
  have hk' : maxDepth - (d + 1) = k := by omega
  rw [callsAt, callsAt, hk, hk', Nat.succ_mul]
  omega

variable (hlogos : logos.Partitions)
include hlogos

theorem chains_covers {src : List Char} {toks : List PToken} (hlexed : Lexed logos src toks)
    {r base : ℕ} (hmultiline : ∀ n m d k, m ≤ r → base ≤ k →
      FollowsMultiline logos (Held (AtDepth src toks d)) (· = ·) (chainsWithin logos fuel r n m)
        (callsWithin logos fuel k)) (n : ℕ) :
    ∀ m d k, m ≤ r → callsAt base r d + m ≤ k →
      Covers (Held (AtDepth src toks d)) (· = ·) (chainsWithin logos fuel r n m)
        (callsWithin logos fuel k) := by
  induction n with
  | zero =>
      intro m d k _ _
      exact refused_covers (by simp)
  | succ n ih =>
      intro m d k hm hk
      obtain ⟨k, rfl⟩ : ∃ i, k = i + 1 := ⟨k - 1, by rw [callsAt] at hk; omega⟩
      have hbase : base ≤ k := by
        rw [callsAt] at hk
        omega
      have hat := held_simulation hlogos hlexed (atDepth_region src toks d)
      have hbelow := held_simulation hlogos hlexed (atDepth_region src toks (d + 1))
      have hguard := atDepth_guard src toks d
      have hinner : d < maxDepth → Covers (Held (AtDepth src toks (d + 1))) (· = ·)
          (chainsWithin logos fuel r n r) (callsWithin logos fuel k) := by
        intro hd
        refine ih r (d + 1) k le_rfl ?_
        have hsucc := callsAt_succ base r hd
        omega
      have hstring : d < maxDepth → FollowsMultiline logos (Held (AtDepth src toks (d + 1)))
          (· = ·) (chainsWithin logos fuel r n r) (callsWithin logos fuel k) :=
        fun _ => hmultiline n r (d + 1) k le_rfl hbase
      have hty := hguard.ty hbelow hinner hstring
      have hpattern := hguard.pattern hbelow hinner hstring
      have hexprBp := hguard.exprBp hbelow hinner hstring
      cases m with
      | zero => exact ⟨le_rfl, hty, hpattern, Follows.none, hexprBp, Follows.none⟩
      | succ m =>
          have hnext := ih m d k (by omega) (by omega)
          have hstring' := hmultiline n m d k (by omega) hbase
          exact ⟨le_rfl, hty, hpattern, hnext.patternCons_follows hat hstring', hexprBp,
            hnext.primaryExpr_follows hat hstring'⟩

/-- A multiline string is read alike by productions that read every text alike. -/
theorem over_multiline {src : List Char} {toks : List PToken} (hlexed : Lexed logos src toks)
    {φ : Parser → Prop} (hφ : Region src toks φ) {e e' : Entries}
    (he : ∀ text, Covers (Held (Over text (layout text (lex logos text)))) (· = ·) e e') :
    FollowsMultiline logos (Held φ) (· = ·) e e' :=
  held_multiline hlogos hlexed hφ fun _ _ _ _ _ _ => sameBody_of_covers (he _) ⟨rfl, rfl⟩

variable (fuel) in
/-- Where no multiline string occurs, the guarded productions need only their own calls. -/
theorem plain_covers {src : List Char} {toks : List PToken} (hlexed : Lexed logos src toks)
    (hplain : ∀ t ∈ toks, t.kind ≠ .multilineString) {r n m d k : ℕ} (hm : m ≤ r)
    (hk : callsAt 0 r d + m ≤ k) :
    Covers (Held (AtDepth src toks d)) (· = ·) (chainsWithin logos fuel r n m)
      (callsWithin logos fuel k) := by
  refine chains_covers hlogos hlexed (fun n m d k _ _ => ?_) n m d k hm hk
  exact held_multiline hlogos hlexed (atDepth_region src toks d)
    fun t ht hkind => absurd hkind (hplain t ht)

variable (fuel) in
/-- The interpolations of a file are not inside one another. -/
theorem file_multiline (hraw : logos.RawStrings) {src : List Char} {toks : List PToken}
    (hlexed : Lexed logos src toks) {r n m d k : ℕ} (hm : m ≤ r) (hk : callsAt 0 r 0 + r ≤ k) :
    FollowsMultiline logos (Held (AtDepth src toks d)) (· = ·) (chainsWithin logos fuel r n m)
      (callsWithin logos fuel k) := by
  refine held_multiline hlogos hlexed (atDepth_region src toks d) fun t ht hkind i rel hi => ?_
  have hbody := interpolation_plain hlogos hraw (hlexed t ht) hkind hi
  have htext := layout_lexed logos (slice src (t.start + (i + 2)) (t.start + (i + 2 + rel)))
  have hplain := fun u hu => hbody u.lexToken (htext u hu)
  have hcovers := plain_covers fuel hlogos htext hplain (n := n) (d := 0) (k := k) hm
    (by omega)
  exact sameBody_of_covers hcovers ⟨⟨rfl, rfl⟩, rfl⟩

/-- A program of bounded calls is followed by one of chains no longer than the bound. -/
theorem calls_covers (k : ℕ) : ∀ {src : List Char} {toks : List PToken}, Lexed logos src toks →
    ∀ {r n m : ℕ}, k ≤ n → k ≤ m → m ≤ r →
      Covers (Held (Over src toks)) (· = ·) (callsWithin logos fuel k)
        (chainsWithin logos fuel r n m) := by
  induction k with
  | zero =>
      intro src toks _ r n m _ _ _
      exact refused_covers (by simp)
  | succ k ih =>
      intro src toks hlexed r n m hn hm hr
      obtain ⟨n, rfl⟩ : ∃ i, n = i + 1 := ⟨n - 1, by omega⟩
      obtain ⟨m, rfl⟩ : ∃ i, m = i + 1 := ⟨m - 1, by omega⟩
      have hsim := held_simulation hlogos hlexed (over_region src toks)
      have hguard := over_guard src toks
      have hstring : ∀ i, k ≤ i → i ≤ r → FollowsMultiline logos (Held (Over src toks)) (· = ·)
          (callsWithin logos fuel k) (chainsWithin logos fuel r n i) :=
        fun i hi hir => over_multiline hlogos hlexed (over_region src toks)
          fun _ => ih (layout_lexed logos _) (by omega) hi hir
      have hinner := ih hlexed (r := r) (n := n) (m := r) (by omega) (by omega) le_rfl
      have hnext := ih hlexed (r := r) (n := n) (m := m) (by omega) (by omega) (by omega)
      have hstring' := hstring m (by omega) (by omega)
      exact ⟨le_rfl, hguard.ty hsim (fun _ => hinner) (fun _ => hstring r (by omega) le_rfl),
        hguard.pattern hsim (fun _ => hinner) (fun _ => hstring r (by omega) le_rfl),
        hnext.patternCons_follows hsim hstring',
        hguard.exprBp hsim (fun _ => hinner) (fun _ => hstring r (by omega) le_rfl),
        hnext.primaryExpr_follows hsim hstring'⟩

/-! ## The whole file -/

omit hlogos in
theorem callsAt_zero (base r : ℕ) :
    callsAt base r 0 + r = base + (maxDepth + 1) * (r + 1) := by
  rw [callsAt, Nat.succ_mul, Nat.sub_zero]
  omega

theorem sourceFile_follows {src : List Char} {toks : List PToken} (hlexed : Lexed logos src toks)
    {φ : Parser → Prop} (hφ : Region src toks φ) {e e' : Entries}
    (he : Covers (Held φ) (· = ·) e e') (hm : FollowsMultiline logos (Held φ) (· = ·) e e')
    {p : Parser} (hp : φ p) {x : Unit × Parser} (hx : sourceFile e p = some x) :
    sourceFile e' p = some x := by
  have hsim := held_simulation hlogos hlexed hφ
  have hfile := hsim.sourceFile (he.follows hsim hm) (held_beginUnit hφ)
  obtain ⟨_, _, hy, -, rfl, -⟩ := hfile p p ⟨rfl, hp⟩ x.1 x.2 hx
  exact hy

theorem chains_calls (hraw : logos.RawStrings) {src : List Char} {toks : List PToken}
    (hlexed : Lexed logos src toks) {p : Parser} (hp : AtDepth src toks 0 p) {r n : ℕ}
    {x : Unit × Parser} (hx : sourceFile (chainsWithin logos fuel r n r) p = some x) :
    sourceFile (callsWithin logos fuel (2 * ((maxDepth + 1) * (r + 1)))) p = some x := by
  have hinner := callsAt_zero 0 r
  have houter := callsAt_zero (callsAt 0 r 0 + r) r
  have hstring := fun n m d k hm hk => file_multiline fuel hlogos hraw hlexed
    (n := n) (m := m) (d := d) (k := k) (r := r) hm hk
  have hcovers := chains_covers hlogos hlexed hstring n r 0 (2 * ((maxDepth + 1) * (r + 1))) le_rfl
    (by omega)
  exact sourceFile_follows hlogos hlexed (atDepth_region src toks 0) hcovers
    (hstring n r 0 _ le_rfl (by omega)) hp hx

theorem calls_chains {src : List Char} {toks : List PToken} (hlexed : Lexed logos src toks)
    {p : Parser} (hp : Over src toks p) {k : ℕ} {x : Unit × Parser}
    (hx : sourceFile (callsWithin logos fuel k) p = some x) :
    sourceFile (chainsWithin logos fuel k k k) p = some x := by
  refine sourceFile_follows hlogos hlexed (over_region src toks)
    (calls_covers hlogos k hlexed le_rfl le_rfl le_rfl) ?_ hp hx
  exact over_multiline hlogos hlexed (over_region src toks)
    fun _ => calls_covers hlogos k (layout_lexed logos _) le_rfl le_rfl le_rfl

end

/-! ## A chain of unary minuses -/

/-- The cursor is at token `i` of a file of one unit, inside `d` guarded productions. -/
structure At (src : List Char) (toks : List PToken) (d i : ℕ) (s : Parser) : Prop where
  source : Over src toks s
  limit : s.limit = toks.length
  depth : s.depth = d
  pos : s.pos = i

section

variable {src : List Char} {toks : List PToken} {d i : ℕ}

theorem At.tok {s : Parser} (h : At src toks d i s) (k : ℕ) : s.tok (s.pos + k) = toks[i + k]? := by
  rw [Parser.tok, h.limit, h.pos, h.source.2]
  split
  next => rfl
  next hlt => exact (List.getElem?_eq_none (by omega)).symm

theorem At.nth {s : Parser} (h : At src toks d i s) (k : ℕ) {t : PToken}
    (ht : toks[i + k]? = some t) : s.nth k = t.kind := by
  rw [Parser.nth, h.tok, ht]

theorem At.atEnd {s : Parser} (h : At src toks d i s) (hi : i < toks.length) : s.atEnd = false := by
  rw [Parser.atEnd, h.limit, h.source.2, h.pos, min_self]
  exact decide_eq_false (by omega)

theorem start_leads : Leads (At src toks d i) start (At src toks d i) := by
  intro s hs a s' hx
  obtain ⟨-, rfl⟩ := Prod.mk.inj (Option.some.inj hx)
  exact ⟨hs.source, hs.limit, hs.depth, hs.pos⟩

theorem complete_leads (m : Marker) (kind : SyntaxKind) :
    Leads (At src toks d i) (m.complete kind) (At src toks d i) := by
  intro s hs a s' hx
  unfold Marker.complete at hx
  split at hx
  next =>
      obtain ⟨-, rfl⟩ := Prod.mk.inj (Option.some.inj hx)
      exact ⟨hs.source, hs.limit, hs.depth, hs.pos⟩
  next => exact absurd hx (by simp)

theorem beginUnit_leads (hi : i < toks.length) :
    Leads (At src toks d i) beginUnit (At src toks d i) := by
  refine Leads.update fun s hs => ?_
  rw [if_pos (Or.inl (by rw [hs.pos, hs.limit]; exact hi))]
  exact hs

theorem indent_leads (anchor : ℕ) : Leads (At src toks d i)
    (modify fun p : Parser => { p with blockIndent := anchor }) (At src toks d i) :=
  Leads.update fun _ hs => ⟨hs.source, hs.limit, hs.depth, hs.pos⟩

theorem bump_leads (hi : i < toks.length) :
    Leads (At src toks d i) bump (At src toks d (i + 1)) := by
  refine Leads.update fun s hs => ?_
  rw [if_neg (by simp [hs.atEnd hi])]
  exact ⟨hs.source, hs.limit, hs.depth, congrArg (· + 1) hs.pos⟩

theorem isAt_of {s : Parser} (h : At src toks d i s) {t : PToken} (ht : toks[i]? = some t)
    (kind : SyntaxKind) : s.isAt kind = (t.kind == kind) := by
  rw [Parser.isAt, Parser.current, h.nth 0 ht]

theorem atAny_of {s : Parser} (h : At src toks d i s) {t : PToken} (ht : toks[i]? = some t)
    (set : TokenSet) : s.atAny set = set.contains t.kind := by
  rw [Parser.atAny, Parser.current, h.nth 0 ht]

variable {e : Entries} {name eq : PToken}

/-- The value of a binding without parameters is read at token 2. -/
theorem binding_refuses (heq : toks[1]? = some eq) (heq_kind : eq.kind = .eq)
    (hvalue : Leads (At src toks d 2) (e.exprBp 0) fun _ => False) :
    Leads (At src toks d 0) (valueOrAnno e) fun _ => False := by
  have hlength := (List.getElem?_eq_some_iff.1 heq).1
  have hparams : Leads (At src toks d 1) (paramList e .eq) (At src toks d 1) := by
    refine Leads.bind (start_leads.bind fun m => Leads.bind ?_ fun kind => complete_leads m kind)
      fun _ => Leads.pure
    refine Leads.bind (Leads.whileLoop fun s hs => ?_) fun _ => Leads.pure
    rw [isAt_of hs heq, heq_kind]
    simp
  refine (start_leads.bind fun m => Leads.stop ?_).stop
  refine (bump_leads (by omega)).bind fun _ => Leads.branch_false (fun s hs => ?_) ?_
  · rw [isAt_of hs heq, heq_kind]
    rfl
  refine hparams.bind fun _ => Leads.bind (Leads.branch_true (fun s hs => ?_)
    (bump_leads (by omega))) fun _ => Leads.get_bind fun p _ => Leads.stop ?_
  · rw [isAt_of hs heq, heq_kind]
    rfl
  exact Leads.get_bind fun p _ => (indent_leads _).bind fun _ => hvalue.stop.stop

theorem sourceFile_refuses (hname : toks[0]? = some name) (hname_kind : name.kind = .lowerIdent)
    (heq : toks[1]? = some eq) (heq_kind : eq.kind = .eq)
    (hvalue : Leads (At src toks d 2) (e.exprBp 0) fun _ => False) :
    Leads (At src toks d 0) (sourceFile e) fun _ => False := by
  have hlength := (List.getElem?_eq_some_iff.1 hname).1
  have hbinding : Leads (At src toks d 0) (topLevel e) fun _ => False := by
    refine Leads.branch_true (fun s hs => ?_) (Leads.get_bind fun p hp => ?_)
    · rw [atAny_of hs hname, hname_kind]
      rfl
    · have hcurrent : p.current = .lowerIdent := (hp.nth 0 hname).trans hname_kind
      rw [hcurrent]
      exact binding_refuses heq heq_kind hvalue
  have hround : Leads (At src toks d 0)
      (do
        beginUnit
        branch (·.atEnd) (pure (ForInStep.done ())) do
          topLevel e
          pure (ForInStep.yield ())) fun _ => False :=
    (beginUnit_leads hlength).bind fun _ =>
      Leads.branch_false (fun _ hs => hs.atEnd hlength) hbinding.stop
  refine (start_leads.bind fun m => Leads.stop ?_).stop
  refine (beginUnit_leads hlength).bind fun _ => ?_
  refine Leads.bind (Leads.branch_false (fun s hs => ?_) Leads.pure) fun _ => ?_
  · rw [isAt_of hs hname, hname_kind]
    rfl
  refine (beginUnit_leads hlength).bind fun _ => Leads.bind (Leads.whileLoop fun s hs => ?_)
    fun _ => Leads.stop ?_
  · rw [isAt_of hs hname, hname_kind]
    rfl
  refine Leads.get_bind fun p _ => (indent_leads _).bind fun _ => Leads.stop ?_
  exact Leads.loop fun s hs r s' hr => (hround s hs r s' hr).elim

variable {logos : Logos} {fuel : ℕ}

/-- The tokens from `i` on are `n` minuses. -/
def MinusesFrom (src : List Char) (toks : List PToken) (i n : ℕ) : Prop :=
  ∀ k < n, ∃ t, toks[i + k]? = some t ∧ t.kind = .op ∧ slice src t.start t.stop = ['-']

/-- A unary minus leads on to its operand. -/
theorem minus_refuses {n : ℕ} (h : MinusesFrom src toks i (n + 1))
    (hoperand : Leads (At src toks d (i + 1)) e.primaryExpr fun _ => False) :
    Leads (At src toks d i) (primaryExpr logos e) fun _ => False := by
  obtain ⟨t, ht, hkind, htext⟩ := h 0 (Nat.succ_pos n)
  have hlength := (List.getElem?_eq_some_iff.1 ht).1
  refine Leads.stop (Leads.get_bind fun p hp => ?_)
  have hcurrent : p.current = .op := (hp.nth 0 ht).trans hkind
  have hcur : p.curText = ['-'] := by
    have htok : p.tok p.pos = some t := (hp.tok 0).trans ht
    rw [Parser.curText, htok, hp.source.1]
    exact htext
  rw [hcurrent, hcur]
  exact (start_leads.bind fun m => Leads.stop
    ((bump_leads (by omega)).bind fun _ => hoperand.stop.stop))

/-- A unary minus inside `n` others is refused by the productions of `n` calls. -/
theorem minuses_refuse (n : ℕ) {i : ℕ} (h : MinusesFrom src toks i (n + 1)) :
    Leads (At src toks d i) (primaryExpr logos (callsWithin logos fuel n)) fun _ => False := by
  induction n generalizing i with
  | zero => exact minus_refuses h fun _ _ _ _ hnone => absurd hnone (by simp [callsWithin, refused])
  | succ n ih =>
      refine minus_refuses h (ih fun k hk => ?_)
      have hnext := h (k + 1) (by omega)
      rwa [← Nat.add_assoc, Nat.add_right_comm] at hnext

/-- A value of `n + 1` minuses is refused by the productions of `n + 1` calls. -/
theorem value_refuses {n : ℕ} (h : MinusesFrom src toks i (n + 1)) :
    Leads (At src toks 0 i) ((callsWithin logos fuel (n + 1)).exprBp 0) fun _ => False := by
  have hbody : Leads (At src toks 1 i) (appExpr logos (callsWithin logos fuel n)) fun _ => False :=
    (minuses_refuse n h).stop
  intro s hs a s' hx
  obtain ⟨_, _, hguarded, -⟩ := bind_eq_some hx
  obtain ⟨deep, t, henter, hrun⟩ := bind_eq_some hguarded
  obtain ⟨rfl, rfl⟩ := Prod.mk.inj (Option.some.inj henter)
  have hshallow : decide (maxDepth < s.depth + 1) = false := by
    rw [hs.depth]
    rfl
  rw [hshallow] at hrun
  exact hbody.stop { s with depth := s.depth + 1 }
    ⟨hs.source, hs.limit, congrArg (· + 1) hs.depth, hs.pos⟩ _ _ hrun

end

/-! ## A file of minuses -/

/-- A scanner for sources whose tokens are single characters, among them `-`. -/
def minusLogos : Logos where
  lexer src := src.zipIdx.map fun (c, i) =>
    (if c = '-' then some Lx.op else charLogos.charClass c, i, i + 1)
  isUppercase := Char.isUpper

theorem minusLogos_partitions : minusLogos.Partitions := by
  intro src
  rw [lex, minusLogos, List.map_map, ← Nat.zero_add src.length]
  exact spans_of_consecutive (fun _ _ => ⟨rfl, rfl⟩) src 0

/-- `n` times a minus and a space, before a number. -/
def minuses : ℕ → List Char
  | 0 => ['1']
  | n + 1 => '-' :: ' ' :: minuses n

def minusSource (n : ℕ) : List Char := 'x' :: '=' :: minuses n

/-- How the character at `i` is read. -/
def readChar (src : List Char) (c : Char × ℕ) : LexToken where
  kind :=
    match if c.1 = '-' then some Lx.op else charLogos.charClass c.1 with
    | some lx => mapKind Char.isUpper lx (slice src c.2 (c.2 + 1))
    | none => .error
  start := c.2
  stop := c.2 + 1

theorem lex_minusLogos (src : List Char) :
    lex minusLogos src = src.zipIdx.map (readChar src) := by
  rw [lex, minusLogos, List.map_map]
  rfl

theorem slice_char (pre : List Char) (c : Char) (post : List Char) :
    slice (pre ++ c :: post) pre.length (pre.length + 1) = [c] := by
  simp [slice, List.take_append]

theorem readChar_minus (pre post : List Char) :
    readChar (pre ++ '-' :: post) ('-', pre.length) =
      { kind := .op, start := pre.length, stop := pre.length + 1 } := by
  simp only [readChar, if_true, slice_char]
  rfl

/-- The significant tokens of the minuses behind `pre`. -/
theorem minuses_significant (pre : List Char) (n : ℕ) : ∀ k < n, ∃ t,
    (significant (((minuses n).zipIdx pre.length).map (readChar (pre ++ minuses n))))[k]? = some t ∧
      t.kind = .op ∧ slice (pre ++ minuses n) t.start t.stop = ['-'] := by
  induction n generalizing pre with
  | zero => exact fun k hk => absurd hk (Nat.not_lt_zero k)
  | succ n ih =>
      have hsrc : pre ++ minuses (n + 1) = (pre ++ ['-', ' ']) ++ minuses n := by
        simp [minuses]
      have htokens : significant (((minuses (n + 1)).zipIdx pre.length).map
          (readChar (pre ++ minuses (n + 1)))) =
          { kind := .op, start := pre.length, stop := pre.length + 1 } ::
            significant (((minuses n).zipIdx (pre ++ ['-', ' ']).length).map
              (readChar ((pre ++ ['-', ' ']) ++ minuses n))) := by
        rw [minuses, List.zipIdx_cons, List.zipIdx_cons, List.map_cons, List.map_cons,
          readChar_minus, ← minuses, hsrc, List.length_append]
        rfl
      intro k hk
      rw [htokens]
      cases k with
      | zero => exact ⟨_, rfl, rfl, slice_char pre '-' (' ' :: minuses n)⟩
      | succ k =>
          rw [List.getElem?_cons_succ, hsrc]
          exact ih (pre ++ ['-', ' ']) k (by omega)

theorem minusSource_significant (n : ℕ) : ∃ ts,
    significant (lex minusLogos (minusSource n)) =
      { kind := .lowerIdent, start := 0, stop := 1 } :: { kind := .eq, start := 1, stop := 2 } :: ts ∧
      ∀ k < n, ∃ t, ts[k]? = some t ∧ t.kind = .op ∧
        slice (minusSource n) t.start t.stop = ['-'] := by
  rw [lex_minusLogos]
  exact ⟨_, rfl, minuses_significant ['x', '='] n⟩

theorem minusSource_tokens (n : ℕ) : ∃ name eq ts,
    layout (minusSource n) (lex minusLogos (minusSource n)) = name :: eq :: ts ∧
      name.kind = .lowerIdent ∧ eq.kind = .eq ∧
      MinusesFrom (minusSource n) (name :: eq :: ts) 2 n := by
  obtain ⟨raw, hraw, hminuses⟩ := minusSource_significant n
  have hlayout := layout_lexToken (minusSource n) (lex minusLogos (minusSource n))
  rw [hraw] at hlayout
  obtain ⟨name, _, htoks, hname, hrest⟩ := List.map_eq_cons_iff.1 hlayout
  obtain ⟨eq, ts, rfl, heq, rfl⟩ := List.map_eq_cons_iff.1 hrest
  refine ⟨name, eq, ts, htoks, congrArg LexToken.kind hname, congrArg LexToken.kind heq, ?_⟩
  intro k hk
  obtain ⟨t, ht, hkind, htext⟩ := hminuses k hk
  rw [List.getElem?_map] at ht
  obtain ⟨u, hu, rfl⟩ := Option.map_eq_some_iff.1 ht
  refine ⟨u, ?_, hkind, htext⟩
  rw [Nat.add_comm, List.getElem?_cons_succ, List.getElem?_cons_succ]
  exact hu

theorem classifyOp_ne (text : List Char) : classifyOp text ≠ .multilineString := by
  unfold classifyOp
  split <;> simp

theorem lowerKeyword_ne (text : String) : lowerKeyword text ≠ some .multilineString := by
  unfold lowerKeyword
  split <;> simp

theorem classifyIdent_ne (isUppercase : Char → Bool) (text : List Char) :
    classifyIdent isUppercase text ≠ .multilineString := by
  unfold classifyIdent
  split
  next kw hkw =>
      rintro rfl
      exact lowerKeyword_ne _ hkw
  next =>
      split
      next =>
          split
          · split <;> simp
          · simp
      next => simp

theorem readChar_kind (src : List Char) (c : Char × ℕ) :
    (readChar src c).kind ≠ .multilineString := by
  unfold readChar
  dsimp only
  split
  next lx hlx =>
      have hclass : lx ≠ .multiline := by
        rintro rfl
        split at hlx
        · simp at hlx
        · unfold charLogos.charClass at hlx
          split at hlx
          case h_11 => split_ifs at hlx <;> simp at hlx
          all_goals simp at hlx
      cases lx with
      | multiline => exact absurd rfl hclass
      | op => exact classifyOp_ne _
      | ident => exact classifyIdent_ne _ _
      | _ => simp [mapKind]
  next => simp

theorem minusLogos_rawStrings : minusLogos.RawStrings := by
  intro src t ht hkind
  rw [lex_minusLogos] at ht
  obtain ⟨c, -, rfl⟩ := List.mem_map.1 ht
  exact absurd hkind (readChar_kind src c)

def minusFile (src : List Char) : Parser := Parser.new src (layout src (lex minusLogos src))

end Sky.Syntax
