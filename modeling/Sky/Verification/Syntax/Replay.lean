import Sky.Verification.Syntax.Markup

/-! # The tree holds the source

Two facts about `buildTree`, each by one pass over the replay. Whatever the nesting, the
text in the builder is a prefix of the source that grows with the leaves. Whatever the
text, a chain leaves the open nodes as they were and adds a single node. -/

namespace Sky.Syntax

/-! ## Spans -/

/-- Raw tokens that partition `[a, b)`. -/
inductive Spans : ℕ → ℕ → List LexToken → Prop where
  | nil {a} : Spans a a []
  | cons {t b raw} (hlt : t.start < t.stop) (h : Spans t.stop b raw) : Spans t.start b (t :: raw)

/-- The generated scanner's spans partition every source. -/
def Logos.Partitions (logos : Logos) : Prop :=
  ∀ src, Spans 0 src.length (lex logos src)

theorem Spans.le {a b : ℕ} {raw : List LexToken} (h : Spans a b raw) : a ≤ b := by
  induction h with
  | nil => exact le_rfl
  | cons hlt _ ih => omega

theorem Spans.mem {a b : ℕ} {raw : List LexToken} (h : Spans a b raw) :
    ∀ t ∈ raw, a ≤ t.start ∧ t.start < t.stop ∧ t.stop ≤ b := by
  induction h with
  | nil => simp
  | cons hlt h ih =>
      intro t ht
      rcases List.mem_cons.mp ht with rfl | ht
      · exact ⟨le_rfl, hlt, h.le⟩
      · have := ih t ht
        omega

def PToken.lexToken (t : PToken) : LexToken :=
  { kind := t.kind, start := t.start, stop := t.stop }

def significant (raw : List LexToken) : List LexToken := raw.filter fun t => !t.kind.isTrivia

theorem layoutFrom_lexToken (src : List Char) (st : LayoutState) (raw : List LexToken) :
    (layoutFrom src st raw).map PToken.lexToken = significant raw := by
  induction raw generalizing st with
  | nil => rfl
  | cons t raw ih =>
      simp only [layoutFrom, significant]
      cases ht : t.kind.isTrivia with
      | true => simpa [ht, significant] using ih _
      | false => simpa [ht, PToken.lexToken, significant] using ih _

/-- The layout pass keeps exactly the significant tokens. -/
theorem layout_lexToken (src : List Char) (raw : List LexToken) :
    (layout src raw).map PToken.lexToken = significant raw := layoutFrom_lexToken src _ raw

/-! ## Text -/

theorem texts_append (gs hs : List Green) :
    Green.texts (gs ++ hs) = Green.texts gs ++ Green.texts hs := by
  induction gs with
  | nil => rfl
  | cons g gs ih => simp [Green.texts, ih]

@[simp] theorem texts_token (b : GreenNodeBuilder) (kind : SyntaxKind) (text : List Char) :
    Green.texts (b.token kind text).children = Green.texts b.children ++ text := by
  simp [GreenNodeBuilder.token, texts_append, Green.texts, Green.text]

theorem texts_finishNode {b b' : GreenNodeBuilder} (h : b.finishNode = some b') :
    Green.texts b'.children = Green.texts b.children := by
  unfold GreenNodeBuilder.finishNode at h
  split at h
  · cases h
  · rename_i kind first parents hp
    obtain rfl := Option.some.inj h
    simp only [texts_append, Green.texts, Green.text, List.append_nil]
    rw [← texts_append, List.take_append_drop]

theorem startNodes_children (b : GreenNodeBuilder) (kinds : List SyntaxKind) :
    (startNodes b kinds).children = b.children := by
  unfold startNodes
  induction kinds.reverse generalizing b with
  | nil => rfl
  | cons k ks ih =>
      rw [List.foldl_cons, ih]
      split <;> rfl

theorem take_append_slice {src : List Char} {a b : ℕ} (hab : a ≤ b) :
    src.take a ++ slice src a b = src.take b := by
  have h := List.take_append_drop a (src.take b)
  rwa [List.take_take, min_eq_left hab] at h

theorem slice_length {src : List Char} {a b : ℕ} (hb : b ≤ src.length) :
    (slice src a b).length = b - a := by
  simp [slice, min_eq_left hb]

/-! ## The replay emits a prefix -/

/-- The sink has emitted `src[..c]`; the raw tokens left start at `d`, where the slices
`ss` still due reach, and the leaves `ls` consume the significant ones among them. -/
structure Covered (src : List Char) (sink : Sink) (c d : ℕ) (ss ls : List Event) : Prop where
  text : Green.texts sink.builder.children = src.take c
  slices : Slices c d ss
  spans : Spans d src.length sink.raw
  emits : ∃ toks, Emits toks ls ∧ toks.map PToken.lexToken = significant sink.raw

/-- Trivia is emitted in place. -/
theorem eatTrivia_covered {src : List Char} {ls : List Event} :
    ∀ {raw : List LexToken} {b : GreenNodeBuilder} {d : ℕ},
      Covered src ⟨b, raw⟩ d d [] ls → ∃ d', Covered src (eatTrivia src b raw) d' d' [] ls := by
  intro raw
  induction raw with
  | nil => intro b d h; exact ⟨d, h⟩
  | cons t raw ih =>
      intro b d h
      cases ht : t.kind.isTrivia with
      | false =>
          have he : eatTrivia src b (t :: raw) = ⟨b, t :: raw⟩ := by simp [eatTrivia, ht]
          rw [he]
          exact ⟨d, h⟩
      | true =>
          have he : eatTrivia src b (t :: raw) =
              eatTrivia src (b.token t.kind (slice src t.start t.stop)) raw := by
            simp [eatTrivia, ht]
          rw [he]
          obtain ⟨toks, hemits, htoks⟩ := h.emits
          cases h.spans with
          | cons hlt hspans =>
              refine ih ⟨?_, .nil, hspans, toks, hemits, ?_⟩
              · rw [texts_token, h.text]
                exact take_append_slice hlt.le
              · simpa [significant, ht] using htoks

theorem eatTrivia_head (src : List Char) (b : GreenNodeBuilder) (raw : List LexToken) :
    (eatTrivia src b raw).raw = [] ∨
      ∃ t raw', (eatTrivia src b raw).raw = t :: raw' ∧ t.kind.isTrivia = false := by
  induction raw generalizing b with
  | nil => exact .inl rfl
  | cons t raw ih =>
      cases ht : t.kind.isTrivia with
      | false => exact .inr ⟨t, raw, by simp [eatTrivia, ht], ht⟩
      | true => simpa [eatTrivia, ht] using ih _

theorem significant_cons {t : LexToken} (ht : t.kind.isTrivia = false) (raw : List LexToken) :
    significant (t :: raw) = t :: significant raw := by simp [significant, ht]

/-- With no leaf due, the trivia is all that is left. -/
theorem eatTrivia_raw_nil {src : List Char} {b : GreenNodeBuilder} {raw : List LexToken} {d : ℕ}
    (h : Covered src ⟨b, raw⟩ d d [] []) : (eatTrivia src b raw).raw = [] := by
  obtain ⟨d', h'⟩ := eatTrivia_covered h
  obtain ⟨toks, hemits, htoks⟩ := h'.emits
  rcases eatTrivia_head src b raw with hraw | ⟨t, raw', hraw, ht⟩
  · exact hraw
  · cases hemits
    rw [hraw, significant_cons ht] at htoks
    cases htoks

/-- A due token is the next significant raw token. -/
theorem eatTrivia_token {src : List Char} {b : GreenNodeBuilder} {raw : List LexToken} {d : ℕ}
    {t : PToken} {ts : List PToken} (hspans : Spans d src.length (eatTrivia src b raw).raw)
    (htoks : (t :: ts).map PToken.lexToken = significant (eatTrivia src b raw).raw) :
    d = t.start ∧ ∃ raw', (eatTrivia src b raw).raw = t.lexToken :: raw' ∧
      Spans t.stop src.length raw' ∧ t.start < t.stop ∧
      ts.map PToken.lexToken = significant raw' := by
  rcases eatTrivia_head src b raw with hraw | ⟨u, raw', hraw, hu⟩
  · rw [hraw] at htoks
    cases htoks
  · rw [hraw] at htoks hspans
    rw [significant_cons hu, List.map_cons] at htoks
    obtain ⟨rfl, hts⟩ := List.cons.inj htoks
    cases hspans with
    | cons hlt hspans => exact ⟨rfl, raw', hraw, hspans, hlt, hts⟩

/-- What replacing forward-linked starts by tombstones keeps. -/
theorem forwardKinds_keeps {fuel : ℕ} :
    ∀ {rest rest' : List Event} {pos : ℕ} {fp : Option ℕ} {kinds : List SyntaxKind},
      forwardKinds fuel rest pos fp = some (kinds, rest') →
      rest'.length = rest.length ∧ leaves rest' = leaves rest ∧
        (rest.getLast? = some .finish → rest'.getLast? = some .finish) := by
  induction fuel with
  | zero =>
      intro rest rest' pos fp kinds h
      cases fp with
      | none =>
          obtain ⟨-, rfl⟩ := Prod.mk.inj (Option.some.inj h)
          exact ⟨rfl, rfl, id⟩
      | some fwd => cases h
  | succ fuel ih =>
      intro rest rest' pos fp kinds h
      cases fp with
      | none =>
          obtain ⟨-, rfl⟩ := Prod.mk.inj (Option.some.inj h)
          exact ⟨rfl, rfl, id⟩
      | some fwd =>
          unfold forwardKinds at h
          split at h
          · obtain ⟨-, rfl⟩ := Prod.mk.inj (Option.some.inj h)
            exact ⟨rfl, rfl, id⟩
          · rename_i idx hidx
            split at h
            · rename_i kind fp' hget
              obtain ⟨⟨kinds', rest''⟩, hrec, hres⟩ := Option.map_eq_some_iff.mp h
              obtain ⟨-, rfl⟩ := Prod.mk.inj hres
              obtain ⟨hlen, hleaves, hlast⟩ := ih hrec
              refine ⟨by simpa using hlen, ?_, ?_⟩
              · rw [hleaves]
                exact leaves_set hget
              · intro hfin
                refine hlast ?_
                rw [List.getLast?_eq_getElem?] at hfin ⊢
                rw [List.length_set, List.getElem?_set_ne ?_]
                · exact hfin
                · rintro rfl
                  rw [hget] at hfin
                  cases hfin
            · cases h

/-! ## One event -/

theorem replay_tombstone (src : List Char) (n : ℕ) (rest : List Event) (sink : Sink) :
    replay src (n + 1) (.start .tombstone none :: rest) sink = replay src n rest sink := rfl

theorem replay_start (src : List Char) (n : ℕ) {kind : SyntaxKind} {fp : Option ℕ}
    (rest : List Event) (sink : Sink) (h : kind ≠ .tombstone ∨ fp ≠ none) :
    replay src (n + 1) (.start kind fp :: rest) sink =
      (forwardKinds (rest.length + 1) rest 0 fp).bind fun r =>
        replay src n r.2 { sink with builder := startNodes sink.builder (kind :: r.1) } := by
  rw [replay.eq_4 src sink n kind fp rest (by rintro rfl rfl; simp at h)]
  rfl

theorem replay_finish (src : List Char) (n : ℕ) (rest : List Event) (sink : Sink) :
    replay src (n + 1) (.finish :: rest) sink =
      let flushed := if rest.isEmpty then eatTrivia src sink.builder sink.raw else sink
      flushed.builder.finishNode.bind fun b =>
        replay src n rest { flushed with builder := b } := rfl

theorem replay_rawSlice (src : List Char) (n : ℕ) (kind : SyntaxKind) (a b : ℕ)
    (rest : List Event) (sink : Sink) :
    replay src (n + 1) (.rawSlice kind a b :: rest) sink =
      replay src n rest { sink with builder := sink.builder.token kind (slice src a b) } := rfl

theorem replay_skip (src : List Char) (n : ℕ) (rest : List Event) (sink : Sink) :
    replay src (n + 1) (.skip :: rest) sink =
      replay src n rest
        ⟨(eatTrivia src sink.builder sink.raw).builder,
          (eatTrivia src sink.builder sink.raw).raw.tail⟩ := rfl

theorem replay_token_cons (src : List Char) (n : ℕ) (kind : SyntaxKind) (rest : List Event)
    (sink : Sink) {t : LexToken} {raw : List LexToken}
    (h : (eatTrivia src sink.builder sink.raw).raw = t :: raw) :
    replay src (n + 1) (.token kind :: rest) sink =
      replay src n rest
        ⟨(eatTrivia src sink.builder sink.raw).builder.token kind (slice src t.start t.stop),
          raw⟩ := by
  rw [replay]
  simp only [h]

theorem getLast?_finish_of_ne {e : Event} {rest : List Event} (he : e ≠ .finish)
    (h : (e :: rest).getLast? = some .finish) : rest.getLast? = some .finish := by
  cases rest with
  | nil => simp [he] at h
  | cons f rest => simpa using h

/-- Replaying all the leaves due emits the source up to its trailing trivia, and that too
when the last event closes a node. -/
theorem replay_covered {src : List Char} {n : ℕ} :
    ∀ {es : List Event} {sink sink' : Sink} {c d : ℕ} {ss ls : List Event},
      es.length = n → replay src n es sink = some sink' → Covered src sink c d ss ls →
      leaves es = ss ++ ls →
      ∃ d', Covered src sink' d' d' [] [] ∧ (es.getLast? = some .finish → sink'.raw = []) := by
  induction n with
  | zero =>
      intro es sink sink' c d ss ls hlen hrun hcov hleaves
      obtain rfl := List.length_eq_zero_iff.mp hlen
      obtain rfl := Option.some.inj hrun
      obtain ⟨rfl, rfl⟩ := List.append_eq_nil_iff.mp hleaves.symm
      cases hcov.slices
      exact ⟨c, hcov, by simp⟩
  | succ n ih =>
      intro es sink sink' c d ss ls hlen hrun hcov hleaves
      cases es with
      | nil => cases hlen
      | cons e rest =>
          have hrest : rest.length = n := by simpa using hlen
          cases e with
          | start kind fp =>
              by_cases hk : kind ≠ .tombstone ∨ fp ≠ none
              · rw [replay_start src n rest sink hk] at hrun
                obtain ⟨⟨kinds, rest'⟩, hfwd, hrun⟩ := Option.bind_eq_some_iff.mp hrun
                obtain ⟨hlen', hleaves', hlast⟩ := forwardKinds_keeps hfwd
                obtain ⟨d', hd', hraw⟩ := ih (hlen'.trans hrest) hrun
                  ⟨by rw [startNodes_children]; exact hcov.text, hcov.slices, hcov.spans,
                    hcov.emits⟩ (hleaves'.trans hleaves)
                exact ⟨d', hd', fun h => hraw (hlast (getLast?_finish_of_ne (by simp) h))⟩
              · obtain ⟨rfl, rfl⟩ : kind = .tombstone ∧ fp = none := by simpa using hk
                rw [replay_tombstone] at hrun
                obtain ⟨d', hd', hraw⟩ := ih hrest hrun hcov hleaves
                exact ⟨d', hd', fun h => hraw (getLast?_finish_of_ne (by simp) h)⟩
          | finish =>
              rw [replay_finish] at hrun
              obtain ⟨b, hb, hrun⟩ := Option.bind_eq_some_iff.mp hrun
              cases rest with
              | nil =>
                  obtain ⟨rfl, rfl⟩ := List.append_eq_nil_iff.mp hleaves.symm
                  cases hcov.slices
                  obtain ⟨d', hflush⟩ := eatTrivia_covered hcov
                  have hnil := eatTrivia_raw_nil hcov
                  obtain rfl : n = 0 := by simpa using hrest.symm
                  obtain rfl := Option.some.inj hrun
                  exact ⟨d', ⟨(texts_finishNode hb).trans hflush.text, hflush.slices,
                    hflush.spans, hflush.emits⟩, fun _ => hnil⟩
              | cons f rest =>
                  obtain ⟨d', hd', hraw⟩ := ih hrest hrun
                    ⟨(texts_finishNode hb).trans hcov.text, hcov.slices, hcov.spans, hcov.emits⟩
                    hleaves
                  exact ⟨d', hd', fun h => hraw (by simpa using h)⟩
          | rawSlice kind a b =>
              rw [replay_rawSlice] at hrun
              rw [leaves_rawSlice] at hleaves
              cases hcov.slices with
              | nil =>
                  obtain ⟨toks, hemits, -⟩ := hcov.emits
                  cases hemits <;> cases hleaves
              | cons hab hss =>
                  have hl := (List.cons.inj hleaves).2
                  cases (List.cons.inj hleaves).1
                  obtain ⟨d', hd', hraw⟩ := ih hrest hrun
                    ⟨by rw [texts_token, hcov.text, take_append_slice hab], hss, hcov.spans,
                      hcov.emits⟩ hl
                  exact ⟨d', hd', fun h => hraw (getLast?_finish_of_ne (by simp) h)⟩
          | token kind =>
              rw [leaves_token] at hleaves
              cases hcov.slices with
              | cons hab hss => cases hleaves
              | nil =>
                  obtain ⟨d', hflush⟩ := eatTrivia_covered hcov
                  obtain ⟨toks, hemits, htoks⟩ := hflush.emits
                  cases hemits with
                  | nil => cases hleaves
                  | skip _ _ => cases hleaves
                  | @token t ts ls' hemits =>
                      obtain ⟨rfl, raw', hraw', hspans, hlt, hts⟩ :=
                        eatTrivia_token hflush.spans htoks
                      rw [replay_token_cons src n kind rest sink hraw'] at hrun
                      have hl := (List.cons.inj hleaves).2
                      obtain ⟨d', hd', hraw⟩ := ih hrest hrun
                        ⟨by rw [texts_token, hflush.text]; exact take_append_slice hlt.le, .nil,
                          hspans, ts, hemits, hts⟩ hl
                      exact ⟨d', hd', fun h => hraw (getLast?_finish_of_ne (by simp) h)⟩
          | skip =>
              rw [leaves_skip] at hleaves
              rw [replay_skip] at hrun
              cases hcov.slices with
              | cons hab hss => cases hleaves
              | nil =>
                  obtain ⟨d', hflush⟩ := eatTrivia_covered hcov
                  obtain ⟨toks, hemits, htoks⟩ := hflush.emits
                  cases hemits with
                  | nil => cases hleaves
                  | token _ => cases hleaves
                  | @skip t ts ss ls' hss hemits =>
                      obtain ⟨rfl, raw', hraw', hspans, -, hts⟩ :=
                        eatTrivia_token hflush.spans htoks
                      rw [hraw'] at hrun
                      have hl := (List.cons.inj hleaves).2
                      obtain ⟨d', hd', hraw⟩ := ih hrest hrun
                        ⟨hflush.text, hss, hspans, ts, hemits, hts⟩ hl
                      exact ⟨d', hd', fun h => hraw (getLast?_finish_of_ne (by simp) h)⟩

/-! ## Nesting -/

/-- No node of the tree is a tombstone. -/
inductive Named : Green → Prop where
  | token {kind text} : Named (.token kind text)
  | node {kind children} (hk : kind ≠ .tombstone) (h : ∀ g ∈ children, Named g) :
      Named (.node kind children)

/-- The sink gained the children `cs`, with the same nodes open. -/
structure Gained (sink sink' : Sink) (cs : List Green) : Prop where
  parents : sink'.builder.parents = sink.builder.parents
  children : sink'.builder.children = sink.builder.children ++ cs
  named : ∀ g ∈ cs, Named g

theorem Gained.refl (sink : Sink) : Gained sink sink [] := ⟨rfl, by simp, by simp⟩

theorem Gained.trans {a b c : Sink} {cs ds : List Green} (hab : Gained a b cs)
    (hbc : Gained b c ds) : Gained a c (cs ++ ds) := by
  refine ⟨hbc.parents.trans hab.parents, ?_, ?_⟩
  · rw [hbc.children, hab.children, List.append_assoc]
  · intro g hg
    rcases List.mem_append.mp hg with hg | hg
    · exact hab.named g hg
    · exact hbc.named g hg

theorem Gained.token (b : GreenNodeBuilder) (raw raw' : List LexToken) (kind : SyntaxKind)
    (text : List Char) : Gained ⟨b, raw⟩ ⟨b.token kind text, raw'⟩ [.token kind text] := by
  refine ⟨rfl, rfl, ?_⟩
  intro g hg
  rw [List.mem_singleton.mp hg]
  exact .token

theorem eatTrivia_gained (src : List Char) (b : GreenNodeBuilder) (raw : List LexToken) :
    ∃ cs, Gained ⟨b, raw⟩ (eatTrivia src b raw) cs := by
  induction raw generalizing b with
  | nil => exact ⟨[], .refl _⟩
  | cons t raw ih =>
      cases ht : t.kind.isTrivia with
      | false =>
          have he : eatTrivia src b (t :: raw) = ⟨b, t :: raw⟩ := by simp [eatTrivia, ht]
          rw [he]
          exact ⟨[], .refl _⟩
      | true =>
          have he : eatTrivia src b (t :: raw) =
              eatTrivia src (b.token t.kind (slice src t.start t.stop)) raw := by
            simp [eatTrivia, ht]
          rw [he]
          obtain ⟨cs, hcs⟩ := ih (b.token t.kind (slice src t.start t.stop))
          exact ⟨_, (Gained.token b (t :: raw) raw _ _).trans hcs⟩

theorem Gained.flush (src : List Char) (c : Bool) (sink : Sink) :
    ∃ cs, Gained sink (if c then eatTrivia src sink.builder sink.raw else sink) cs := by
  cases c with
  | false => exact ⟨[], .refl sink⟩
  | true => exact eatTrivia_gained src sink.builder sink.raw

/-- Replay all the events. -/
def run (src : List Char) (es : List Event) (sink : Sink) : Option Sink :=
  replay src es.length es sink

/-- Replaying the events before any others adds children and leaves the open nodes. -/
def Replays (es : List Event) : Prop :=
  ∀ (src : List Char) (rest : List Event) (sink : Sink),
    ∃ sink' cs, run src (es ++ rest) sink = run src rest sink' ∧ Gained sink sink' cs

/-- The events of a chain after their starts were met by the first one. -/
def closedEvents : List Segment → List Event
  | [] => []
  | (_, es) :: segs => .tombstone :: (es ++ .finish :: closedEvents segs)

theorem forwardKinds_none (fuel : ℕ) (rest : List Event) (pos : ℕ) :
    forwardKinds fuel rest pos none = some ([], rest) := by
  cases fuel <;> rfl

/-- Following the links of a chain meets every node of it, innermost first. -/
theorem forwardKinds_chain {segs : List Segment} (hne : segs ≠ [])
    (hnamed : ∀ seg ∈ segs, seg.1 ≠ .tombstone) :
    ∀ (pre rest : List Event) (pos fwd fuel : ℕ), pos + fwd = pre.length + 1 →
      segs.length ≤ fuel →
      forwardKinds fuel (pre ++ (chainEvents segs ++ rest)) pos (some fwd) =
        some (segs.map (·.1), pre ++ (closedEvents segs ++ rest)) := by
  induction segs with
  | nil => exact absurd rfl hne
  | cons seg segs ih =>
      intro pre rest pos fwd fuel hpos hfuel
      obtain ⟨kind, es⟩ := seg
      have hk : kind ≠ .tombstone := hnamed (kind, es) (by simp)
      cases fuel with
      | zero => simp at hfuel
      | succ fuel =>
          rw [forwardKinds, hpos]
          by_cases hs : segs = []
          · subst hs
            simp [chainEvents, closedEvents, forwardKinds_none, hk]
          · have hsegs : ∀ seg ∈ segs, seg.1 ≠ .tombstone :=
              fun seg hseg => hnamed seg (List.mem_cons_of_mem _ hseg)
            have hrec := ih hs hsegs (pre ++ .tombstone :: (es ++ [.finish])) rest
              (pre.length + 1) (es.length + 2) fuel
              (by simp only [List.length_append, List.length_cons, List.length_nil]; omega)
              (by simpa using hfuel)
            rw [chainEvents_cons kind es hs]
            simp only [List.cons_append, List.append_assoc, List.nil_append] at hrec
            simp [hrec, hk, closedEvents]

theorem startNodes_parents {b : GreenNodeBuilder} {kinds : List SyntaxKind}
    (h : ∀ k ∈ kinds, k ≠ .tombstone) :
    (startNodes b kinds).parents = kinds.map (·, b.children.length) ++ b.parents := by
  unfold startNodes
  have hrev : ∀ (ks : List SyntaxKind) (b : GreenNodeBuilder), (∀ k ∈ ks, k ≠ .tombstone) →
      (ks.foldl (fun b k => if k ≠ .tombstone then b.startNode k else b) b).parents =
        (ks.map (·, b.children.length)).reverse ++ b.parents := by
    intro ks
    induction ks with
    | nil => intro b _; rfl
    | cons k ks ih =>
        intro b hks
        rw [List.foldl_cons, if_pos (hks k (by simp)),
          ih _ fun k' hk' => hks k' (List.mem_cons_of_mem _ hk')]
        simp [GreenNodeBuilder.startNode]
  rw [hrev _ b (fun k hk => h k (List.mem_reverse.mp hk)), ← List.map_reverse,
    List.reverse_reverse]

/-- The sink after a node closed: `ps` are open and the children from `old` on are the
one node. -/
structure Closed (ps : List (SyntaxKind × ℕ)) (old : List Green) (sink : Sink) : Prop where
  parents : sink.builder.parents = ps
  children : ∃ kind gs, sink.builder.children = old ++ [.node kind gs] ∧ Named (.node kind gs)

/-- The events inside an open node and its `finish` close it. -/
theorem run_close (src : List Char) {ps : List (SyntaxKind × ℕ)} {old cs : List Green}
    {kind : SyntaxKind} {es : List Event} {sink : Sink} (rest : List Event)
    (hk : kind ≠ .tombstone) (hes : Replays es)
    (hparents : sink.builder.parents = (kind, old.length) :: ps)
    (hchildren : sink.builder.children = old ++ cs) (hcs : ∀ g ∈ cs, Named g) :
    ∃ sink', run src (es ++ .finish :: rest) sink = run src rest sink' ∧
      Closed ps old sink' := by
  obtain ⟨s₁, cs₁, hrun, hg⟩ := hes src (.finish :: rest) sink
  obtain ⟨cs₂, hflush⟩ := Gained.flush src rest.isEmpty s₁
  have hall := hg.trans hflush
  set s₂ := if rest.isEmpty then eatTrivia src s₁.builder s₁.raw else s₁ with hs₂
  have hp : s₂.builder.parents = (kind, old.length) :: ps := hall.parents.trans hparents
  have hc : s₂.builder.children = old ++ (cs ++ (cs₁ ++ cs₂)) := by
    rw [hall.children, hchildren, List.append_assoc]
  have hfin : s₂.builder.finishNode =
      some ⟨ps, old ++ [.node kind (cs ++ (cs₁ ++ cs₂))]⟩ := by
    simp only [GreenNodeBuilder.finishNode, hp, hc]
    rw [List.take_left, List.drop_left]
  refine ⟨{ s₂ with builder := ⟨ps, old ++ [.node kind (cs ++ (cs₁ ++ cs₂))]⟩ }, ?_, rfl,
    kind, _, rfl, .node hk ?_⟩
  · rw [hrun]
    change replay src (rest.length + 1) (.finish :: rest) s₁ = _
    rw [replay_finish]
    simp only [← hs₂, hfin, Option.bind_some]
    rfl
  · intro g hmem
    rcases List.mem_append.mp hmem with hmem | hmem
    · exact hcs g hmem
    · exact hall.named g hmem

/-- The events of the opened nodes of a chain close them one into the next. -/
theorem run_segments (src : List Char) (rest : List Event) {ps : List (SyntaxKind × ℕ)}
    {old : List Green} {segs : List Segment} :
    ∀ {kind : SyntaxKind} {es : List Event} {cs : List Green} (sink : Sink),
      kind ≠ .tombstone → Replays es → (∀ seg ∈ segs, seg.1 ≠ .tombstone) →
      (∀ seg ∈ segs, Replays seg.2) →
      sink.builder.parents =
        (kind, old.length) :: (segs.map (fun seg => (seg.1, old.length)) ++ ps) →
      sink.builder.children = old ++ cs → (∀ g ∈ cs, Named g) →
      ∃ sink', run src (es ++ .finish :: (closedEvents segs ++ rest)) sink = run src rest sink' ∧
        Closed ps old sink' := by
  induction segs with
  | nil =>
      intro kind es cs sink hk hes _ _ hparents hchildren hcs
      exact run_close src rest hk hes hparents hchildren hcs
  | cons seg segs ih =>
      intro kind es cs sink hk hes hnamed hreplays hparents hchildren hcs
      obtain ⟨k, fs⟩ := seg
      obtain ⟨s₁, hrun, hp, kind₁, gs, hc, hg⟩ :=
        run_close src (closedEvents ((k, fs) :: segs) ++ rest) hk hes hparents
          hchildren hcs
      obtain ⟨s₂, hrun₂, hclosed⟩ := ih s₁ (hnamed (k, fs) (by simp))
        (hreplays (k, fs) (by simp))
        (fun seg hseg => hnamed seg (List.mem_cons_of_mem _ hseg))
        (fun seg hseg => hreplays seg (List.mem_cons_of_mem _ hseg)) hp hc
        (by simpa using hg)
      refine ⟨s₂, ?_, hclosed⟩
      rw [hrun, ← hrun₂]
      simp only [closedEvents, List.cons_append, List.append_assoc]
      rfl

theorem length_le_chainEvents (segs : List Segment) :
    segs.length ≤ (chainEvents segs).length := by
  induction segs with
  | nil => exact le_rfl
  | cons seg segs ih =>
      obtain ⟨kind, es⟩ := seg
      by_cases hs : segs = []
      · subst hs
        simp [chainEvents]
      · rw [chainEvents_cons kind es hs]
        simp only [List.length_cons, List.length_append]
        omega

/-- A chain adds one node. -/
theorem run_chain {segs : List Segment} (hne : segs ≠ [])
    (hnamed : ∀ seg ∈ segs, seg.1 ≠ .tombstone) (hreplays : ∀ seg ∈ segs, Replays seg.2)
    (src : List Char) (rest : List Event) (sink : Sink) :
    ∃ sink', run src (chainEvents segs ++ rest) sink = run src rest sink' ∧
      Closed sink.builder.parents sink.builder.children sink' := by
  cases segs with
  | nil => exact absurd rfl hne
  | cons seg segs =>
      obtain ⟨kind, es⟩ := seg
      have hk : kind ≠ .tombstone := hnamed (kind, es) (by simp)
      have hsegs : ∀ seg ∈ segs, seg.1 ≠ .tombstone :=
        fun seg hseg => hnamed seg (List.mem_cons_of_mem _ hseg)
      have hkinds : ∀ k ∈ kind :: segs.map (·.1), k ≠ .tombstone := by
        intro k hmem
        rcases List.mem_cons.mp hmem with rfl | hmem
        · exact hk
        · obtain ⟨seg, hseg, rfl⟩ := List.mem_map.mp hmem
          exact hsegs seg hseg
      obtain ⟨sink', hrun, hclosed⟩ := run_segments src rest
        { sink with builder := startNodes sink.builder (kind :: segs.map (·.1)) } hk (hreplays (kind, es) (by simp)) hsegs
        (fun seg hseg => hreplays seg (List.mem_cons_of_mem _ hseg))
        (by simp only [startNodes_parents hkinds, List.map_cons, List.map_map]; rfl)
        (by rw [startNodes_children]; exact (List.append_nil _).symm) (by simp)
      refine ⟨sink', ?_, hclosed⟩
      rw [← hrun]
      by_cases hs : segs = []
      · subst hs
        have hev : chainEvents [(kind, es)] ++ rest =
            Event.start kind none :: (es ++ .finish :: rest) := by simp [chainEvents]
        rw [hev, run, List.length_cons, replay_start _ _ _ _ (.inl hk), forwardKinds_none]
        rfl
      · have hev : chainEvents ((kind, es) :: segs) ++ rest =
            .start kind (some (es.length + 2)) :: ((es ++ [.finish]) ++ (chainEvents segs ++ rest)) := by
          simp [chainEvents_cons kind es hs]
        have hlink := forwardKinds_chain hs hsegs (es ++ [.finish]) rest 0 (es.length + 2)
          (((es ++ [Event.finish]) ++ (chainEvents segs ++ rest)).length + 1)
          (by simp)
          (by
            have := length_le_chainEvents segs
            simp only [List.length_append]
            omega)
        have hlen := (forwardKinds_keeps hlink).1
        rw [hev, run, List.length_cons, replay_start _ _ _ _ (.inl hk), hlink, Option.bind_some,
          ← hlen]
        simp only [List.append_assoc, List.cons_append, List.nil_append]
        rfl

theorem run_token (src : List Char) (kind : SyntaxKind) (rest : List Event) (sink : Sink) :
    ∃ sink' cs, run src (.token kind :: rest) sink = run src rest sink' ∧
      Gained sink sink' cs := by
  obtain ⟨cs, hcs⟩ := eatTrivia_gained src sink.builder sink.raw
  cases hraw : (eatTrivia src sink.builder sink.raw).raw with
  | nil =>
      refine ⟨eatTrivia src sink.builder sink.raw, cs, ?_, hcs⟩
      rw [run, List.length_cons, replay]
      simp only [hraw]
      rfl
  | cons t raw =>
      exact ⟨_, _, replay_token_cons src rest.length kind rest sink hraw,
        hcs.trans (Gained.token _ _ raw kind _)⟩

theorem run_skip (src : List Char) (rest : List Event) (sink : Sink) :
    ∃ sink' cs, run src (.skip :: rest) sink = run src rest sink' ∧ Gained sink sink' cs := by
  obtain ⟨cs, hcs⟩ := eatTrivia_gained src sink.builder sink.raw
  exact ⟨_, cs, replay_skip src rest.length rest sink, hcs.parents, hcs.children, hcs.named⟩

theorem Replays.cons {e : Event} {es : List Event} (hes : Replays es)
    (he : ∀ src rest sink, ∃ sink' cs, run src (e :: rest) sink = run src rest sink' ∧
      Gained sink sink' cs) : Replays (e :: es) := by
  intro src rest sink
  obtain ⟨s₁, cs₁, hrun₁, hg₁⟩ := he src (es ++ rest) sink
  obtain ⟨s₂, cs₂, hrun₂, hg₂⟩ := hes src rest s₁
  exact ⟨s₂, cs₁ ++ cs₂, hrun₁.trans hrun₂, hg₁.trans hg₂⟩

theorem Flat.replays {es : List Event} (h : Flat es) : Replays es := by
  induction h with
  | nil => exact fun src rest sink => ⟨sink, [], rfl, .refl sink⟩
  | token _ ih => exact ih.cons fun src rest sink => run_token src _ rest sink
  | skip _ ih => exact ih.cons run_skip
  | @rawSlice kind a b es _ ih =>
      refine ih.cons fun src rest sink => ?_
      exact ⟨_, _, replay_rawSlice src rest.length kind a b rest sink,
        Gained.token sink.builder sink.raw sink.raw kind (slice src a b)⟩
  | @chain segs es hne hnamed _ _ hsegs ih =>
      intro src rest sink
      obtain ⟨s₁, hrun₁, hp, kind, gs, hc, hg⟩ :=
        run_chain hne hnamed hsegs src (es ++ rest) sink
      obtain ⟨s₂, cs₂, hrun₂, hg₂⟩ := ih src rest s₁
      have hg₁ : Gained sink s₁ [.node kind gs] := ⟨hp, hc, by simpa using hg⟩
      refine ⟨s₂, _, ?_, hg₁.trans hg₂⟩
      rw [List.append_assoc, hrun₁, hrun₂]

/-! ## The tree -/

theorem chainEvents_finish {segs : List Segment} (hne : segs ≠ []) :
    ∃ pre, chainEvents segs = pre ++ [.finish] := by
  induction segs with
  | nil => exact absurd rfl hne
  | cons seg segs ih =>
      obtain ⟨kind, es⟩ := seg
      by_cases hs : segs = []
      · subst hs
        exact ⟨.start kind none :: es, rfl⟩
      · obtain ⟨pre, hpre⟩ := ih hs
        refine ⟨.start kind (some (es.length + 2)) :: (es ++ .finish :: pre), ?_⟩
        rw [chainEvents_cons kind es hs, hpre]
        simp

/-- The events of one chain that consumes every significant token build a tree of named
nodes whose leaves spell the source. -/
theorem buildTree_chain {src : List Char} {raw : List LexToken} {segs : List Segment}
    (hraw : Spans 0 src.length raw) (hsegs : Linked segs)
    (hemits : Emits (layout src raw) (leaves (chainEvents segs))) :
    ∃ green, buildTree src raw (chainEvents segs) = some green ∧ green.text = src ∧
      Named green := by
  obtain ⟨sink, hrun, -, kind, gs, hc, hg⟩ := run_chain hsegs.ne_nil hsegs.named
    (fun seg hseg => (hsegs.flat seg hseg).replays) src [] ⟨.new, raw⟩
  rw [List.append_nil] at hrun
  have hreplay : replay src (chainEvents segs).length (chainEvents segs) ⟨.new, raw⟩ =
      some sink := hrun
  have hstart : Covered src ⟨.new, raw⟩ 0 0 [] (leaves (chainEvents segs)) :=
    ⟨rfl, .nil, hraw, _, hemits, layout_lexToken src raw⟩
  obtain ⟨d, hcov, hend⟩ := replay_covered rfl hreplay hstart rfl
  have hnil : sink.raw = [] := by
    obtain ⟨pre, hpre⟩ := chainEvents_finish hsegs.ne_nil
    exact hend (by rw [hpre]; exact List.getLast?_concat)
  have hspans := hcov.spans
  rw [hnil] at hspans
  have hchildren : sink.builder.children = [.node kind gs] := hc
  refine ⟨.node kind gs, ?_, ?_, hg⟩
  · rw [buildTree, hreplay]
    simp [hnil, eatTrivia, GreenNodeBuilder.finish, hchildren]
  · have htext := hcov.text
    rw [hchildren] at htext
    cases hspans
    simpa [Green.texts, Green.text] using htext

end Sky.Syntax
