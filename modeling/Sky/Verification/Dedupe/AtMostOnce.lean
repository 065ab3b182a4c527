import Sky.Model.Dedupe
import Sky.Verification.Dedupe.Books

/-! # At most one run per key

The invariant that links requests to the entries they share, and what it gives a
duplicate over every interleaving. -/

namespace Sky.Spa

open Sky.Library SpaRpcDedupeCache

/-! ## What a cache step keeps of the entries -/

/-- Allocated entries keep their key and claim time, and a finished entry keeps
its answer. -/
structure SpaRpcDedupeCache.Keeps (c c' : SpaRpcDedupeCache) : Prop where
  ttl : c'.ttl = c.ttl
  fresh : c.fresh ≤ c'.fresh
  key : ∀ e < c.fresh, (c'.heap e).key = (c.heap e).key
  at_ : ∀ e < c.fresh, (c'.heap e).at_ = (c.heap e).at_
  finished : ∀ e < c.fresh, (c.heap e).done = true → c'.heap e = c.heap e

namespace SpaRpcDedupeCache

variable {c c' : SpaRpcDedupeCache} {key : String} {e : EntryRef} {now nowEvict : ℤ}

theorem Keeps.refl (c : SpaRpcDedupeCache) : Keeps c c :=
  ⟨rfl, le_rfl, fun _ _ => rfl, fun _ _ => rfl, fun _ _ _ => rfl⟩

theorem keeps_claim (c : SpaRpcDedupeCache) (key : String) (now nowEvict : ℤ) :
    Keeps c (c.claim key now nowEvict).1 := by
  cases hlive : c.live key now with
  | some e =>
      rw [claim_of_live hlive]
      exact .refl c
  | none =>
      rw [claim_of_not_live hlive]
      have hheap : ∀ e < c.fresh, (c.opened key now).heap e = c.heap e :=
        fun e he => opened_heap_of_ne he.ne
      refine ⟨rfl, Nat.le_succ _, ?_, ?_, fun e he _ => hheap e he⟩
      · exact fun e he => congrArg SpaRpcDedupeEntry.key (hheap e he)
      · exact fun e he => congrArg SpaRpcDedupeEntry.at_ (hheap e he)

theorem fill_heap (c : SpaRpcDedupeCache) (e : EntryRef) (answer : Answer) (now : ℤ) :
    (c.fill e answer now).heap = (c.finished e answer).heap := by
  by_cases h : c.m.lookup (c.heap e).key = some e
  · rw [fill_of_current h]
    rfl
  · rw [fill_of_superseded h]

theorem fill_fresh (c : SpaRpcDedupeCache) (e : EntryRef) (answer : Answer) (now : ℤ) :
    (c.fill e answer now).fresh = c.fresh := by
  by_cases h : c.m.lookup (c.heap e).key = some e
  · rw [fill_of_current h]
    rfl
  · rw [fill_of_superseded h]
    rfl

theorem fill_ttl (c : SpaRpcDedupeCache) (e : EntryRef) (answer : Answer) (now : ℤ) :
    (c.fill e answer now).ttl = c.ttl := by
  by_cases h : c.m.lookup (c.heap e).key = some e
  · rw [fill_of_current h]
    rfl
  · rw [fill_of_superseded h]
    rfl

theorem keeps_fill (answer : Answer) (now : ℤ) (hrun : (c.heap e).done = false) :
    Keeps c (c.fill e answer now) := by
  refine ⟨fill_ttl .., (fill_fresh ..).ge, ?_, ?_, ?_⟩
  · intro e' _
    rw [fill_heap, finished_heap_key]
  · intro e' _
    rw [fill_heap, finished_heap_at]
  · intro e' _ hdone
    have hne : e' ≠ e := by
      rintro rfl
      exact Bool.false_ne_true (hrun.symm.trans hdone)
    rw [fill_heap, finished_heap_of_ne hne]

theorem lookup_of_lookup_fill (hc : Tracked c) {answer : Answer} {k : String} {e' : EntryRef}
    (h : (c.fill e answer now).m.lookup k = some e') : c.m.lookup k = some e' := by
  by_cases hcur : c.m.lookup (c.heap e).key = some e
  · rw [fill_of_current hcur] at h
    exact lookup_of_lookup_evict (hc.counted e answer) h
  · rw [fill_of_superseded hcur] at h
    exact h

end SpaRpcDedupeCache

theorem Stage.first_of_holds {stage : Stage} (h : stage.holds = true) : stage.first = true := by
  cases stage <;> simp_all [Stage.holds, Stage.first]

/-! ## Requests keep their identity -/

/-- The same request at a later time: its stage moves on, a first request stays
one, and a handler that has ended does not start again. -/
structure Request.Later (a b : Request) : Prop where
  key : b.key = a.key
  e : b.e = a.e
  at_ : b.at_ = a.at_
  first : b.stage.first = a.stage.first
  holds : b.stage.holds = true → a.stage.holds = true

theorem Request.Later.refl (a : Request) : a.Later a := ⟨rfl, rfl, rfl, rfl, id⟩

theorem Request.Later.trans {a b c : Request} (h : a.Later b) (k : b.Later c) : a.Later c :=
  ⟨k.key.trans h.key, k.e.trans h.e, k.at_.trans h.at_, k.first.trans h.first, h.holds ∘ k.holds⟩

namespace Server

variable {s t : Server}

/-- Every request of `s` is still there in `t`. -/
def Extends (s t : Server) : Prop :=
  ∀ (i : ℕ) a, s.requests[i]? = some a → ∃ b, t.requests[i]? = some b ∧ a.Later b

theorem Extends.refl (s : Server) : s.Extends s := fun _ a h => ⟨a, h, .refl a⟩

theorem Extends.trans {u : Server} (h : s.Extends t) (k : t.Extends u) : s.Extends u := by
  intro i a ha
  obtain ⟨b, hb, hab⟩ := h i a ha
  obtain ⟨c, hc, hbc⟩ := k i b hb
  exact ⟨c, hc, hab.trans hbc⟩

theorem requests_setStage {i j : ℕ} {r : Request} (h : s.requests[i]? = some r) (stage : Stage) :
    (s.setStage i r stage).requests[j]? =
      if j = i then some { r with stage := stage } else s.requests[j]? := by
  have hi : i < s.requests.length := (List.getElem?_eq_some_iff.mp h).1
  simp only [setStage]
  split_ifs with hj
  · subst hj
    exact List.getElem?_set_self hi
  · exact List.getElem?_set_ne (Ne.symm hj)

/-! ## What a step does -/

theorem step_start {i : ℕ} (h : s.step (.start i) = some t) :
    ∃ r, s.requests[i]? = some r ∧ r.stage = .claimed ∧ t = s.setStage i r .running := by
  simp only [step, Option.bind_eq_bind, Option.bind_eq_some_iff] at h
  obtain ⟨r, hr, h⟩ := h
  split_ifs at h with hstage
  cases h
  exact ⟨r, hr, hstage, rfl⟩

theorem step_finish {i : ℕ} {rec : SpaRpcRecorder} {header : Header} {returned : Bool} {now : ℤ}
    (h : s.step (.finish i rec header returned now) = some t) :
    ∃ r, s.requests[i]? = some r ∧ r.stage = .running ∧ s.clock ≤ now ∧
      t = { s.setStage i r (.finished (rec.recorded header returned)) with
        cache := s.cache.fill r.e (rec.recorded header returned) now, clock := now } := by
  simp only [step, Option.bind_eq_bind, Option.bind_eq_some_iff] at h
  obtain ⟨r, hr, h⟩ := h
  split_ifs at h with hstage
  cases h
  exact ⟨r, hr, hstage.1, hstage.2, rfl⟩

theorem step_wake {i : ℕ} (h : s.step (.wake i) = some t) :
    ∃ r, s.requests[i]? = some r ∧ r.stage = .waiting ∧ (s.cache.heap r.e).done = true ∧
      t = s.setStage i r (.replayed (replay (s.cache.heap r.e).answer)) := by
  simp only [step, Option.bind_eq_bind, Option.bind_eq_some_iff] at h
  obtain ⟨r, hr, h⟩ := h
  split_ifs at h with hstage
  cases h
  exact ⟨r, hr, hstage.1, hstage.2, rfl⟩

theorem step_timeout {i : ℕ} {now : ℤ} (h : s.step (.timeout i now) = some t) :
    ∃ r, s.requests[i]? = some r ∧ r.stage = .waiting ∧ s.clock ≤ now ∧
      r.at_ + spaRpcDedupeWait ≤ now ∧
      t = { s.setStage i r (.refused stillRunning) with clock := now } := by
  simp only [step, Option.bind_eq_bind, Option.bind_eq_some_iff] at h
  obtain ⟨r, hr, h⟩ := h
  split_ifs at h with hstage
  cases h
  exact ⟨r, hr, hstage.1, hstage.2.1, hstage.2.2, rfl⟩

/-! ## The invariant -/

/-- How the stage of a request agrees with its entry and with the clock. -/
structure Linked (c : SpaRpcDedupeCache) (clock : ℤ) (r : Request) : Prop where
  past : r.at_ ≤ clock
  allocated : r.e < c.fresh
  keyed : (c.heap r.e).key = r.key
  tagged : r.key ≠ ""
  claimedAt : r.stage.first = true → (c.heap r.e).at_ = r.at_
  running : r.stage.holds = true → (c.heap r.e).done = false
  current : r.stage.holds = true → clock < r.at_ + c.ttl → c.m.lookup r.key = some r.e
  finished : ∀ a, r.stage = .finished a → (c.heap r.e).done = true ∧ (c.heap r.e).answer = a
  replayed : ∀ a, r.stage = .replayed a →
    (c.heap r.e).done = true ∧ a = replay (c.heap r.e).answer
  refused : ∀ a, r.stage = .refused a → a = stillRunning ∧ r.at_ + spaRpcDedupeWait ≤ clock

/-- The invariant of the server: entries have one first request each, and two
handlers of one key run at once only if their claims lie a TTL apart. -/
structure Sound (s : Server) : Prop where
  ordered : Ordered s.cache
  linked : ∀ (i : ℕ) r, s.requests[i]? = some r → Linked s.cache s.clock r
  unique : ∀ (i j : ℕ) a b, s.requests[i]? = some a → s.requests[j]? = some b →
    a.stage.first = true → b.stage.first = true → a.e = b.e → i = j
  apart : ∀ (i j : ℕ) a b, i < j → s.requests[i]? = some a → s.requests[j]? = some b →
    a.key = b.key →
    a.stage.holds = true → b.stage.holds = true → a.at_ + s.cache.ttl ≤ b.at_
  owned : ∀ (j : ℕ) b, s.requests[j]? = some b → b.stage.first = false →
    ∃ (i : ℕ) (a : Request), i < j ∧ s.requests[i]? = some a ∧ a.stage.first = true ∧ a.e = b.e
  bound : ∀ k e, s.cache.m.lookup k = some e →
    ∃ (i : ℕ) (a : Request), s.requests[i]? = some a ∧ a.stage.first = true ∧ a.e = e

theorem Sound.init (capacity maxBytes : ℕ) (ttl clock : ℤ) :
    Sound (.init (newSpaRpcDedupeCache capacity maxBytes ttl) clock) where
  ordered := .init capacity maxBytes ttl
  linked := by simp [Server.init]
  unique := by simp [Server.init]
  apart := by simp [Server.init]
  owned := by simp [Server.init]
  bound := by simp [Server.init, newSpaRpcDedupeCache]

/-- A request that the step does not touch stays linked, if its entry is not
filled and a claim that takes its key comes a TTL after its own. -/
theorem Linked.frame {c c' : SpaRpcDedupeCache} {clock clock' : ℤ} {r : Request}
    (h : Linked c clock r) (hkeep : c.Keeps c') (hclock : clock ≤ clock')
    (hrun : r.stage.holds = true → (c'.heap r.e).done = false)
    (hcur : r.stage.holds = true → clock' < r.at_ + c.ttl → c.m.lookup r.key = some r.e →
      c'.m.lookup r.key = some r.e) : Linked c' clock' r where
  past := h.past.trans hclock
  allocated := h.allocated.trans_le hkeep.fresh
  keyed := (hkeep.key _ h.allocated).trans h.keyed
  tagged := h.tagged
  claimedAt hfirst := (hkeep.at_ _ h.allocated).trans (h.claimedAt hfirst)
  running := hrun
  current hhold hlt := by
    rw [hkeep.ttl] at hlt
    exact hcur hhold hlt (h.current hhold (hclock.trans_lt hlt))
  finished a ha := by
    have := h.finished a ha
    rwa [hkeep.finished _ h.allocated this.1]
  replayed a ha := by
    have := h.replayed a ha
    rwa [hkeep.finished _ h.allocated this.1]
  refused a ha := ⟨(h.refused a ha).1, (h.refused a ha).2.trans hclock⟩

/-! ## Steps that move one request -/

section Move

variable {i : ℕ} {r : Request} {stage : Stage}

theorem extends_setStage (hr : s.requests[i]? = some r) (hfirst : stage.first = r.stage.first)
    (hholds : stage.holds = true → r.stage.holds = true) : s.Extends (s.setStage i r stage) := by
  intro j a ha
  rw [requests_setStage hr]
  split_ifs with hj
  · subst hj
    obtain rfl : a = r := Option.some.inj (ha.symm.trans hr)
    exact ⟨_, rfl, rfl, rfl, rfl, hfirst, hholds⟩
  · exact ⟨a, ha, .refl a⟩

theorem later_of_setStage (hr : s.requests[i]? = some r) (hfirst : stage.first = r.stage.first)
    (hholds : stage.holds = true → r.stage.holds = true) {j : ℕ} {b : Request}
    (hb : (s.setStage i r stage).requests[j]? = some b) :
    ∃ a, s.requests[j]? = some a ∧ a.Later b := by
  rw [requests_setStage hr] at hb
  split_ifs at hb with hj
  · subst hj
    cases hb
    exact ⟨r, hr, rfl, rfl, rfl, hfirst, hholds⟩
  · exact ⟨b, hb, .refl b⟩

/-- A step that moves one request and takes no new binding into the map keeps
the invariant, if every request is still linked. -/
theorem Sound.move (hs : Sound s) (hr : s.requests[i]? = some r)
    (hfirst : stage.first = r.stage.first)
    (hholds : stage.holds = true → r.stage.holds = true) {c' : SpaRpcDedupeCache} {clock' : ℤ}
    (hord : Ordered c') (httl : c'.ttl = s.cache.ttl)
    (hsub : ∀ k e, c'.m.lookup k = some e → s.cache.m.lookup k = some e)
    (hself : Linked c' clock' { r with stage := stage })
    (hrest : ∀ (j : ℕ) a, j ≠ i → s.requests[j]? = some a → Linked c' clock' a) :
    Sound { s.setStage i r stage with cache := c', clock := clock' } where
  ordered := hord
  linked j b hb := by
    replace hb : (s.setStage i r stage).requests[j]? = some b := hb
    rw [requests_setStage hr] at hb
    split_ifs at hb with hj
    · cases hb
      exact hself
    · exact hrest j b hj hb
  unique j k a b ha hb hfa hfb he := by
    obtain ⟨a', ha', la⟩ := later_of_setStage hr hfirst hholds ha
    obtain ⟨b', hb', lb⟩ := later_of_setStage hr hfirst hholds hb
    exact hs.unique j k a' b' ha' hb' (la.first ▸ hfa) (lb.first ▸ hfb) (by rw [← la.e, ← lb.e, he])
  apart j k a b hjk ha hb hkey hha hhb := by
    obtain ⟨a', ha', la⟩ := later_of_setStage hr hfirst hholds ha
    obtain ⟨b', hb', lb⟩ := later_of_setStage hr hfirst hholds hb
    have := hs.apart j k a' b' hjk ha' hb' (by rw [← la.key, ← lb.key, hkey]) (la.holds hha)
      (lb.holds hhb)
    rwa [httl, la.at_, lb.at_]
  owned j b hb hfb := by
    obtain ⟨b', hb', lb⟩ := later_of_setStage hr hfirst hholds hb
    obtain ⟨k, a, hkj, ha, hfa, hae⟩ := hs.owned j b' hb' (lb.first ▸ hfb)
    obtain ⟨a', ha', la⟩ := extends_setStage hr hfirst hholds k a ha
    exact ⟨k, a', hkj, ha', la.first.trans hfa, by rw [la.e, hae, lb.e]⟩
  bound k e he := by
    obtain ⟨j, a, ha, hfa, hae⟩ := hs.bound k e (hsub k e he)
    obtain ⟨a', ha', la⟩ := extends_setStage hr hfirst hholds j a ha
    exact ⟨j, a', ha', la.first.trans hfa, la.e.trans hae⟩

/-- Moving a request without touching the cache. -/
theorem Sound.moveOnly (hs : Sound s) (hr : s.requests[i]? = some r)
    (hfirst : stage.first = r.stage.first) (hholds : stage.holds = true → r.stage.holds = true)
    {clock' : ℤ} (hclock : s.clock ≤ clock')
    (hself : Linked s.cache clock' { r with stage := stage }) :
    Sound { s.setStage i r stage with clock := clock' } :=
  hs.move hr hfirst hholds hs.ordered rfl (fun _ _ h => h) hself fun j a _ ha =>
    (hs.linked j a ha).frame (.refl _) hclock (hs.linked j a ha).running fun _ _ h => h

end Move

theorem Sound.start (hs : Sound s) {i : ℕ} {r : Request} (hr : s.requests[i]? = some r)
    (hstage : r.stage = .claimed) : Sound (s.setStage i r .running) := by
  have hl := hs.linked i r hr
  have hfirst : Stage.running.first = r.stage.first := by rw [hstage]; rfl
  have hholds : r.stage.holds = true := by rw [hstage]; rfl
  refine hs.moveOnly hr hfirst (fun _ => hholds) le_rfl ?_
  exact ⟨hl.past, hl.allocated, hl.keyed, hl.tagged, fun h => hl.claimedAt (hfirst ▸ h),
    fun _ => hl.running hholds, fun _ => hl.current hholds, nofun, nofun, nofun⟩

theorem Sound.finish (hs : Sound s) {i : ℕ} {r : Request} {answer : Answer} {now : ℤ}
    (hr : s.requests[i]? = some r) (hstage : r.stage = .running) (hnow : s.clock ≤ now) :
    Sound { s.setStage i r (.finished answer) with
      cache := s.cache.fill r.e answer now, clock := now } := by
  have hl := hs.linked i r hr
  have hfirst : (Stage.finished answer).first = r.stage.first := by rw [hstage]; rfl
  have hrun : (s.cache.heap r.e).done = false := hl.running (by rw [hstage]; rfl)
  have hspec : StepSpec s.cache (.fill r.e answer now) (s.cache.fill r.e answer now) :=
    fill_spec hs.ordered hrun
  have hkeep := keeps_fill answer now hrun
  have hentry : (s.cache.fill r.e answer now).heap r.e =
      { s.cache.heap r.e with done := true, answer := answer } := by
    rw [fill_heap, finished_heap_self]
  refine hs.move hr hfirst nofun hspec.ordered hkeep.ttl ?_ ?_ ?_
  · intro k e
    exact lookup_of_lookup_fill hs.ordered.toTracked
  · refine ⟨hl.past.trans hnow, ?_, ?_, hl.tagged, ?_, nofun, nofun, ?_, nofun, nofun⟩
    · exact hl.allocated.trans_le hkeep.fresh
    · exact (hkeep.key _ hl.allocated).trans hl.keyed
    · exact fun h => (hkeep.at_ _ hl.allocated).trans (hl.claimedAt (hfirst ▸ h))
    · intro a ha
      cases ha
      simp only [hentry, and_self]
  · intro j a hj ha
    have hla := hs.linked j a ha
    have hrun' : a.stage.holds = true → ((s.cache.fill r.e answer now).heap a.e).done = false := by
      intro hhold
      -- the filled entry has one first request, and that is not this one
      have hne : a.e ≠ r.e := fun he =>
        hj (hs.unique j i a r ha hr (Stage.first_of_holds hhold) (by rw [hstage]; rfl) he)
      rw [fill_heap, finished_heap_of_ne hne]
      exact hla.running hhold
    refine hla.frame hkeep hnow hrun' fun hhold _ hcur => ?_
    rcases hspec.keepsRunning _ _ hcur (hrun' hhold) with h | ⟨_, _, h, -⟩
    · exact h
    · cases h

theorem Sound.wake (hs : Sound s) {i : ℕ} {r : Request} (hr : s.requests[i]? = some r)
    (hstage : r.stage = .waiting) (hdone : (s.cache.heap r.e).done = true) :
    Sound (s.setStage i r (.replayed (replay (s.cache.heap r.e).answer))) := by
  have hl := hs.linked i r hr
  refine hs.moveOnly hr (by rw [hstage]; rfl) (by simp [Stage.holds]) le_rfl ?_
  refine ⟨hl.past, hl.allocated, hl.keyed, hl.tagged, nofun, nofun, nofun, nofun, ?_, nofun⟩
  intro a ha
  cases ha
  exact ⟨hdone, rfl⟩

theorem Sound.timeout (hs : Sound s) {i : ℕ} {r : Request} {now : ℤ}
    (hr : s.requests[i]? = some r) (hstage : r.stage = .waiting) (hnow : s.clock ≤ now)
    (hwait : r.at_ + spaRpcDedupeWait ≤ now) :
    Sound { s.setStage i r (.refused stillRunning) with clock := now } := by
  have hl := hs.linked i r hr
  refine hs.moveOnly hr (by rw [hstage]; rfl) (by simp [Stage.holds]) hnow ?_
  refine ⟨hl.past.trans hnow, hl.allocated, hl.keyed, hl.tagged, nofun, nofun, nofun, nofun, nofun,
    ?_⟩
  intro a ha
  cases ha
  exact ⟨rfl, hwait⟩

/-! ## Arrivals -/

theorem requests_receive (s : Server) (key : String) (now nowEvict : ℤ) :
    (s.receive key now nowEvict).requests = s.requests ++
      [⟨key, (s.cache.claim key now nowEvict).2.1, now,
        if (s.cache.claim key now nowEvict).2.2 then .claimed else .waiting⟩] := rfl

theorem getElem?_receive {key : String} {now nowEvict : ℤ} {i : ℕ} {b : Request}
    (h : (s.receive key now nowEvict).requests[i]? = some b) :
    s.requests[i]? = some b ∨ i = s.requests.length ∧
      b = ⟨key, (s.cache.claim key now nowEvict).2.1, now,
        if (s.cache.claim key now nowEvict).2.2 then .claimed else .waiting⟩ := by
  rw [requests_receive] at h
  rcases Nat.lt_trichotomy i s.requests.length with hi | hi | hi
  · rw [List.getElem?_append_left hi] at h
    exact .inl h
  · subst hi
    rw [List.getElem?_concat_length] at h
    exact .inr ⟨rfl, (Option.some.inj h).symm⟩
  · have := (List.getElem?_eq_some_iff.mp h).1
    simp only [List.length_append, List.length_singleton] at this
    omega

theorem getElem?_receive_of_some {key : String} {now nowEvict : ℤ} {i : ℕ} {a : Request}
    (h : s.requests[i]? = some a) : (s.receive key now nowEvict).requests[i]? = some a := by
  rw [requests_receive, List.getElem?_append_left (List.getElem?_eq_some_iff.mp h).1]
  exact h

theorem lt_length {i : ℕ} {a : Request} (h : s.requests[i]? = some a) : i < s.requests.length :=
  (List.getElem?_eq_some_iff.mp h).1

/-- A request that is still running and younger than the TTL answers the claim
of its key. -/
theorem Sound.live_of_holds (hs : Sound s) {i : ℕ} {a : Request} {now : ℤ}
    (ha : s.requests[i]? = some a) (hhold : a.stage.holds = true) (hnow : s.clock ≤ now)
    (hlt : now < a.at_ + s.cache.ttl) : s.cache.live a.key now = some a.e := by
  have hl := hs.linked i a ha
  have hcur := hl.current hhold (by omega)
  have hat := hl.claimedAt (Stage.first_of_holds hhold)
  rw [live, hcur, Option.filter_some, if_pos]
  rw [hat]
  exact decide_eq_true (by omega)

/-- An arrival that finds a live entry waits for it. -/
theorem Sound.receive_waiting (hs : Sound s) {key : String} {e : EntryRef} {now nowEvict : ℤ}
    (hkey : key ≠ "") (hlive : s.cache.live key now = some e) (hnow : s.clock ≤ now)
    (hle : now ≤ nowEvict) :
    Sound (s.receive key now nowEvict) := by
  have hclaim : s.cache.claim key now nowEvict = (s.cache, e, false) := claim_of_live hlive
  have hcur : s.cache.m.lookup key = some e := (Option.filter_eq_some_iff.mp hlive).1
  have hcache : (s.receive key now nowEvict).cache = s.cache := by rw [receive, hclaim]
  have hnew : ∀ {i : ℕ} {b : Request}, (s.receive key now nowEvict).requests[i]? = some b →
      s.requests[i]? = some b ∨ i = s.requests.length ∧ b = ⟨key, e, now, .waiting⟩ := by
    intro i b hb
    have := getElem?_receive hb
    rwa [hclaim] at this
  refine ⟨hcache ▸ hs.ordered, ?_, ?_, ?_, ?_, ?_⟩
  · intro i b hb
    rw [hcache]
    rcases hnew hb with hb | ⟨-, rfl⟩
    · exact (hs.linked i b hb).frame (.refl _) (hnow.trans hle) (hs.linked i b hb).running
        fun _ _ h => h
    · exact ⟨hle, hs.ordered.allocated _ _ hcur, hs.ordered.keyed _ _ hcur, hkey, nofun, nofun,
        nofun, nofun, nofun, nofun⟩
  · intro i j a b ha hb hfa hfb hab
    rcases hnew ha with ha | ⟨-, rfl⟩
    · rcases hnew hb with hb | ⟨-, rfl⟩
      · exact hs.unique i j a b ha hb hfa hfb hab
      · cases hfb
    · cases hfa
  · intro i j a b hij ha hb hab hha hhb
    rw [hcache]
    rcases hnew ha with ha | ⟨-, rfl⟩
    · rcases hnew hb with hb | ⟨-, rfl⟩
      · exact hs.apart i j a b hij ha hb hab hha hhb
      · cases hhb
    · cases hha
  · intro j b hb hfb
    rcases hnew hb with hb | ⟨rfl, rfl⟩
    · obtain ⟨i, a, hij, ha, hfa, hab⟩ := hs.owned j b hb hfb
      exact ⟨i, a, hij, getElem?_receive_of_some ha, hfa, hab⟩
    · obtain ⟨i, a, ha, hfa, hae⟩ := hs.bound key e hcur
      exact ⟨i, a, lt_length ha, getElem?_receive_of_some ha, hfa, hae⟩
  · intro k e' he'
    rw [hcache] at he'
    obtain ⟨i, a, ha, hfa, hae⟩ := hs.bound k e' he'
    exact ⟨i, a, getElem?_receive_of_some ha, hfa, hae⟩

/-- An arrival that finds no live entry is the first of a new one. -/
theorem Sound.receive_first (hs : Sound s) {key : String} {now nowEvict : ℤ} (hkey : key ≠ "")
    (hlive : s.cache.live key now = none) (hnow : s.clock ≤ now) (hle : now ≤ nowEvict) :
    Sound (s.receive key now nowEvict) := by
  have hclaim : s.cache.claim key now nowEvict =
      ((s.cache.opened key now).evict nowEvict, s.cache.fresh, true) := claim_of_not_live hlive
  have hspec : StepSpec s.cache (.claim key now nowEvict) (s.cache.claim key now nowEvict).1 :=
    claim_spec hs.ordered
  have hkeep := keeps_claim s.cache key now nowEvict
  have hopened := hs.ordered.opened key now
  have hcache : (s.receive key now nowEvict).cache = (s.cache.opened key now).evict nowEvict := by
    rw [receive, hclaim]
  rw [hclaim] at hspec hkeep
  have hnew : ∀ {i : ℕ} {b : Request}, (s.receive key now nowEvict).requests[i]? = some b →
      s.requests[i]? = some b ∨
        i = s.requests.length ∧ b = ⟨key, s.cache.fresh, now, .claimed⟩ := by
    intro i b hb
    have := getElem?_receive hb
    rwa [hclaim] at this
  have hlast : (s.receive key now nowEvict).requests[s.requests.length]? =
      some ⟨key, s.cache.fresh, now, .claimed⟩ := by
    rw [requests_receive, hclaim, List.getElem?_concat_length]
    rfl
  have hentry : ((s.cache.opened key now).evict nowEvict).heap s.cache.fresh = newEntry key now :=
    opened_heap_fresh
  have hold : ∀ {i : ℕ} {a : Request}, s.requests[i]? = some a → a.e ≠ s.cache.fresh :=
    fun ha => ((hs.linked _ _ ha).allocated).ne
  refine ⟨hcache ▸ hspec.ordered, ?_, ?_, ?_, ?_, ?_⟩
  · intro i b hb
    rw [hcache]
    rcases hnew hb with hb' | ⟨-, rfl⟩
    · have hl := hs.linked i b hb'
      have hrun : b.stage.holds = true →
          (((s.cache.opened key now).evict nowEvict).heap b.e).done = false := by
        intro hhold
        rw [evict_heap, opened_heap_of_ne (hold hb')]
        exact hl.running hhold
      refine hl.frame hkeep (hnow.trans hle) hrun fun hhold hlt hcur => ?_
      rcases hspec.keepsRunning _ _ hcur (hrun hhold) with h | ⟨now', nowEvict', h, hnone⟩
      · exact h
      · -- a claim that takes the key over comes a TTL later
        cases h
        change now ≤ nowEvict at hle
        rw [hs.live_of_holds hb' hhold hnow (hle.trans_lt hlt)] at hnone
        cases hnone
    · have hcur : ((s.cache.opened key now).evict nowEvict).m.lookup key = some s.cache.fresh := by
        refine lookup_evict_of_running hopened lookup_opened ?_
        rw [opened_heap_fresh]
        rfl
      refine ⟨hle, Nat.lt_succ_self _, ?_, hkey, ?_, ?_, fun _ _ => hcur, nofun, nofun, nofun⟩
      · rw [hentry]
        rfl
      · exact fun _ => congrArg SpaRpcDedupeEntry.at_ hentry
      · exact fun _ => congrArg SpaRpcDedupeEntry.done hentry
  · intro i j a b ha hb hfa hfb hab
    rcases hnew ha with ha | ⟨rfl, rfl⟩
    · rcases hnew hb with hb | ⟨-, rfl⟩
      · exact hs.unique i j a b ha hb hfa hfb hab
      · exact (hold ha hab).elim
    · rcases hnew hb with hb | ⟨rfl, -⟩
      · exact (hold hb hab.symm).elim
      · rfl
  · intro i j a b hij ha hb hab hha hhb
    rw [hcache]
    rcases hnew ha with ha | ⟨rfl, rfl⟩
    · rcases hnew hb with hb | ⟨-, rfl⟩
      · exact hs.apart i j a b hij ha hb hab hha hhb
      · by_contra hlt
        have hlive' := hs.live_of_holds ha hha hnow (not_le.mp hlt)
        rw [hab, hlive] at hlive'
        cases hlive'
    · have := lt_length hb
      simp only [requests_receive, List.length_append, List.length_singleton] at this
      omega
  · intro j b hb hfb
    rcases hnew hb with hb | ⟨-, rfl⟩
    · obtain ⟨i, a, hij, ha, hfa, hab⟩ := hs.owned j b hb hfb
      exact ⟨i, a, hij, getElem?_receive_of_some ha, hfa, hab⟩
    · cases hfb
  · intro k e he
    rw [hcache] at he
    have he := lookup_of_lookup_evict hopened he
    by_cases hk : k = key
    · subst hk
      obtain rfl : s.cache.fresh = e := Option.some.inj (lookup_opened.symm.trans he)
      exact ⟨_, _, hlast, rfl, rfl⟩
    · rw [lookup_opened_of_ne hk] at he
      obtain ⟨i, a, ha, hfa, hae⟩ := hs.bound k e he
      exact ⟨i, a, getElem?_receive_of_some ha, hfa, hae⟩

theorem Sound.step {ev : ServerEvent} (hs : Sound s) (h : s.step ev = some t) : Sound t := by
  cases ev with
  | arrive r now nowEvict =>
      simp only [Server.step] at h
      split_ifs at h with hclock hkey
      · cases h
        refine ⟨hs.ordered, fun i a ha => ?_, hs.unique, hs.apart, hs.owned, hs.bound⟩
        exact (hs.linked i a ha).frame (.refl _) (hclock.1.trans hclock.2)
          (hs.linked i a ha).running fun _ _ h => h
      · cases h
        cases hlive : s.cache.live (spaRpcDedupeKey r) now with
        | none => exact hs.receive_first hkey hlive hclock.1 hclock.2
        | some e => exact hs.receive_waiting hkey hlive hclock.1 hclock.2
  | start i =>
      obtain ⟨r, hr, hstage, rfl⟩ := step_start h
      exact hs.start hr hstage
  | finish i rec header returned now =>
      obtain ⟨r, hr, hstage, hnow, rfl⟩ := step_finish h
      exact hs.finish hr hstage hnow
  | wake i =>
      obtain ⟨r, hr, hstage, hdone, rfl⟩ := step_wake h
      exact hs.wake hr hstage hdone
  | timeout i now =>
      obtain ⟨r, hr, hstage, hnow, hwait, rfl⟩ := step_timeout h
      exact hs.timeout hr hstage hnow hwait

theorem extends_step {ev : ServerEvent} (h : s.step ev = some t) : s.Extends t := by
  cases ev with
  | arrive r now nowEvict =>
      simp only [Server.step] at h
      split_ifs at h
      · cases h
        exact .refl s
      · cases h
        exact fun i a ha => ⟨a, getElem?_receive_of_some ha, .refl a⟩
  | start i =>
      obtain ⟨r, hr, hstage, rfl⟩ := step_start h
      exact extends_setStage hr (by rw [hstage]; rfl) fun _ => by rw [hstage]; rfl
  | finish i rec header returned now =>
      obtain ⟨r, hr, hstage, -, rfl⟩ := step_finish h
      exact extends_setStage hr (by rw [hstage]; rfl) nofun
  | wake i =>
      obtain ⟨r, hr, hstage, -, rfl⟩ := step_wake h
      exact extends_setStage hr (by rw [hstage]; rfl) nofun
  | timeout i now =>
      obtain ⟨r, hr, hstage, -, -, rfl⟩ := step_timeout h
      exact extends_setStage hr (by rw [hstage]; rfl) nofun

theorem ttl_step {ev : ServerEvent} (h : s.step ev = some t) :
    t.cache.ttl = s.cache.ttl := by
  cases ev with
  | arrive r now nowEvict =>
      simp only [Server.step] at h
      split_ifs at h
      · cases h
        rfl
      · cases h
        exact (keeps_claim s.cache _ now nowEvict).ttl
  | start i =>
      obtain ⟨r, -, -, rfl⟩ := step_start h
      rfl
  | finish i rec header returned now =>
      obtain ⟨r, hr, hstage, -, rfl⟩ := step_finish h
      exact fill_ttl ..
  | wake i =>
      obtain ⟨r, -, -, -, rfl⟩ := step_wake h
      rfl
  | timeout i now =>
      obtain ⟨r, -, -, -, -, rfl⟩ := step_timeout h
      rfl

/-! ## Whole runs -/

theorem Sound.run {es : List ServerEvent} (hs : Sound s)
    (h : Run (fun a ev b => a.step ev = some b) s es t) : Sound t :=
  h.invariant (fun _ _ _ ha hstep => ha.step hstep) hs

theorem extends_run {es : List ServerEvent} (h : Run (fun a ev b => a.step ev = some b) s es t) :
    s.Extends t :=
  h.relates .refl (fun _ _ _ => .trans) fun _ _ _ => extends_step

theorem ttl_run {es : List ServerEvent} (h : Run (fun a ev b => a.step ev = some b) s es t) :
    t.cache.ttl = s.cache.ttl := by
  refine h.relates (R := fun a b => b.cache.ttl = a.cache.ttl) (fun _ => rfl) ?_
    fun _ _ _ => ttl_step
  intro a b c hab hbc
  exact hbc.trans hab

/-! ## What a duplicate gets -/

/-- The state of duplicate `j` after first request `i`: it has the first's answer,
or it waits and will get that answer as soon as it is recorded, or it was turned
away after the wait bound. It never runs the handler. -/
def Follows (t : Server) (i j : ℕ) : Prop :=
  ∃ a b, t.requests[i]? = some a ∧ t.requests[j]? = some b ∧
    (b.stage = .waiting ∧ (∀ answer, a.stage = .finished answer →
        t.step (.wake j) = some (t.setStage j b (.replayed (replay answer)))) ∨
      (∃ answer, a.stage = .finished answer ∧ b.stage = .replayed (replay answer)) ∨
      b.stage = .refused stillRunning ∧ b.at_ + spaRpcDedupeWait ≤ t.clock)

theorem Sound.follows (hs : Sound s) {i j : ℕ} {a b : Request} (ha : s.requests[i]? = some a)
    (hb : s.requests[j]? = some b) (hfa : a.stage.first = true) (hfb : b.stage.first = false)
    (he : a.e = b.e) : s.Follows i j := by
  have hla := hs.linked i a ha
  have hlb := hs.linked j b hb
  refine ⟨a, b, ha, hb, ?_⟩
  cases hstage : b.stage with
  | waiting =>
      refine .inl ⟨rfl, fun answer hans => ?_⟩
      obtain ⟨hdone, hanswer⟩ := hla.finished answer hans
      rw [he] at hdone hanswer
      simp [Server.step, hb, hstage, hdone, hanswer]
  | replayed answer =>
      obtain ⟨hdone, hanswer⟩ := hlb.replayed answer hstage
      rw [← he] at hdone hanswer
      -- the first request has ended, since its entry is done
      cases hfirst : a.stage with
      | finished answer' =>
          refine .inr (.inl ⟨answer', rfl, ?_⟩)
          rw [hanswer, (hla.finished answer' hfirst).2]
      | claimed | running =>
          have := hla.running (by rw [hfirst]; rfl)
          exact (Bool.false_ne_true (this.symm.trans hdone)).elim
      | waiting | replayed | refused => simp [hfirst, Stage.first] at hfa
  | refused answer =>
      obtain ⟨rfl, hwait⟩ := hlb.refused answer hstage
      exact .inr (.inr ⟨rfl, hwait⟩)
  | claimed | running | finished => simp [hstage, Stage.first] at hfb

theorem Follows.run {es : List ServerEvent} (hs : Sound s) {i j : ℕ} {a b : Request}
    (h : Run (fun a ev b => a.step ev = some b) s es t) (ha : s.requests[i]? = some a)
    (hb : s.requests[j]? = some b) (hfa : a.stage.first = true) (hfb : b.stage.first = false)
    (he : a.e = b.e) : t.Follows i j := by
  obtain ⟨a', ha', la⟩ := extends_run h i a ha
  obtain ⟨b', hb', lb⟩ := extends_run h j b hb
  exact (hs.run h).follows ha' hb' (la.first.trans hfa) (lb.first.trans hfb)
    (by rw [la.e, lb.e, he])

/-- The entry of a first request answers every claim of its key within the TTL,
while its handler runs and as long as the map holds it. -/
theorem Sound.live_of_first (hs : Sound s) {i : ℕ} {a : Request} {now : ℤ}
    (ha : s.requests[i]? = some a) (hfirst : a.stage.first = true)
    (hheld : a.stage.holds = true ∨ s.cache.m.lookup a.key = some a.e) (hnow : s.clock ≤ now)
    (hlt : now < a.at_ + s.cache.ttl) : s.cache.live a.key now = some a.e := by
  have hl := hs.linked i a ha
  have hcur : s.cache.m.lookup a.key = some a.e :=
    hheld.elim (fun hhold => hl.current hhold (by omega)) id
  rw [live, hcur, Option.filter_some, if_pos]
  rw [hl.claimedAt hfirst]
  exact decide_eq_true (by omega)

/-- The answer bytes that a step records. -/
def recordedBytes : ServerEvent → ℕ
  | .finish _ rec _ _ _ => rec.buf.length
  | _ => 0

/-- An entry leaves the map only when it is a TTL old or the cache is over one of
its limits. -/
theorem Sound.evicted (hs : Sound s) {ev : ServerEvent} {i : ℕ} {a : Request}
    (h : s.step ev = some t) (ha : s.requests[i]? = some a) (hfirst : a.stage.first = true)
    (hcur : s.cache.m.lookup a.key = some a.e) (hgone : t.cache.m.lookup a.key ≠ some a.e) :
    a.at_ + s.cache.ttl ≤ t.clock ∨ s.cache.cap ≤ s.cache.order.length ∨
      (s.cache.maxBytes : ℤ) < s.cache.bytes + recordedBytes ev := by
  have hl := hs.linked i a ha
  have hat := hl.claimedAt hfirst
  cases ev with
  | arrive r now nowEvict =>
      simp only [Server.step] at h
      split_ifs at h with hclock hkey
      · cases h
        exact (hgone hcur).elim
      · cases h
        cases hlive : s.cache.live (spaRpcDedupeKey r) now with
        | some e =>
            simp only [receive, claim_of_live hlive] at hgone
            exact (hgone hcur).elim
        | none =>
            simp only [receive, claim_of_not_live hlive] at hgone ⊢
            by_cases hk : a.key = spaRpcDedupeKey r
            · have := live_eq_none_iff.mp hlive a.e (hk ▸ hcur)
              omega
            · have hcur' : (s.cache.opened (spaRpcDedupeKey r) now).m.lookup a.key = some a.e :=
                (lookup_opened_of_ne hk).trans hcur
              have hdrop := (droppable_of_evict (hs.ordered.opened _ now) hcur' hgone).2
              rw [opened_heap_of_ne hl.allocated.ne, hat] at hdrop
              simp only [opened, List.length_append, List.length_singleton] at hdrop
              simp only [recordedBytes]
              omega
  | start i =>
      obtain ⟨r, -, -, rfl⟩ := step_start h
      exact (hgone hcur).elim
  | finish j rec header returned now =>
      obtain ⟨r, hr, hstage, -, rfl⟩ := step_finish h
      simp only at hgone ⊢
      by_cases hr' : s.cache.m.lookup (s.cache.heap r.e).key = some r.e
      · rw [fill_of_current hr'] at hgone
        have hdrop := (droppable_of_evict (hs.ordered.counted _ _) hcur hgone).2
        rw [counted, finished_heap_at, hat] at hdrop
        simp only [finished, SpaRpcRecorder.recorded] at hdrop
        simp only [recordedBytes]
        omega
      · rw [fill_of_superseded hr'] at hgone
        exact (hgone hcur).elim
  | wake i =>
      obtain ⟨r, -, -, -, rfl⟩ := step_wake h
      exact (hgone hcur).elim
  | timeout i now =>
      obtain ⟨r, -, -, -, -, rfl⟩ := step_timeout h
      exact (hgone hcur).elim

end Server

open Server

/-- At most once per key, over every interleaving of requests. A handler starts
beside an earlier one of its key only if the claims lie a TTL apart. A duplicate
that comes within the TTL of the first claim, while that handler runs or its
answer is still cached, never runs the handler and gets the recorded answer
unless it first exhausts its wait. An answer leaves the cache only with the TTL or
over a limit. -/
theorem dedupe_at_most_once (capacity maxBytes : ℕ) (ttl clock : ℤ) {es : List ServerEvent}
    {s : Server} (h : Run (fun a ev b => Server.step a ev = some b)
      (.init (newSpaRpcDedupeCache capacity maxBytes ttl) clock) es s) :
    (∀ (i j : ℕ) a b t, s.step (.start j) = some t → i < j → s.requests[i]? = some a →
      s.requests[j]? = some b → a.key = b.key → a.stage.holds = true → a.at_ + ttl ≤ b.at_) ∧
    (∀ (i : ℕ) a r now nowEvict s', s.requests[i]? = some a → a.stage.first = true →
      a.stage.holds = true ∨ s.cache.m.lookup a.key = some a.e → spaRpcDedupeKey r = a.key →
      now < a.at_ + ttl → s.step (.arrive r now nowEvict) = some s' →
      ∀ fs t, Run (fun a ev b => Server.step a ev = some b) s' fs t →
        t.Follows i s.requests.length) ∧
    (∀ (i : ℕ) a ev t, s.requests[i]? = some a → a.stage.first = true →
      s.cache.m.lookup a.key = some a.e → s.step ev = some t → t.cache.m.lookup a.key ≠ some a.e →
      a.at_ + ttl ≤ t.clock ∨ s.cache.cap ≤ s.cache.order.length ∨
        (s.cache.maxBytes : ℤ) < s.cache.bytes + recordedBytes ev) := by
  have hs : Sound s := (Sound.init capacity maxBytes ttl clock).run h
  have httl : s.cache.ttl = ttl := ttl_run h
  refine ⟨?_, ?_, ?_⟩
  · intro i j a b t hstart hij ha hb hkey hhold
    obtain ⟨b', hb', hstage, -⟩ := step_start hstart
    obtain rfl : b = b' := Option.some.inj (hb.symm.trans hb')
    exact httl ▸ hs.apart i j a b hij ha hb hkey hhold (by rw [hstage]; rfl)
  · intro i a r now nowEvict s' ha hfirst hheld hkey hlt hstep fs t hrun
    have htagged : spaRpcDedupeKey r ≠ "" := hkey ▸ (hs.linked i a ha).tagged
    have hs' := hs.step hstep
    obtain ⟨b, hb, hfb, hbe, ha'⟩ : ∃ b, s'.requests[s.requests.length]? = some b ∧
        b.stage.first = false ∧ b.e = a.e ∧ s'.requests[i]? = some a := by
      simp only [Server.step] at hstep
      split_ifs at hstep with hclock
      cases hstep
      have hlive := hs.live_of_first ha hfirst hheld hclock.1 (httl.symm ▸ hlt)
      have hclaim : s.cache.claim a.key now nowEvict = (s.cache, a.e, false) := claim_of_live hlive
      refine ⟨⟨a.key, a.e, now, .waiting⟩, ?_, rfl, rfl, getElem?_receive_of_some ha⟩
      rw [requests_receive, hkey, hclaim, List.getElem?_concat_length]
      rfl
    exact Follows.run hs' hrun ha' hb hfirst hfb hbe.symm
  · intro i a ev t ha hfirst hcur hstep hgone
    exact httl ▸ hs.evicted hstep ha hfirst hcur hgone

/-- A tagged request without cookies. -/
def saveRpc : HttpRequest := ⟨"POST", "/_rpc/Save", "1", []⟩

def second : ℤ := 10 ^ 9

/-- The deployed server with the handler of one request running. -/
def savingRun : List ServerEvent := [.arrive saveRpc 0 0, .start 0]

/-- The handler runs, a duplicate arrives, and the answer is recorded later. -/
theorem dedupe_at_most_once_duplicateRun :
    ∃ t : Server, t.Follows 0 1 ∧
      t.requests.map (·.stage) = [.finished ⟨200, [], [1]⟩, .waiting] := by
  obtain ⟨s, hrun, hstage, hkey, hnow, hlen, s', hstep, t, hrest, hstages⟩ : ∃ s,
      Run (fun a ev b => Server.step a ev = some b)
        (.init (newSpaRpcDedupeCache spaRpcDedupeCap spaRpcDedupeMaxBytes spaRpcDedupeTTL) 0)
        savingRun s ∧
      s.requests[0]? = some ⟨spaRpcDedupeKey saveRpc, 0, 0, .running⟩ ∧
      spaRpcDedupeKey saveRpc = spaRpcDedupeKey saveRpc ∧ second < 0 + spaRpcDedupeTTL ∧
      s.requests.length = 1 ∧
      ∃ s', s.step (.arrive saveRpc second second) = some s' ∧
      ∃ t, Run (fun a ev b => Server.step a ev = some b) s'
          [.finish 0 ⟨200, [1]⟩ [] true (2 * second)] t ∧
        t.requests.map (·.stage) = [.finished ⟨200, [], [1]⟩, .waiting] :=
    ⟨_, Run.iff_foldlM.mpr rfl, rfl, rfl, by decide, rfl, _, rfl, _, Run.iff_foldlM.mpr rfl, rfl⟩
  have h := (dedupe_at_most_once _ _ _ _ hrun).2.1 0 _ saveRpc second second s' hstage rfl
    (.inl rfl) hkey hnow hstep _ t hrest
  rw [hlen] at h
  exact ⟨t, h, hstages⟩

/-- A duplicate that arrives while the first handler runs is turned away when that
handler takes longer than the wait bound. -/
def impatientRun : List ServerEvent :=
  [.arrive saveRpc 0 0, .start 0, .arrive saveRpc second second,
    .timeout 1 (second + spaRpcDedupeWait)]

theorem dedupe_duplicate_refused :
    ∃ s, Run (fun a ev b => Server.step a ev = some b)
        (.init (newSpaRpcDedupeCache spaRpcDedupeCap spaRpcDedupeMaxBytes spaRpcDedupeTTL) 0)
        impatientRun s ∧
      s.requests.map (·.stage) = [.running, .refused stillRunning] :=
  ⟨_, Run.iff_foldlM.mpr rfl, rfl⟩

end Sky.Spa
