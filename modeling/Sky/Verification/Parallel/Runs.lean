import Sky.Verification.Parallel.Collect

/-! # Every run of a parallel call -/

namespace Sky.Parallel

open Library

variable {V E P : Type} {s t : State V E P} {i : ℕ}

structure Sound (s : State V E P) : Prop where
  started : Started s
  shape : Shape s
  sent : Sent s
  fates : Fates s
  slots : ∀ lim, s.limit = some lim → Slots s lim
  stands : Stands s s.caller

theorem Stepped.limit (h : Stepped s t) : t.limit = s.limit := by
  cases h with
  | caller hstep => cases hstep <;> rfl
  | dispatcher hstep => cases hstep <;> rfl
  | finish => rfl
  | branch i r a rest hi hstep => cases hstep <;> rfl

theorem Stepped.length (h : Stepped s t) : t.branches.length = s.branches.length := by
  cases h with
  | caller hstep => cases hstep <;> first | rfl | exact List.length_set ..
  | dispatcher hstep => cases hstep <;> first | rfl | exact List.length_set ..
  | finish => exact List.length_set ..
  | branch i r a rest hi hstep => cases hstep <;> exact List.length_set ..

theorem Sound.step (h : Sound s) (hstep : Stepped s t) : Sound t where
  started := h.started.step hstep
  shape := h.shape.step hstep
  sent := h.sent.step h.started h.shape hstep
  fates := h.fates.step h.started h.shape h.sent hstep
  slots lim hlim := (h.slots lim (hstep.limit.symm.trans hlim)).step h.started h.shape hstep
  stands := h.stands.step h.sent hstep

/-! ## The start -/

/-- A call before its first step. -/
theorem Sound.init {limit : Option ℕ} {n : ℕ} {c : Caller V E P} {d : Dispatcher}
    (hstarted : Started (State.init limit n c d)) (hpos : ∀ lim, limit = some lim → 0 < lim)
    (hd : d.holds = 0) (hc : c.raised = none) (hstands : Stands (State.init limit n c d) c) :
    Sound (State.init limit n c d) where
  started := hstarted
  shape i r todo hi := by
    cases List.eq_of_mem_replicate (List.mem_of_getElem? hi)
  sent := by
    refine ⟨List.nodup_nil, by simp [State.init], ?_⟩
    intro _ i r b hi hr
    obtain rfl := List.eq_of_mem_replicate (List.mem_of_getElem? hi)
    cases hr
  fates := by
    have hnil : (State.init limit n c d).fates = [] := by simp [State.fates, State.init, hc]
    refine ⟨by simp [hnil], ?_, ?_⟩
    · intro i p
      rw [hnil]
      constructor
      · simp
      · rintro ⟨⟨b, hi, hb⟩, _⟩
        obtain rfl := List.eq_of_mem_replicate (List.mem_of_getElem? hi)
        cases hb
    · intro i r todo hi
      cases List.eq_of_mem_replicate (List.mem_of_getElem? hi)
  slots lim hlim := by
    refine ⟨hlim, hpos lim hlim, Nat.zero_le _, ?_⟩
    change 0 = (List.replicate n Branch.idle).countP Branch.holds + d.holds
    rw [hd, List.countP_replicate]
    rfl
  stands := hstands

theorem idle_init (n : ℕ) (i : ℕ) :
    (List.replicate n (Branch.idle : Branch V E P))[i]? = some .idle ↔ 0 ≤ i ∧ i < n := by
  rw [List.getElem?_replicate]
  simp

theorem stands_empty (limit : Option ℕ) (d : Dispatcher) :
    Stands (State.init limit 0 (.returned (.ok [])) d : State V E P) (.returned (.ok [])) :=
  .returned _ (.inr rfl) rfl (fun _ => .inr rfl)
    ⟨[], List.nil_prefix, .ok _ _ ⟨rfl, by simp, by simp⟩ rfl⟩

theorem sound_parallel (n : ℕ) : Sound (State.parallel n : State V E P) := by
  unfold State.parallel
  split
  · refine .init ⟨rfl, le_rfl, idle_init 0, by simp [State.init], fun _ _ => rfl, fun _ => rfl,
      by simp [State.init], by simp [State.init], by simp [State.init], by simp [State.init],
      by simp [State.init]⟩ (by simp) rfl rfl (stands_empty ..)
  · refine .init ⟨rfl, Nat.zero_le _, ?_, ?_, ?_, fun _ => rfl, by simp [State.init],
      by simp [State.init], by simp [State.init], by simp [State.init], by simp [State.init]⟩
      (by simp) rfl rfl (.launching 0 rfl rfl)
    · simpa [State.init] using idle_init n
    · intro i heq
      obtain rfl := Caller.launching.inj heq
      exact ⟨rfl, rfl⟩
    · intro _ hne
      exact absurd rfl (hne 0)

theorem sound_parallelN (limit : ℤ) (n : ℕ) : Sound (State.parallelN limit n : State V E P) := by
  have hpos : 0 < (if limit < 1 then 1 else limit).toNat := by
    split <;> omega
  unfold State.parallelN
  dsimp only
  generalize (if limit < 1 then 1 else limit).toNat = lim at hpos
  split
  · refine .init ⟨rfl, le_rfl, idle_init 0, by simp [State.init], by simp [State.init],
      by simp [State.init], by simp [State.init], by simp [State.init], fun _ _ => .inr rfl,
      by simp [State.init], by simp [State.init]⟩ ?_ rfl rfl (stands_empty ..)
    rintro l ⟨⟩
    exact hpos
  · refine .init ⟨rfl, Nat.zero_le _, ?_, by simp [State.init], by simp [State.init],
      by simp [State.init], ?_, by simp [State.init], by simp [State.init], by simp [State.init],
      by simp [State.init]⟩ ?_ rfl rfl ?_
    · simpa [State.init] using idle_init n
    · intro i heq
      obtain rfl := Dispatcher.selecting.inj heq
      rfl
    · rintro l ⟨⟩
      exact hpos
    · have hn : (List.replicate n (Branch.idle : Branch V E P)).length = n := List.length_replicate
      refine .collecting (s := State.init (some lim) n _ _) _ rfl ?_
      change Collected (List.replicate n (Branch.idle : Branch V E P)).length [] _
      rw [hn]
      exact .nil n

/-! ## Nobody is blocked for good -/

/-- The channel has room for a branch that has not sent. -/
theorem Sent.room (h : Sent s) {b : Branch V E P} (hi : s.branches[i]? = some b)
    (hb : b.delivered = none) : s.ch.length < s.branches.length := by
  have hnodup : (i :: (s.taken ++ s.ch).map Prod.fst).Nodup := by
    refine List.nodup_cons.2 ⟨?_, h.once⟩
    intro hmem
    obtain ⟨⟨_, r⟩, hr, rfl⟩ := List.mem_map.1 hmem
    exact h.absent hi hb r hr
  have hsub : i :: (s.taken ++ s.ch).map Prod.fst ⊆ List.range s.branches.length := by
    intro j hj
    rw [List.mem_range]
    rcases List.mem_cons.1 hj with rfl | hj
    · exact (List.getElem?_eq_some_iff.1 hi).1
    · obtain ⟨⟨_, r⟩, hr, rfl⟩ := List.mem_map.1 hj
      exact (h.came hr).lt
  have hlength := (hnodup.subperm hsub).length_le
  simp only [List.length_cons, List.length_map, List.length_append, List.length_range] at hlength
  omega

/-- A branch whose task has ended can do what is left to it. -/
theorem Sound.branch_runs (h : Sound s) {r : Result V E P} {a : Todo} {rest : List Todo}
    (hi : s.branches[i]? = some (.ended r (a :: rest))) : (s.step (.branch i)).isSome = true := by
  simp only [State.step, hi]
  cases a with
  | send =>
      simp only [State.act]
      split
      · split <;> rfl
      · rw [if_pos (h.sent.room hi (by simp [Branch.delivered]))]
        rfl
  | release =>
      have htodo := h.shape i r _ hi
      have hpos : 0 < s.slots := by
        cases hlimit : s.limit with
        | none => exact absurd (List.mem_cons_self ..) (htodo.plain hlimit)
        | some lim =>
            have hcount := (h.slots lim hlimit).count
            have hmem := List.countP_pos_iff.2
              ⟨_, List.mem_of_getElem? hi, (by simp [Branch.holds] :
                (Branch.ended r (.release :: rest)).holds = true)⟩
            omega
      simp only [State.act, if_pos hpos]
      rfl
  | log =>
      simp only [State.act]
      split <;> rfl

/-- A branch that was started is at work until it has nothing left to do. -/
theorem Sound.branch_works (h : Sound s) {b : Branch V E P} (hi : s.branches[i]? = some b)
    (hidle : b ≠ .idle) (hdone : ∀ r, b ≠ .ended r []) :
    b = .running ∨ (s.step (.branch i)).isSome = true := by
  cases b with
  | idle => exact absurd rfl hidle
  | running => exact .inl rfl
  | ended r todo =>
      cases todo with
      | nil => exact absurd rfl (hdone r)
      | cons a rest => exact .inr (h.branch_runs hi)

/-- The dispatcher waits only for a slot, and not when the caller has returned. -/
theorem Sound.dispatcher_runs (h : Sound s) (hfinished : s.dispatcher ≠ .finished) :
    (∃ stop, (s.step (.dispatcher stop)).isSome = true) ∨
      (∀ o, s.caller ≠ .returned o) ∧
        ∃ lim, s.limit = some lim ∧ 0 < lim ∧ s.branches.countP Branch.holds = lim := by
  have hsome : s.limit ≠ none := fun hlimit => hfinished (h.started.plain hlimit)
  obtain ⟨lim, hlimit⟩ := Option.ne_none_iff_exists'.1 hsome
  have hslots := h.slots lim hlimit
  have hcount := hslots.count
  have hle := hslots.le
  cases hdispatcher : s.dispatcher with
  | selecting i =>
      by_cases hi : i < s.branches.length
      · by_cases hstop : s.stop = true
        · exact .inl ⟨true, by simp [State.step, State.stepDispatcher, hdispatcher, hi, hstop]⟩
        · by_cases hlt : s.slots < lim
          · exact .inl ⟨false, by
              simp [State.step, State.stepDispatcher, hdispatcher, hi, hlimit, hlt]⟩
          · simp only [hdispatcher, Dispatcher.holds] at hcount
            refine .inr ⟨?_, lim, hlimit, hslots.pos, by omega⟩
            intro o hcaller
            have hstands := h.stands
            rw [hcaller] at hstands
            cases hstands with
            | returned _ _ _ hclosed =>
                rcases hclosed hsome with heq | heq
                · exact hstop heq
                · rw [heq] at hi
                  cases hi
      · exact .inl ⟨true, by simp [State.step, State.stepDispatcher, hdispatcher, hi]⟩
  | acquired i =>
      refine .inl ⟨true, ?_⟩
      simp only [State.step, State.stepDispatcher, hdispatcher]
      split <;> rfl
  | leaving =>
      simp only [hdispatcher, Dispatcher.holds] at hcount
      have hpos : 0 < s.slots := by omega
      exact .inl ⟨true, by simp [State.step, State.stepDispatcher, hdispatcher, hpos]⟩
  | finished => exact absurd hdispatcher hfinished

/-- A branch is running its task, or can do what is left to it. -/
def State.Works (s : State V E P) (i : ℕ) : Prop :=
  s.branches[i]? = some .running ∨ (s.step (.branch i)).isSome = true

/-- A branch with a slot is at work. -/
theorem Sound.holder_works (h : Sound s) (hpos : 0 < s.branches.countP Branch.holds) :
    ∃ i, s.Works i := by
  obtain ⟨b, hmem, hholds⟩ := List.countP_pos_iff.1 hpos
  obtain ⟨i, hi⟩ := List.mem_iff_getElem?.1 hmem
  refine ⟨i, ?_⟩
  cases b with
  | idle => cases hholds
  | running => exact .inl hi
  | ended r todo =>
      cases todo with
      | nil => cases hholds
      | cons a rest => exact .inr (h.branch_runs hi)

/-- The caller waits only while somebody else can go on. -/
theorem Sound.caller_runs (h : Sound s) (hcaller : ∀ o, s.caller ≠ .returned o) :
    (s.step .caller).isSome = true ∨ (∃ stop, (s.step (.dispatcher stop)).isSome = true) ∨
      ∃ i, s.Works i := by
  have hstands := h.stands
  cases heq : s.caller with
  | launching i =>
      refine .inl ?_
      simp only [State.step, State.stepCaller, heq]
      split <;> rfl
  | collecting received results =>
      by_cases hlt : received < s.branches.length
      · cases hch : s.ch with
        | cons x ch => exact .inl (by simp [State.step, State.stepCaller, heq, hlt, hch])
        | nil =>
            refine .inr ?_
            rw [heq] at hstands
            cases hstands with
            | collecting _ hgone _ =>
                obtain ⟨i, hi, hnew⟩ : ∃ i < s.branches.length, i ∉ s.taken.map Prod.fst := by
                  by_contra hall
                  push Not at hall
                  have hsub : List.range s.branches.length ⊆ s.taken.map Prod.fst := fun i hi =>
                    hall i (List.mem_range.1 hi)
                  have hlength := (List.nodup_range.subperm hsub).length_le
                  simp only [List.length_range, List.length_map] at hlength
                  omega
                obtain ⟨b, hb⟩ : ∃ b, s.branches[i]? = some b := ⟨_, List.getElem?_eq_getElem hi⟩
                cases b with
                | idle =>
                    have hstart := ((h.started.idle i).1 hb).1
                    have hsome : s.limit ≠ none := by
                      intro hlimit
                      have heager := h.started.eager hlimit (by simp [heq])
                      omega
                    have hfinished : s.dispatcher ≠ .finished := by
                      intro hfinished
                      rcases h.started.left hsome (.inr hfinished) with hleft | hleft
                      · rw [hgone] at hleft
                        cases hleft
                      · omega
                    rcases h.dispatcher_runs hfinished with hruns | ⟨_, lim, _, hpos, hcount⟩
                    · exact .inl hruns
                    · exact .inr (h.holder_works (hcount ▸ hpos))
                | running => exact .inr ⟨i, .inl hb⟩
                | ended r todo =>
                    cases todo with
                    | cons a rest => exact .inr ⟨i, .inr (h.branch_runs hb)⟩
                    | nil =>
                        have hmem := h.sent.all hgone i r _ hb (by simp [Branch.delivered])
                        rw [hch, List.append_nil] at hmem
                        exact absurd (List.mem_map.2 ⟨_, hmem, rfl⟩) hnew
      · exact .inl (by simp [State.step, State.stepCaller, heq, hlt])
  | finishing o => exact .inl (by simp [State.step, State.stepCaller, heq])
  | draining o =>
      refine .inl ?_
      simp only [State.step, State.stepCaller, heq]
      split <;> rfl
  | closing o => exact .inl (by simp [State.step, State.stepCaller, heq])
  | returned o => exact absurd heq (hcaller o)

/-! ## What the caller returns -/

/-- The first failure among what the caller took. -/
def State.FirstFailure (s : State V E P) (i : ℕ) (r : Result V E P) : Prop :=
  ∃ oks rest, s.taken = oks ++ (i, r) :: rest ∧ ∀ x ∈ oks, ∃ v, x.2 = Result.ok v

/-- The results of a call are the values of all branches, in the order of the tasks. -/
theorem Sound.returned_ok (h : Sound s) {results : List (Option V)}
    (hcaller : s.caller = .returned (.ok results)) :
    results.length = s.branches.length ∧
      ∀ i < s.branches.length, ∃ v, s.Came i (.ok v) ∧ results[i]? = some (some v) := by
  have hstands := h.stands
  rw [hcaller] at hstands
  cases hstands with
  | returned _ _ _ _ hsettled =>
      obtain ⟨l, hl, ho⟩ := hsettled
      cases ho with
      | ok _ _ hcollected hlength =>
          refine ⟨hcollected.length, ?_⟩
          intro i hi
          obtain ⟨r, hmem⟩ := h.sent.complete hl hlength.ge hi
          obtain ⟨v, hv⟩ := hcollected.oks _ hmem
          obtain rfl : r = .ok v := hv
          exact ⟨v, h.sent.came (List.mem_append_left _ (hl.subset hmem)), hcollected.places i v hmem⟩

/-- A call that fails returns the first failure that the caller saw. -/
theorem Sound.returned_failure (h : Sound s) {o : Outcome V E P} (hcaller : s.caller = .returned o) :
    (∀ e, o = .err e → ∃ i, s.FirstFailure i (.err e) ∧ s.Came i (.err e)) ∧
      ∀ i p, o = .raised i p → s.FirstFailure i (.panicked p) ∧ s.Came i (.panicked p) := by
  have hstands := h.stands
  rw [hcaller] at hstands
  cases hstands with
  | returned _ _ _ _ hsettled =>
      obtain ⟨l, hl, ho⟩ := hsettled
      cases ho with
      | ok => exact ⟨by simp, by simp⟩
      | err oks i e hoks =>
          obtain ⟨rest, hrest⟩ := hl
          have htaken : s.taken = oks ++ (i, .err e) :: rest := by simp [← hrest]
          refine ⟨?_, by simp⟩
          rintro e' ⟨⟩
          exact ⟨i, ⟨oks, rest, htaken, hoks⟩, h.sent.came (by simp [htaken])⟩
      | raised oks i p hoks =>
          obtain ⟨rest, hrest⟩ := hl
          have htaken : s.taken = oks ++ (i, .panicked p) :: rest := by simp [← hrest]
          refine ⟨by simp, ?_⟩
          rintro i' p' ⟨⟩
          exact ⟨⟨oks, rest, htaken, hoks⟩, h.sent.came (by simp [htaken])⟩

theorem Sound.returned_ok_iff (h : Sound s) {o : Outcome V E P} (hcaller : s.caller = .returned o) :
    (∃ results, o = .ok results) ↔ ∀ i < s.branches.length, ∃ v, s.Came i (.ok v) := by
  constructor
  · rintro ⟨results, rfl⟩ i hi
    obtain ⟨v, hv, _⟩ := (h.returned_ok hcaller).2 i hi
    exact ⟨v, hv⟩
  · intro hall
    obtain ⟨herr, hraised⟩ := h.returned_failure hcaller
    cases o with
    | ok results => exact ⟨results, rfl⟩
    | err e =>
        obtain ⟨i, _, hcame⟩ := herr e rfl
        obtain ⟨v, hv⟩ := hall i hcame.lt
        cases hv.unique hcame
    | raised i p =>
        obtain ⟨_, hcame⟩ := hraised i p rfl
        obtain ⟨v, hv⟩ := hall i hcame.lt
        cases hv.unique hcame

/-! ## Panics -/

theorem Branch.came_of_settled {b : Branch V E P} {p : P} (h : b.settled = some p) :
    ∃ todo, b = .ended (.panicked p) todo := by
  unfold Branch.settled at h
  split at h
  · next q todo =>
      split at h
      · cases h
      · obtain rfl := Option.some.inj h
        exact ⟨todo, rfl⟩
  · cases h

theorem Fates.came (h : Fates s) {p : P} (hmem : (i, p) ∈ s.fates) : s.Came i (.panicked p) := by
  obtain ⟨⟨b, hi, hb⟩, _⟩ := (h.mem_iff i p).1 hmem
  obtain ⟨todo, rfl⟩ := Branch.came_of_settled hb
  exact ⟨todo, hi⟩

/-- When the caller has returned, a branch is done with its panic only when the panic was re-raised
or logged. -/
theorem Sound.panic_settled (h : Sound s) {o : Outcome V E P} (hcaller : s.caller = .returned o)
    {p : P} (hi : s.branches[i]? = some (.ended (.panicked p) [])) : (i, p) ∈ s.fates := by
  have hstands := h.stands
  rw [hcaller] at hstands
  cases hstands with
  | returned _ _ hch _ _ => exact (h.fates.mem_iff i p).2 ⟨⟨_, hi, by simp [Branch.settled]⟩, by simp [hch]⟩

/-! ## Every run -/

def Branch.runs : Branch V E P → Bool
  | .running => true
  | .idle | .ended _ _ => false

theorem Sound.running_le (h : Sound s) {lim : ℕ} (hlimit : s.limit = some lim) :
    s.branches.countP Branch.runs ≤ lim := by
  have hslots := h.slots lim hlimit
  have hcount := hslots.count
  have hle := hslots.le
  have hmono : s.branches.countP Branch.runs ≤ s.branches.countP Branch.holds := by
    refine List.countP_mono_left ?_
    intro b _ hb
    cases b with
    | idle => cases hb
    | running => rfl
    | ended r todo => cases hb
  omega

theorem sound_start (n : ℕ) (limit : Option ℤ) : Sound (State.start n limit : State V E P) := by
  cases limit with
  | none => exact sound_parallel n
  | some limit => exact sound_parallelN limit n

theorem length_start (n : ℕ) (limit : Option ℤ) :
    (State.start n limit : State V E P).branches.length = n := by
  cases limit with
  | none =>
      change (State.parallel n : State V E P).branches.length = n
      unfold State.parallel
      split
      · next hn => exact hn.symm
      · exact List.length_replicate
  | some limit =>
      change (State.parallelN limit n : State V E P).branches.length = n
      unfold State.parallelN
      dsimp only
      split
      · next hn => exact hn.symm
      · exact List.length_replicate

theorem limit_start (n : ℕ) (limit : ℤ) :
    (State.start n (some limit) : State V E P).limit = some (max limit 1).toNat := by
  change (State.parallelN limit n : State V E P).limit = _
  unfold State.parallelN
  dsimp only
  have hmax : (if limit < 1 then 1 else limit) = max limit 1 := by
    split <;> omega
  rw [hmax]
  split <;> rfl

/-- Any run of `Task.parallel` or `Task.parallelN`: what the caller returns, what becomes of the
panics, what is started, and who may wait. -/
theorem parallel_collects {n : ℕ} {limit : Option ℤ} {es : List (Event V E P)}
    (hrun : Run (fun a e b => a.step e = some b) (State.start n limit) es s) :
    (∀ o, s.caller = .returned o →
      ((∃ results, o = .ok results) ↔ ∀ i < n, ∃ v, s.Came i (.ok v)) ∧
      (∀ results, o = .ok results → results.length = n ∧
        ∀ i < n, ∃ v, s.Came i (.ok v) ∧ results[i]? = some (some v)) ∧
      (∀ e, o = .err e → ∃ i, s.FirstFailure i (.err e) ∧ s.Came i (.err e)) ∧
      ∀ i p, o = .raised i p → s.FirstFailure i (.panicked p) ∧ s.Came i (.panicked p)) ∧
    ((s.fates.map Prod.fst).Nodup ∧ (∀ i p, (i, p) ∈ s.fates → s.Came i (.panicked p)) ∧
      ∀ o (i : ℕ) p, s.caller = .returned o → s.branches[i]? = some (.ended (.panicked p) []) →
        (i, p) ∈ s.fates) ∧
    (s.started.Nodup ∧
      ∀ lim, limit = some lim → (s.branches.countP Branch.runs : ℤ) ≤ max lim 1) ∧
    (∀ (i : ℕ) b, s.branches[i]? = some b → b ≠ .idle → (∀ r, b ≠ .ended r []) → s.Works i) ∧
    (s.dispatcher ≠ .finished →
      (∃ stop, (s.step (.dispatcher stop)).isSome = true) ∨
      (∀ o, s.caller ≠ .returned o) ∧
        ∃ lim, s.limit = some lim ∧ 0 < lim ∧ s.branches.countP Branch.holds = lim) ∧
    ((∀ o, s.caller ≠ .returned o) →
      (s.step .caller).isSome = true ∨ (∃ stop, (s.step (.dispatcher stop)).isSome = true) ∨
      ∃ i, s.Works i) := by
  have hkept : Sound s ∧ s.branches.length = n ∧ s.limit = (State.start n limit : State V E P).limit := by
    refine hrun.invariant (P := fun a => Sound a ∧ a.branches.length = n ∧
      a.limit = (State.start n limit : State V E P).limit) ?_
        ⟨sound_start n limit, length_start n limit, rfl⟩
    rintro a e b ⟨hsound, hlength, hlimit⟩ hab
    have hstep := State.step_cases hab
    exact ⟨hsound.step hstep, hstep.length.trans hlength, hstep.limit.trans hlimit⟩
  obtain ⟨hsound, hlength, hlimit⟩ := hkept
  refine ⟨?_, ⟨hsound.fates.once, fun i p => hsound.fates.came, fun o i p hcaller => hsound.panic_settled hcaller⟩,
    ⟨?_, ?_⟩, ?_, hsound.dispatcher_runs, hsound.caller_runs⟩
  · intro o hcaller
    obtain ⟨herr, hraised⟩ := hsound.returned_failure hcaller
    have hiff := hsound.returned_ok_iff hcaller
    rw [hlength] at hiff
    refine ⟨hiff, ?_, herr, hraised⟩
    rintro results rfl
    have hok := hsound.returned_ok hcaller
    rwa [hlength] at hok
  · rw [hsound.started.range]
    exact List.nodup_range
  · rintro lim rfl
    have hle := hsound.running_le (hlimit.trans (limit_start n lim))
    omega
  · intro i b hi hidle hdone
    rcases hsound.branch_works hi hidle hdone with rfl | hruns
    · exact .inl hi
    · exact .inr hruns

/-- Two tasks, one at a time, and the second panics. -/
def panicSecond : List (Event ℕ ℕ ℕ) :=
  [.dispatcher false, .dispatcher false, .finish 0 (.ok 5), .branch 0, .branch 0, .dispatcher false,
    .dispatcher false, .finish 1 (.panicked 7), .branch 1, .branch 1, .caller, .caller, .caller,
    .caller, .caller]

theorem panicSecond_collects : ∃ s : State ℕ ℕ ℕ,
    Run (fun a e b => a.step e = some b) (State.start 2 (some 1)) panicSecond s ∧
      s.caller = .returned (.raised 1 7) ∧ s.Came 1 (.panicked 7) ∧ (1, 7) ∈ s.fates := by
  have hfields : (panicSecond.foldlM State.step (State.start 2 (some 1))).map
      (fun s => (s.caller, s.branches[1]?)) =
        some (.returned (.raised 1 7), some (.ended (.panicked 7) [])) := by decide
  obtain ⟨s, hs, hfields⟩ := Option.map_eq_some_iff.1 hfields
  obtain ⟨hcaller, hbranch⟩ := Prod.mk.inj hfields
  have hrun : Run (fun a e b => State.step a e = some b) (State.start 2 (some 1)) panicSecond s :=
    Run.iff_foldlM.2 hs
  obtain ⟨hreturned, ⟨_, _, hsettled⟩, _⟩ := parallel_collects hrun
  exact ⟨s, hrun, hcaller, ((hreturned _ hcaller).2.2.2 1 7 rfl).2, hsettled _ 1 7 hcaller hbranch⟩

/-- The dispatcher waits for a slot while the caller waits for the only running task. -/
theorem dispatcher_waits : ∃ s : State ℕ ℕ ℕ,
    Run (fun a e b => a.step e = some b) (State.start 2 (some 1))
      [.dispatcher false, .dispatcher false] s ∧
    (s.step .caller).isSome = false ∧ s.dispatcher ≠ .finished ∧
    (s.step (.dispatcher true)).isSome = false ∧ (s.step (.dispatcher false)).isSome = false := by
  have hfields : (([.dispatcher false, .dispatcher false] : List (Event ℕ ℕ ℕ)).foldlM State.step
      (State.start 2 (some 1))).map (fun s => ((s.step .caller).isSome, s.dispatcher,
        (s.step (.dispatcher true)).isSome, (s.step (.dispatcher false)).isSome)) =
      some (false, .selecting 1, false, false) := by decide
  obtain ⟨s, hs, hfields⟩ := Option.map_eq_some_iff.1 hfields
  obtain ⟨hcaller, hrest⟩ := Prod.mk.inj hfields
  obtain ⟨hdispatcher, hrest⟩ := Prod.mk.inj hrest
  obtain ⟨htrue, hfalse⟩ := Prod.mk.inj hrest
  refine ⟨s, Run.iff_foldlM.2 hs, hcaller, ?_, htrue, hfalse⟩
  rw [hdispatcher]
  simp

end Sky.Parallel
