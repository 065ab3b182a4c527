import Sky.Verification.Parallel.Books
import Sky.Verification.Parallel.Panics

/-! # The caller returns what the branches came to

No more branches have a slot than there are slots, and the outcomes that the caller collects are
those of its branches. -/

namespace Sky.Parallel

open Library

/-! ## Slots -/

section

variable {V E P : Type} {s t : State V E P} {i : ℕ}

/-- A branch that has a slot: its task runs, or it has not released yet. -/
def Branch.holds : Branch V E P → Bool
  | .idle => false
  | .running => true
  | .ended _ todo => .release ∈ todo

def Dispatcher.holds : Dispatcher → ℕ
  | .acquired _ | .leaving => 1
  | .selecting _ | .finished => 0

/-- The slots in use are those of the branches and of the dispatcher. -/
structure Slots (s : State V E P) (lim : ℕ) : Prop where
  limit : s.limit = some lim
  pos : 0 < lim
  le : s.slots ≤ lim
  count : s.slots = s.branches.countP Branch.holds + s.dispatcher.holds

namespace Slots

variable {lim : ℕ}

/-- Nothing about the slots changes. -/
theorem same (h : Slots s lim) (hlimit : t.limit = s.limit) (hslots : t.slots = s.slots)
    (hbranches : t.branches = s.branches) (hdispatcher : t.dispatcher.holds = s.dispatcher.holds) :
    Slots t lim where
  limit := hlimit.trans h.limit
  pos := h.pos
  le := hslots ▸ h.le
  count := by rw [hslots, hbranches, hdispatcher, h.count]

/-- A branch moves and holds its slot as before. -/
theorem move (h : Slots s lim) {b b' : Branch V E P} (hi : s.branches[i]? = some b)
    (hb : b'.holds = b.holds) (hlimit : t.limit = s.limit) (hslots : t.slots = s.slots)
    (hbranches : t.branches = s.branches.set i b')
    (hdispatcher : t.dispatcher.holds = s.dispatcher.holds) : Slots t lim where
  limit := hlimit.trans h.limit
  pos := h.pos
  le := hslots ▸ h.le
  count := by
    have hcount := countP_set_add (p := Branch.holds) hi b'
    have hold := h.count
    rw [hb] at hcount
    rw [hslots, hbranches, hdispatcher]
    omega

theorem holds_tail (r : Result V E P) {a : Todo} {rest : List Todo} (ha : a ≠ .release) :
    (Branch.ended r rest).holds = (Branch.ended r (a :: rest)).holds := by
  simp [Branch.holds, Ne.symm ha]

theorem step (h : Slots s lim) (hstarted : Started s) (hshape : Shape s) (hstep : Stepped s t) :
    Slots t lim := by
  have hsome : s.limit ≠ none := by simp [h.limit]
  cases hstep with
  | caller hstep =>
      cases hstep with
      | launch i hcaller hi => exact absurd (hstarted.launching i hcaller).2 hsome
      | launched => exact h.same rfl rfl rfl rfl
      | receive => exact h.same rfl rfl rfl rfl
      | complete => exact h.same rfl rfl rfl rfl
      | leave => exact h.same rfl rfl rfl rfl
      | drain => exact h.same rfl rfl rfl rfl
      | drainPanic => exact h.same rfl rfl rfl rfl
      | drained => exact h.same rfl rfl rfl rfl
      | drainedN => exact h.same rfl rfl rfl rfl
      | close => exact h.same rfl rfl rfl rfl
  | dispatcher hstep =>
      have hcount := h.count
      cases hstep with
      | stopped i hdispatcher hstop => exact h.same rfl rfl rfl (by simp [hdispatcher, Dispatcher.holds])
      | acquire i hdispatcher hi hslots =>
          rw [h.limit] at hslots
          rw [hdispatcher] at hcount
          refine ⟨h.limit, h.pos, hslots, ?_⟩
          simpa [Dispatcher.holds] using hcount
      | complete i hdispatcher hi => exact h.same rfl rfl rfl (by simp [hdispatcher, Dispatcher.holds])
      | late i hdispatcher hgone => exact h.same rfl rfl rfl (by simp [hdispatcher, Dispatcher.holds])
      | launch i hdispatcher hgone =>
          obtain ⟨hle, hi⟩ := hstarted.acquired i hdispatcher
          have hset := countP_set_add (p := Branch.holds) ((hstarted.idle i).2 ⟨hle.ge, hi⟩) .running
          refine ⟨h.limit, h.pos, h.le, ?_⟩
          change s.slots = (s.branches.set i .running).countP Branch.holds + 0
          simp only [hdispatcher, Dispatcher.holds] at hcount
          simp only [Branch.holds, Bool.toNat_false, Bool.toNat_true] at hset
          omega
      | leave hdispatcher hslots =>
          have hle := h.le
          refine ⟨h.limit, h.pos, ?_, ?_⟩
          · change s.slots - 1 ≤ lim
            omega
          · change s.slots - 1 = s.branches.countP Branch.holds + 0
            simp only [hdispatcher, Dispatcher.holds] at hcount
            omega
  | finish i r hi =>
      refine h.move hi ?_ rfl rfl rfl rfl
      cases r <;> simp [Branch.holds, State.todo, h.limit]
  | branch i r a rest hi hstep =>
      cases hstep with
      | delivered => exact h.move hi (holds_tail r (by simp)) rfl rfl rfl rfl
      | refused hgone p hr =>
          have hb : (Branch.ended r (.log :: rest)).holds = (Branch.ended r (.send :: rest)).holds := by
            simp [Branch.holds]
          exact h.move hi hb rfl rfl rfl rfl
      | dropped => exact h.move hi (holds_tail r (by simp)) rfl rfl rfl rfl
      | released hslots =>
          have hrest : Todo.release ∉ rest := (hshape i r _ hi).head
          have hset := countP_set_add (p := Branch.holds) hi (.ended r rest)
          have hcount := h.count
          have hle := h.le
          refine ⟨h.limit, h.pos, ?_, ?_⟩
          · change s.slots - 1 ≤ lim
            omega
          · change s.slots - 1 = (s.branches.set i (.ended r rest)).countP Branch.holds +
              s.dispatcher.holds
            have hold : (Branch.ended r (.release :: rest)).holds.toNat = 1 := by simp [Branch.holds]
            have hnew : (Branch.ended r rest).holds.toNat = 0 := by simp [Branch.holds, hrest]
            rw [hold, hnew] at hset
            omega
      | logged => exact h.move hi (holds_tail r (by simp)) rfl rfl rfl rfl
      | silent => exact h.move hi (holds_tail r (by simp)) rfl rfl rfl rfl

end Slots

end

variable {V E P : Type} {s t : State V E P} {i : ℕ}

/-! ## What the caller has collected -/

/-- The outcomes so far are values, and stand in their places. -/
structure Collected (n : ℕ) (l : List (ℕ × Result V E P)) (results : List (Option V)) : Prop where
  length : results.length = n
  oks : ∀ x ∈ l, ∃ v, x.2 = .ok v
  places : ∀ i v, (i, .ok v) ∈ l → results[i]? = some (some v)

/-- The outcome that the caller makes of what it collected. -/
inductive Settled (n : ℕ) : List (ℕ × Result V E P) → Outcome V E P → Prop where
  | ok (l results) (h : Collected n l results) (hlength : l.length = n) :
      Settled n l (.ok results)
  | err (oks i e) (hoks : ∀ x ∈ oks, ∃ v, x.2 = Result.ok v) :
      Settled n (oks ++ [(i, .err e)]) (.err e)
  | raised (oks i p) (hoks : ∀ x ∈ oks, ∃ v, x.2 = Result.ok v) :
      Settled n (oks ++ [(i, .panicked p)]) (.raised i p)

/-- What the caller knows where it stands. -/
inductive Stands (s : State V E P) : Caller V E P → Prop where
  | launching (i : ℕ) (hgone : s.gone = false) (htaken : s.taken = []) : Stands s (.launching i)
  | collecting (results : List (Option V)) (hgone : s.gone = false)
      (h : Collected s.branches.length s.taken results) :
      Stands s (.collecting s.taken.length results)
  | finishing (o : Outcome V E P) (hgone : s.gone = false)
      (h : Settled s.branches.length s.taken o) : Stands s (.finishing o)
  | draining (o : Outcome V E P) (hgone : s.gone = true)
      (h : ∃ l, l <+: s.taken ∧ Settled s.branches.length l o) : Stands s (.draining o)
  | closing (o : Outcome V E P) (hgone : s.gone = true) (hch : s.ch = []) (hlimit : s.limit ≠ none)
      (h : ∃ l, l <+: s.taken ∧ Settled s.branches.length l o) : Stands s (.closing o)
  | returned (o : Outcome V E P) (hgone : s.gone = true ∨ s.branches = []) (hch : s.ch = [])
      (hstop : s.limit ≠ none → s.stop = true ∨ s.branches = [])
      (h : ∃ l, l <+: s.taken ∧ Settled s.branches.length l o) : Stands s (.returned o)

/-- Everything but the caller may change, as far as the caller does not see it. -/
theorem Stands.same {c : Caller V E P} (h : Stands s c) (htaken : t.taken = s.taken)
    (hlength : t.branches.length = s.branches.length) (hgone : t.gone = s.gone)
    (hch : s.gone = true ∨ s.branches = [] → t.ch = s.ch) (hlimit : t.limit = s.limit)
    (hstop : t.stop = s.stop) : Stands t c := by
  have hnil : s.branches = [] → t.branches = [] := by
    intro hnil
    rw [hnil] at hlength
    exact List.eq_nil_of_length_eq_zero hlength
  cases h with
  | launching i hg ht => exact .launching i (hgone.trans hg) (htaken.trans ht)
  | collecting results hg h =>
      rw [← htaken]
      refine .collecting results (hgone.trans hg) ?_
      rw [htaken, hlength]
      exact h
  | finishing o hg h =>
      refine .finishing o (hgone.trans hg) ?_
      rw [htaken, hlength]
      exact h
  | draining o hg h =>
      refine .draining o (hgone.trans hg) ?_
      rw [htaken, hlength]
      exact h
  | closing o hg hc hl h =>
      refine .closing o (hgone.trans hg) ((hch (.inl hg)).trans hc) (hlimit ▸ hl) ?_
      rw [htaken, hlength]
      exact h
  | returned o hg hc hs h =>
      refine .returned o (hg.imp hgone.trans hnil) ((hch hg).trans hc) ?_ ?_
      · rw [hlimit, hstop]
        exact fun hne => (hs hne).imp id hnil
      · rw [htaken, hlength]
        exact h

/-! ## The branches behind an outcome -/

/-- The task of a branch has ended so. -/
def State.Came (s : State V E P) (i : ℕ) (r : Result V E P) : Prop :=
  ∃ todo, s.branches[i]? = some (.ended r todo)

theorem Branch.ended_of_delivered {b : Branch V E P} {r : Result V E P}
    (h : b.delivered = some r) : ∃ todo, b = .ended r todo := by
  cases b with
  | idle => cases h
  | running => cases h
  | ended q todo =>
      simp only [Branch.delivered] at h
      split at h
      · cases h
      · obtain rfl := Option.some.inj h
        exact ⟨todo, rfl⟩

theorem Sent.came (h : Sent s) {r : Result V E P} (hmem : (i, r) ∈ s.taken ++ s.ch) :
    s.Came i r := by
  obtain ⟨b, hi, hr⟩ := h.known i r hmem
  obtain ⟨todo, rfl⟩ := Branch.ended_of_delivered hr
  exact ⟨todo, hi⟩

theorem State.Came.unique {r q : Result V E P} (h : s.Came i r) (h' : s.Came i q) : r = q := by
  obtain ⟨todo, hi⟩ := h
  obtain ⟨todo', hi'⟩ := h'
  exact (Branch.ended.inj (Option.some.inj (hi.symm.trans hi'))).1

theorem State.Came.lt {r : Result V E P} (h : s.Came i r) : i < s.branches.length := by
  obtain ⟨todo, hi⟩ := h
  exact (List.getElem?_eq_some_iff.1 hi).1

/-- Outcomes of different branches: there are no more of them than branches. -/
theorem Sent.length_le (h : Sent s) {l : List (ℕ × Result V E P)} (hl : l <+: s.taken) :
    (l.map Prod.fst).Nodup ∧ l.map Prod.fst ⊆ List.range s.branches.length := by
  have hsub : l.Sublist (s.taken ++ s.ch) := hl.sublist.trans (List.sublist_append_left ..)
  refine ⟨h.once.sublist (hsub.map _), ?_⟩
  intro j hj
  obtain ⟨⟨_, r⟩, hmem, rfl⟩ := List.mem_map.1 hj
  exact List.mem_range.2 (h.came (hsub.subset hmem)).lt

/-- As many outcomes as branches are the outcomes of all branches. -/
theorem Sent.complete (h : Sent s) {l : List (ℕ × Result V E P)} (hl : l <+: s.taken)
    (hlength : s.branches.length ≤ l.length) (hi : i < s.branches.length) : ∃ r, (i, r) ∈ l := by
  obtain ⟨hnodup, hsub⟩ := h.length_le hl
  have hperm : (l.map Prod.fst).Perm (List.range s.branches.length) := by
    refine (hnodup.subperm hsub).perm_of_length_le ?_
    simpa using hlength
  obtain ⟨⟨_, r⟩, hmem, rfl⟩ := List.mem_map.1 (hperm.mem_iff.2 (List.mem_range.2 hi))
  exact ⟨r, hmem⟩

/-! ## Steps -/

theorem Collected.nil (n : ℕ) :
    Collected n ([] : List (ℕ × Result V E P)) (List.replicate n (none : Option V)) where
  length := List.length_replicate
  oks := by simp
  places := by simp

/-- One more value. -/
theorem Collected.snoc {n : ℕ} {l : List (ℕ × Result V E P)} {results : List (Option V)}
    (h : Collected n l results) (hi : i < n) (hnew : ∀ r, (i, r) ∉ l) (v : V) :
    Collected n (l ++ [(i, .ok v)]) (results.set i (some v)) where
  length := by rw [List.length_set, h.length]
  oks x hx := by
    rcases List.mem_append.1 hx with hx | hx
    · exact h.oks x hx
    · obtain rfl := List.mem_singleton.1 hx
      exact ⟨v, rfl⟩
  places j w hmem := by
    rcases List.mem_append.1 hmem with hmem | hmem
    · have hij : i ≠ j := by
        rintro rfl
        exact hnew _ hmem
      rw [List.getElem?_set_ne hij]
      exact h.places j w hmem
    · obtain ⟨rfl, heq⟩ := Prod.mk.inj (List.mem_singleton.1 hmem)
      obtain rfl := Result.ok.inj heq
      exact List.getElem?_set_self (hi.trans_eq h.length.symm)

/-- The caller goes on to take what is left. -/
theorem prefix_taken {x : ℕ × Result V E P} {o : Outcome V E P}
    (h : ∃ l, l <+: s.taken ∧ Settled s.branches.length l o) :
    ∃ l, l <+: s.taken ++ [x] ∧ Settled s.branches.length l o := by
  obtain ⟨l, hl, ho⟩ := h
  exact ⟨l, hl.trans (List.prefix_append ..), ho⟩

theorem Stands.receive (h : Stands s s.caller) (hsent : Sent s) {received : ℕ}
    {results : List (Option V)} {r : Result V E P} {ch : List (ℕ × Result V E P)}
    (hcaller : s.caller = .collecting received results) (hch : s.ch = (i, r) :: ch)
    (htaken : t.taken = s.taken ++ [(i, r)]) (hbranches : t.branches = s.branches)
    (hgone' : t.gone = s.gone) : Stands t (State.receive received results i r) := by
  have hmem : (i, r) ∈ s.taken ++ s.ch := by simp [hch]
  have hnew : ∀ q, (i, q) ∉ s.taken := by
    have hnodup := hsent.once
    rw [hch, List.map_append, List.nodup_append] at hnodup
    intro q hq
    exact hnodup.2.2 i (List.mem_map.2 ⟨_, hq, rfl⟩) i (by simp) rfl
  have hlength : t.taken.length = s.taken.length + 1 := by rw [htaken]; simp
  rw [hcaller] at h
  cases h with
  | collecting _ hgone h =>
      cases r with
      | ok v =>
          change Stands t (.collecting (s.taken.length + 1) (results.set i (some v)))
          rw [← hlength]
          refine .collecting _ (hgone'.trans hgone) ?_
          rw [htaken, hbranches]
          exact h.snoc (hsent.came hmem).lt hnew v
      | err e =>
          refine .finishing _ (hgone'.trans hgone) ?_
          rw [htaken]
          exact .err _ _ _ h.oks
      | panicked p =>
          refine .finishing _ (hgone'.trans hgone) ?_
          rw [htaken]
          exact .raised _ _ _ h.oks

theorem Stands.caller_step (h : Stands s s.caller) (hsent : Sent s) (hstep : CallerStep s t) :
    Stands t t.caller := by
  cases hstep with
  | launch i hcaller hi =>
      rw [hcaller] at h
      cases h with
      | launching _ hgone htaken => exact .launching _ hgone htaken
  | launched i hcaller hi =>
      rw [hcaller] at h
      cases h with
      | launching _ hgone htaken =>
          have hstands := Stands.collecting (s := { s with
            caller := .collecting 0 (List.replicate s.branches.length none) })
            (List.replicate s.branches.length none) hgone (htaken ▸ Collected.nil _)
          simpa [htaken] using hstands
  | receive received results i r ch hcaller hlt hch =>
      exact h.receive hsent hcaller hch rfl rfl rfl
  | complete received results hcaller hle =>
      rw [hcaller] at h
      cases h with
      | collecting _ hgone h =>
          refine .finishing _ hgone (.ok _ _ h ?_)
          obtain ⟨hnodup, hsub⟩ := hsent.length_le (List.prefix_refl s.taken)
          have hmax := (hnodup.subperm hsub).length_le
          simp only [List.length_map, List.length_range] at hmax
          exact Nat.le_antisymm hmax hle
  | leave o hcaller =>
      rw [hcaller] at h
      cases h with
      | finishing _ hgone h => exact .draining o rfl ⟨_, List.prefix_refl _, h⟩
  | drain o i r ch hcaller hch hr =>
      change Stands _ s.caller
      rw [hcaller] at h ⊢
      cases h with
      | draining _ hgone h => exact .draining o hgone (prefix_taken h)
  | drainPanic o i p ch hcaller hch =>
      change Stands _ s.caller
      rw [hcaller] at h ⊢
      cases h with
      | draining _ hgone h => exact .draining o hgone (prefix_taken h)
  | drained o hcaller hch hlimit =>
      rw [hcaller] at h
      cases h with
      | draining _ hgone h => exact .returned o (.inl hgone) hch (fun hne => absurd hlimit hne) h
  | drainedN o hcaller hch hlimit =>
      rw [hcaller] at h
      cases h with
      | draining _ hgone h => exact .closing o hgone hch hlimit h
  | close o hcaller =>
      rw [hcaller] at h
      cases h with
      | closing _ hgone hch hlimit h => exact .returned o (.inl hgone) hch (fun _ => .inl rfl) h

theorem Stands.step (h : Stands s s.caller) (hsent : Sent s) (hstep : Stepped s t) :
    Stands t t.caller := by
  cases hstep with
  | caller hstep => exact h.caller_step hsent hstep
  | dispatcher hstep =>
      cases hstep with
      | stopped => exact h.same rfl rfl rfl (fun _ => rfl) rfl rfl
      | acquire => exact h.same rfl rfl rfl (fun _ => rfl) rfl rfl
      | complete => exact h.same rfl rfl rfl (fun _ => rfl) rfl rfl
      | late => exact h.same rfl rfl rfl (fun _ => rfl) rfl rfl
      | launch => exact h.same rfl (List.length_set ..) rfl (fun _ => rfl) rfl rfl
      | leave => exact h.same rfl rfl rfl (fun _ => rfl) rfl rfl
  | finish i r hi => exact h.same rfl (List.length_set ..) rfl (fun _ => rfl) rfl rfl
  | branch i r a rest hi hstep =>
      cases hstep with
      | delivered hgone hroom =>
          refine h.same rfl (List.length_set ..) rfl ?_ rfl rfl
          rintro (hg | hnil)
          · rw [hgone] at hg
            cases hg
          · rw [hnil] at hi
            cases hi
      | refused => exact h.same rfl (List.length_set ..) rfl (fun _ => rfl) rfl rfl
      | dropped => exact h.same rfl (List.length_set ..) rfl (fun _ => rfl) rfl rfl
      | released => exact h.same rfl (List.length_set ..) rfl (fun _ => rfl) rfl rfl
      | logged => exact h.same rfl (List.length_set ..) rfl (fun _ => rfl) rfl rfl
      | silent => exact h.same rfl (List.length_set ..) rfl (fun _ => rfl) rfl rfl

end Sky.Parallel
