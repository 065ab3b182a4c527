import Sky.Verification.Parallel.Books

/-! # Each panic is re-raised or logged -/

namespace Sky.Parallel

open Library

variable {V E P : Type} {s t : State V E P} {i : ℕ} {p : P}

def Outcome.panic : Outcome V E P → Option (ℕ × P)
  | .raised i p => some (i, p)
  | .ok _ | .err _ => none

/-- The panic that the caller re-raises. -/
def Caller.raised : Caller V E P → Option (ℕ × P)
  | .finishing o | .draining o | .closing o | .returned o => o.panic
  | .launching _ | .collecting _ _ => none

/-- The panics that were logged, and the one that is re-raised. -/
def State.fates (s : State V E P) : List (ℕ × P) := s.logged ++ s.caller.raised.toList

/-- The panic of a branch that has nothing left to do about it. -/
def Branch.settled : Branch V E P → Option P
  | .ended (.panicked p) todo => if .send ∈ todo ∨ .log ∈ todo then none else some p
  | _ => none

structure Fates (s : State V E P) : Prop where
  once : (s.fates.map Prod.fst).Nodup
  mem_iff : ∀ i p, (i, p) ∈ s.fates ↔
    (∃ b, s.branches[i]? = some b ∧ b.settled = some p) ∧ (i, .panicked p) ∉ s.ch
  /-- What is left to be logged could not be sent. -/
  late : ∀ (i : ℕ) r todo, s.branches[i]? = some (Branch.ended r todo) → .log ∈ todo →
    s.gone = true ∧ ∀ q, (i, q) ∉ s.ch

namespace Fates

theorem same (h : Fates s) (hfates : t.fates = s.fates) (hbranches : t.branches = s.branches)
    (hch : ∀ i p, (i, Result.panicked p) ∈ t.ch ↔ (i, Result.panicked p) ∈ s.ch)
    (hsub : t.ch ⊆ s.ch) (hgone : s.gone = true → t.gone = true) : Fates t where
  once := hfates ▸ h.once
  mem_iff i p := by rw [hfates, hbranches, hch, h.mem_iff]
  late i r todo hi hlog := by
    obtain ⟨hg, habsent⟩ := h.late i r todo (hbranches ▸ hi) hlog
    exact ⟨hgone hg, fun q hq => habsent q (hsub hq)⟩

/-- Only the caller moves on, to the same outcome. -/
theorem caller (h : Fates s) (hfates : t.fates = s.fates) (hbranches : t.branches = s.branches)
    (hch : t.ch = s.ch) (hgone : s.gone = true → t.gone = true) : Fates t :=
  h.same hfates hbranches (fun i p => by rw [hch]) (hch ▸ List.Subset.refl _) hgone

/-- What a branch is left with, after a move. -/
structure Late (s : State V E P) (i : ℕ) (b' : Branch V E P) : Prop where
  late : ∀ r todo, b' = .ended r todo → .log ∈ todo → s.gone = true ∧ ∀ q, (i, q) ∉ s.ch

theorem late_set (h : Fates s) {b' : Branch V E P} (hbranches : t.branches = s.branches.set i b')
    (hlate : Late s i b') (hch : t.ch = s.ch) (hgone : t.gone = s.gone) :
    ∀ (j : ℕ) r todo, t.branches[j]? = some (Branch.ended r todo) → .log ∈ todo →
      t.gone = true ∧ ∀ q, (j, q) ∉ t.ch := by
  intro j r todo hj hlog
  rw [hbranches] at hj
  rw [hch, hgone]
  rcases getElem?_set_cases hj with ⟨rfl, heq⟩ | ⟨_, hj⟩
  · exact hlate.late r todo heq.symm hlog
  · exact h.late j r todo hj hlog

/-- A branch moves that is settled after it as before. -/
theorem move (h : Fates s) {b b' : Branch V E P} (hi : s.branches[i]? = some b)
    (hb : b'.settled = b.settled) (hlate : Late s i b') (hfates : t.fates = s.fates)
    (hbranches : t.branches = s.branches.set i b') (hch : t.ch = s.ch) (hgone : t.gone = s.gone) :
    Fates t where
  once := hfates ▸ h.once
  mem_iff j q := by
    have hlt := (List.getElem?_eq_some_iff.1 hi).1
    rw [hfates, hch, h.mem_iff, hbranches]
    refine and_congr_left fun _ => ?_
    constructor
    · rintro ⟨c, hc, hq⟩
      by_cases hij : i = j
      · subst hij
        obtain rfl := Option.some.inj (hi.symm.trans hc)
        exact ⟨b', List.getElem?_set_self hlt, hb.trans hq⟩
      · exact ⟨c, (List.getElem?_set_ne hij).trans hc, hq⟩
    · rintro ⟨c, hc, hq⟩
      rcases getElem?_set_cases hc with ⟨rfl, rfl⟩ | ⟨_, hc⟩
      · exact ⟨b, hi, hb.symm.trans hq⟩
      · exact ⟨c, hc, hq⟩
  late := h.late_set hbranches hlate hch hgone

/-- An outcome is put into the channel. -/
theorem deliver (h : Fates s) {r : Result V E P} {b : Branch V E P} {rest : List Todo}
    (hi : s.branches[i]? = some b) (hb : b.settled = none) (hrest : .log ∉ rest)
    (hgone : s.gone = false) (hfates : t.fates = s.fates)
    (hbranches : t.branches = s.branches.set i (.ended r rest)) (hch : t.ch = s.ch ++ [(i, r)]) :
    Fates t where
  once := hfates ▸ h.once
  mem_iff j q := by
    have hlt := (List.getElem?_eq_some_iff.1 hi).1
    rw [hfates, h.mem_iff, hbranches, hch, List.mem_append, List.mem_singleton, not_or]
    constructor
    · rintro ⟨⟨c, hc, hq⟩, hnot⟩
      have hij : i ≠ j := by
        rintro rfl
        obtain rfl := Option.some.inj (hi.symm.trans hc)
        rw [hb] at hq
        cases hq
      refine ⟨⟨c, (List.getElem?_set_ne hij).trans hc, hq⟩, hnot, ?_⟩
      intro heq
      exact hij (Prod.mk.inj heq).1.symm
    · rintro ⟨⟨c, hc, hq⟩, hnot, hne⟩
      rcases getElem?_set_cases hc with ⟨rfl, rfl⟩ | ⟨_, hc⟩
      · unfold Branch.settled at hq
        split at hq
        · next p todo heq =>
            obtain ⟨rfl, rfl⟩ := Branch.ended.inj heq
            split at hq
            · cases hq
            · obtain rfl := Option.some.inj hq
              exact absurd rfl hne
        · cases hq
      · exact ⟨⟨c, hc, hq⟩, hnot⟩
  late j q todo hj hlog := by
    rw [hbranches] at hj
    rcases getElem?_set_cases hj with ⟨_, heq⟩ | ⟨_, hj⟩
    · obtain ⟨_, rfl⟩ := Branch.ended.inj heq
      exact absurd hlog hrest
    · have hg := (h.late j q todo hj hlog).1
      rw [hgone] at hg
      cases hg

/-- A new fate is that of a panic which had none. -/
theorem once_snoc (h : Fates s) (hperm : t.fates.Perm (s.fates ++ [(i, p)]))
    (hnew : ∀ q, (i, q) ∉ s.fates) : (t.fates.map Prod.fst).Nodup := by
  rw [(hperm.map Prod.fst).nodup_iff, List.map_append, List.nodup_append]
  refine ⟨h.once, List.nodup_singleton _, ?_⟩
  rintro j hj k hk rfl
  obtain rfl : j = i := by simpa using hk
  obtain ⟨⟨_, q⟩, hmem, rfl⟩ := List.mem_map.1 hj
  exact hnew q hmem

/-- The caller takes a panic out of the channel. -/
theorem take (h : Fates s) (hsent : Sent s) {ch : List (ℕ × Result V E P)}
    (hhead : s.ch = (i, .panicked p) :: ch)
    (hperm : t.fates.Perm (s.fates ++ [(i, p)])) (hbranches : t.branches = s.branches)
    (hch : t.ch = ch) (hgone : t.gone = s.gone) : Fates t := by
  have hmem : (i, Result.panicked p) ∈ s.taken ++ s.ch := by simp [hhead]
  obtain ⟨b, hi, hdelivered⟩ := hsent.known i _ hmem
  have hrest : ∀ q, (i, q) ∉ ch := by
    have hnodup := hsent.once
    rw [hhead, List.map_append, List.map_cons, List.nodup_append, List.nodup_cons] at hnodup
    intro q hq
    exact hnodup.2.1.1 (List.mem_map.2 ⟨_, hq, rfl⟩)
  have hsettled : b.settled = some p := by
    unfold Branch.delivered at hdelivered
    split at hdelivered
    · next r todo =>
        split at hdelivered
        · cases hdelivered
        · next hsend =>
            obtain rfl := Option.some.inj hdelivered
            have hlog : Todo.log ∉ todo := by
              intro hlog
              exact (h.late i _ todo hi hlog).2 (.panicked p) (by simp [hhead])
            simp [Branch.settled, hsend, hlog]
    · cases hdelivered
    · cases hdelivered
  refine ⟨h.once_snoc hperm ?_, ?_, ?_⟩
  · intro q hq
    obtain ⟨⟨c, hc, hcq⟩, hnot⟩ := (h.mem_iff i q).1 hq
    obtain rfl := Option.some.inj (hi.symm.trans hc)
    obtain rfl := Option.some.inj (hsettled.symm.trans hcq)
    exact hnot (by simp [hhead])
  · intro j q
    rw [hperm.mem_iff, List.mem_append, List.mem_singleton, h.mem_iff, hbranches, hch, hhead,
      List.mem_cons, not_or]
    constructor
    · rintro (⟨hset, _, hnot⟩ | heq)
      · exact ⟨hset, hnot⟩
      · obtain ⟨rfl, rfl⟩ := Prod.mk.inj heq
        exact ⟨⟨b, hi, hsettled⟩, hrest _⟩
    · rintro ⟨⟨c, hc, hq⟩, hnot⟩
      by_cases hij : j = i
      · subst hij
        obtain rfl := Option.some.inj (hi.symm.trans hc)
        obtain rfl := Option.some.inj (hsettled.symm.trans hq)
        exact .inr rfl
      · exact .inl ⟨⟨c, hc, hq⟩, fun heq => hij (Prod.mk.inj heq).1, hnot⟩
  · intro j r todo hj hlog
    obtain ⟨hg, habsent⟩ := h.late j r todo (hbranches ▸ hj) hlog
    rw [hgone, hch]
    exact ⟨hg, fun q hq => habsent q (by rw [hhead]; exact List.mem_cons_of_mem _ hq)⟩

/-- A branch logs its panic itself. -/
theorem log (h : Fates s) {rest : List Todo} (hshape : Shape s)
    (hi : s.branches[i]? = some (.ended (.panicked p) (.log :: rest)))
    (hperm : t.fates.Perm (s.fates ++ [(i, p)]))
    (hbranches : t.branches = s.branches.set i (.ended (.panicked p) rest)) (hch : t.ch = s.ch)
    (hgone : t.gone = s.gone) : Fates t := by
  have hlt := (List.getElem?_eq_some_iff.1 hi).1
  have htodo := hshape i _ _ hi
  have hlog : Todo.log ∉ rest := htodo.head
  have hsend : Todo.send ∉ rest := fun hsend =>
    htodo.apart (List.mem_cons_of_mem _ hsend) (List.mem_cons_self ..)
  have hlate := h.late i _ _ hi (List.mem_cons_self ..)
  refine ⟨h.once_snoc hperm ?_, ?_, h.late_set hbranches ⟨?_⟩ hch hgone⟩
  · intro q hq
    obtain ⟨⟨c, hc, hcq⟩, _⟩ := (h.mem_iff i q).1 hq
    obtain rfl := Option.some.inj (hi.symm.trans hc)
    simp [Branch.settled] at hcq
  · intro j q
    rw [hperm.mem_iff, List.mem_append, List.mem_singleton, h.mem_iff, hbranches, hch]
    constructor
    · rintro (⟨⟨c, hc, hq⟩, hnot⟩ | heq)
      · have hij : i ≠ j := by
          rintro rfl
          obtain rfl := Option.some.inj (hi.symm.trans hc)
          simp [Branch.settled] at hq
        exact ⟨⟨c, (List.getElem?_set_ne hij).trans hc, hq⟩, hnot⟩
      · obtain ⟨rfl, rfl⟩ := Prod.mk.inj heq
        exact ⟨⟨_, List.getElem?_set_self hlt, by simp [Branch.settled, hlog, hsend]⟩, hlate.2 _⟩
    · rintro ⟨⟨c, hc, hq⟩, hnot⟩
      rcases getElem?_set_cases hc with ⟨rfl, rfl⟩ | ⟨_, hc⟩
      · have hp : p = q := by simpa [Branch.settled, hlog, hsend] using hq
        subst hp
        exact .inr rfl
      · exact .inl ⟨⟨c, hc, hq⟩, hnot⟩
  · intro r todo heq hmem
    obtain ⟨_, rfl⟩ := Branch.ended.inj heq
    exact absurd hmem hlog

end Fates

/-! ## Steps -/

theorem Branch.settled_of_not_panic {r : Result V E P} (hr : ∀ p, r ≠ .panicked p)
    (todo : List Todo) : (Branch.ended r todo).settled = none := by
  cases r with
  | ok v => rfl
  | err e => rfl
  | panicked p => exact absurd rfl (hr p)

theorem Branch.settled_send (r : Result V E P) {todo : List Todo} (hsend : .send ∈ todo) :
    (Branch.ended r todo).settled = none := by
  cases r with
  | ok v => rfl
  | err e => rfl
  | panicked p => simp [Branch.settled, hsend]

theorem Branch.settled_release (r : Result V E P) (rest : List Todo) :
    (Branch.ended r rest).settled = (Branch.ended r (.release :: rest)).settled := by
  cases r with
  | ok v => rfl
  | err e => rfl
  | panicked p => simp [Branch.settled]

theorem State.log_not_mem_todo (s : State V E P) (r : Result V E P) : .log ∉ s.todo r := by
  unfold State.todo
  cases s.limit with
  | none => simp
  | some lim => cases r <;> simp

theorem Fates.late_of_not_ended {b : Branch V E P} (hb : ∀ r todo, b ≠ .ended r todo) :
    Fates.Late s i b where
  late r todo heq := absurd heq (hb r todo)

/-- A branch that has one thing less to do. -/
theorem Fates.late_tail (h : Fates s) {r : Result V E P} {a : Todo} {rest : List Todo}
    (hi : s.branches[i]? = some (.ended r (a :: rest))) : Fates.Late s i (.ended r rest) where
  late r' todo heq hlog := by
    obtain ⟨rfl, rfl⟩ := Branch.ended.inj heq
    exact h.late i _ _ hi (List.mem_cons_of_mem _ hlog)

theorem Fates.caller_step (h : Fates s) (hstarted : Started s) (hsent : Sent s)
    (hstep : CallerStep s t) : Fates t := by
  cases hstep with
  | launch i hcaller hi =>
      have hidle := (hstarted.idle i).2 ⟨(hstarted.launching i hcaller).1.ge, hi⟩
      have hsettled : (Branch.running : Branch V E P).settled = (Branch.idle : Branch V E P).settled :=
        rfl
      refine h.move hidle hsettled (Fates.late_of_not_ended (by simp)) ?_ rfl rfl rfl
      simp [State.fates, State.launch, State.setBranch, hcaller, Caller.raised]
  | launched i hcaller hi =>
      exact h.caller (by simp [State.fates, hcaller, Caller.raised]) rfl rfl id
  | receive received results i r ch hcaller hlt hch =>
      cases r with
      | ok v =>
          refine h.same ?_ rfl (by simp [hch]) (by simp [hch]) id
          simp [State.fates, hcaller, Caller.raised, State.receive]
      | err e =>
          refine h.same ?_ rfl (by simp [hch]) (by simp [hch]) id
          simp [State.fates, hcaller, Caller.raised, State.receive, Outcome.panic]
      | panicked p =>
          refine h.take hsent hch ?_ rfl rfl rfl
          simp [State.fates, hcaller, Caller.raised, State.receive, Outcome.panic]
  | complete received results hcaller hle =>
      exact h.caller (by simp [State.fates, hcaller, Caller.raised, Outcome.panic]) rfl rfl id
  | leave o hcaller =>
      exact h.caller (by simp [State.fates, hcaller, Caller.raised]) rfl rfl fun _ => rfl
  | drain o i r ch hcaller hch hr =>
      refine h.same rfl rfl ?_ (by simp [hch]) id
      intro j p
      have hne : (j, Result.panicked p) ≠ (i, r) := fun heq => hr p (Prod.mk.inj heq).2.symm
      simp [hch, hne]
  | drainPanic o i p ch hcaller hch =>
      refine h.take hsent hch ?_ rfl rfl rfl
      simp only [State.fates, List.append_assoc]
      exact List.Perm.append_left _ List.perm_append_comm
  | drained o hcaller hch hlimit =>
      exact h.caller (by simp [State.fates, hcaller, Caller.raised]) rfl rfl id
  | drainedN o hcaller hch hlimit =>
      exact h.caller (by simp [State.fates, hcaller, Caller.raised]) rfl rfl id
  | close o hcaller =>
      exact h.caller (by simp [State.fates, hcaller, Caller.raised]) rfl rfl id

theorem Fates.step (h : Fates s) (hstarted : Started s) (hshape : Shape s) (hsent : Sent s)
    (hstep : Stepped s t) : Fates t := by
  cases hstep with
  | caller hstep => exact h.caller_step hstarted hsent hstep
  | dispatcher hstep =>
      cases hstep with
      | stopped => exact h.caller rfl rfl rfl id
      | acquire => exact h.caller rfl rfl rfl id
      | complete => exact h.caller rfl rfl rfl id
      | late => exact h.caller rfl rfl rfl id
      | launch i hdispatcher hgone =>
          obtain ⟨hle, hi⟩ := hstarted.acquired i hdispatcher
          have hsettled : (Branch.running : Branch V E P).settled =
            (Branch.idle : Branch V E P).settled := rfl
          exact h.move ((hstarted.idle i).2 ⟨hle.ge, hi⟩) hsettled
            (Fates.late_of_not_ended (by simp)) rfl rfl rfl rfl
      | leave => exact h.caller rfl rfl rfl id
  | finish i r hi =>
      refine h.move hi (Branch.settled_send r (s.send_mem_todo r)) ⟨?_⟩ rfl rfl rfl rfl
      intro r' todo heq hlog
      obtain ⟨rfl, rfl⟩ := Branch.ended.inj heq
      exact absurd hlog (s.log_not_mem_todo _)
  | branch i r a rest hi hstep =>
      have htodo := hshape i r _ hi
      cases hstep with
      | delivered hgone hroom =>
          exact h.deliver hi (Branch.settled_send r (List.mem_cons_self ..)) htodo.not_log hgone rfl
            rfl rfl
      | refused hgone p hr =>
          subst hr
          have hb : (Branch.ended (.panicked p) (.log :: rest) : Branch V E P).settled =
              (Branch.ended (.panicked p) (.send :: rest) : Branch V E P).settled := by
            simp [Branch.settled]
          refine h.move hi hb ⟨fun _ _ _ _ => ⟨hgone, fun q hq => ?_⟩⟩ rfl rfl rfl rfl
          exact hsent.absent hi (by simp [Branch.delivered]) q (List.mem_append_right _ hq)
      | dropped hgone hr =>
          have hb := (Branch.settled_of_not_panic hr rest).trans
            (Branch.settled_of_not_panic hr (.send :: rest)).symm
          exact h.move hi hb (h.late_tail hi) rfl rfl rfl rfl
      | released hslots =>
          exact h.move hi (Branch.settled_release r rest) (h.late_tail hi) rfl rfl rfl rfl
      | logged p hr =>
          subst hr
          refine h.log hshape hi ?_ rfl rfl rfl
          simp only [State.fates, State.setBranch, List.append_assoc]
          exact List.Perm.append_left _ List.perm_append_comm
      | silent hr =>
          have hb := (Branch.settled_of_not_panic hr rest).trans
            (Branch.settled_of_not_panic hr (.log :: rest)).symm
          exact h.move hi hb (h.late_tail hi) rfl rfl rfl rfl

end Sky.Parallel
