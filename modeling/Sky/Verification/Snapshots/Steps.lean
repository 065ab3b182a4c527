import Sky.Library.Run
import Sky.Library.Tasks
import Sky.Model.Snapshots

/-! # What one step of a durable call does -/

namespace Sky.Snapshots

open Library

variable {M : Type} {s t : State M} {i : ℕ} {x : Input} {pc next : Pc M} {id : RunId}

/-- How a task goes on: from where, what it leaves of the state, and where to. -/
inductive Advanced (s : State M) : Pc M → State M → Pc M → Prop where
  | start (c : Call M) : Advanced s (.start c) s (s.begin c)
  | restore (id : RunId) (next : Pc M) (hnext : next = .ended ∨ next = .bootSuspend id) :
      Advanced s (.bootRestore id) s next
  | bootSuspend (id : RunId) : Advanced s (.bootSuspend id) (s.setSuspended id) .ended
  | persistRefused (id : RunId) (model : M) (n : Next) :
      Advanced s (.persistCheck id model n) s n.pc
  | persistPassed (id : RunId) (model : M) (n : Next) (hsuspended : s.suspended id = false) :
      Advanced s (.persistCheck id model n) s (.persistLock id model n)
  | persistLock (id : RunId) (model : M) (n : Next)
      (hfree : s.stripes (durableStripe id) = false) :
      Advanced s (.persistLock id model n) (s.setStripe id true) (.persistRetired id model n)
  | persistDropped (id : RunId) (model : M) (n : Next) :
      Advanced s (.persistRetired id model n) s (.persistUnlock id n)
  | persistKept (id : RunId) (model : M) (n : Next) (hretired : s.isRetired id = false) :
      Advanced s (.persistRetired id model n) s (.write id model n)
  | wrote (id : RunId) (model : M) (n : Next) :
      Advanced s (.write id model n) (s.setStore id (some model)) (.persistUnlock id n)
  | writeFailed (id : RunId) (model : M) (n : Next) :
      Advanced s (.write id model n) s (.persistUnlock id n)
  | writePanicked (id : RunId) (model : M) (n : Next) :
      Advanced s (.write id model n) s (.writeSuspend id n)
  | writeSuspend (id : RunId) (n : Next) :
      Advanced s (.writeSuspend id n) (s.setSuspended id) (.persistUnlock id n)
  | persistUnlock (id : RunId) (n : Next) :
      Advanced s (.persistUnlock id n) (s.setStripe id false) n.pc
  | retireLock (id : RunId) (hfree : s.stripes (durableStripe id) = false) :
      Advanced s (.retireLock id) (s.setStripe id true) (.mark id true)
  | marked (id : RunId) (retiring : Bool) :
      Advanced s (.mark id retiring) s (afterMark id retiring)
  | mark (id : RunId) (retiring : Bool) (now : ℤ) :
      Advanced s (.mark id retiring) (s.setRetired id (some now)) (.markCount id retiring now)
  | counted (id : RunId) (retiring : Bool) (now : ℤ) (n : ℕ) :
      Advanced s (.markCount id retiring now) { s with retiredN := n } (afterMark id retiring)
  | pruneStart (id : RunId) (retiring : Bool) (now cut : ℤ) (n : ℕ) :
      Advanced s (.markCount id retiring now) { s with retiredN := n } (.prune id retiring cut [] 0)
  | pruneNext (id : RunId) (retiring : Bool) (cut : ℤ) (seen seen' : List RunId) (kept kept' : ℕ) :
      Advanced s (.prune id retiring cut seen kept) s (.prune id retiring cut seen' kept')
  | pruneOld (id : RunId) (retiring : Bool) (cut : ℤ) (seen seen' : List RunId) (kept : ℕ)
      (k : RunId) :
      Advanced s (.prune id retiring cut seen kept) s (.pruneDelete id retiring cut seen' kept k)
  | pruneEnd (id : RunId) (retiring : Bool) (cut : ℤ) (seen : List RunId) (kept : ℕ) :
      Advanced s (.prune id retiring cut seen kept) s (.pruneCount id retiring kept)
  | pruneDelete (id : RunId) (retiring : Bool) (cut : ℤ) (seen : List RunId) (kept : ℕ)
      (k : RunId) :
      Advanced s (.pruneDelete id retiring cut seen kept k) (s.setRetired k none)
        (.prune id retiring cut seen kept)
  | pruneCount (id : RunId) (retiring : Bool) (kept n : ℕ) :
      Advanced s (.pruneCount id retiring kept) { s with retiredN := n } (afterMark id retiring)
  | retireSuspended (id : RunId) :
      Advanced s (.retireSuspended id) s (.retireUnlock id false)
  | retirePassed (id : RunId) (hsuspended : s.suspended id = false) :
      Advanced s (.retireSuspended id) s (.discard id)
  | discarded (id : RunId) :
      Advanced s (.discard id) (s.setStore id none) (.retireUnlock id true)
  | discardFailed (id : RunId) : Advanced s (.discard id) s (.retireUnlock id false)
  | retireUnlock (id : RunId) (discarded : Bool) :
      Advanced s (.retireUnlock id discarded) (s.setStripe id false) .ended
  | rotateSuspend (oldId newId : RunId) :
      Advanced s (.rotateSuspend oldId newId) (s.setSuspended newId) (.mark oldId false)

theorem State.advance_cases (h : s.advance x pc = some (t, next)) : Advanced s pc t next := by
  cases pc with
  | start c =>
      obtain ⟨rfl, rfl⟩ := Prod.mk.inj (Option.some.inj h)
      exact .start c
  | bootRestore id =>
      obtain ⟨rfl, rfl⟩ := Prod.mk.inj (Option.some.inj h)
      refine .restore id _ ?_
      split
      · exact .inl rfl
      · exact .inr rfl
  | bootSuspend id =>
      obtain ⟨rfl, rfl⟩ := Prod.mk.inj (Option.some.inj h)
      exact .bootSuspend id
  | persistCheck id model n =>
      obtain ⟨rfl, rfl⟩ := Prod.mk.inj (Option.some.inj h)
      split
      · exact .persistRefused id model n
      · next hsuspended => exact .persistPassed id model n (by simpa using hsuspended)
  | persistLock id model n =>
      simp only [State.advance] at h
      split at h
      · cases h
      · next hfree =>
          obtain ⟨rfl, rfl⟩ := Prod.mk.inj (Option.some.inj h)
          exact .persistLock id model n (by simpa using hfree)
  | persistRetired id model n =>
      obtain ⟨rfl, rfl⟩ := Prod.mk.inj (Option.some.inj h)
      split
      · exact .persistDropped id model n
      · next hretired => exact .persistKept id model n (by simpa using hretired)
  | write id model n =>
      simp only [State.advance] at h
      split at h
      · obtain ⟨rfl, rfl⟩ := Prod.mk.inj (Option.some.inj h)
        exact .wrote id model n
      · obtain ⟨rfl, rfl⟩ := Prod.mk.inj (Option.some.inj h)
        exact .writeFailed id model n
      · obtain ⟨rfl, rfl⟩ := Prod.mk.inj (Option.some.inj h)
        exact .writePanicked id model n
  | writeSuspend id n =>
      obtain ⟨rfl, rfl⟩ := Prod.mk.inj (Option.some.inj h)
      exact .writeSuspend id n
  | persistUnlock id n =>
      obtain ⟨rfl, rfl⟩ := Prod.mk.inj (Option.some.inj h)
      exact .persistUnlock id n
  | retireLock id =>
      simp only [State.advance] at h
      split at h
      · cases h
      · next hfree =>
          obtain ⟨rfl, rfl⟩ := Prod.mk.inj (Option.some.inj h)
          exact .retireLock id (by simpa using hfree)
  | mark id retiring =>
      simp only [State.advance] at h
      split at h
      · obtain ⟨rfl, rfl⟩ := Prod.mk.inj (Option.some.inj h)
        exact .marked id retiring
      · obtain ⟨rfl, rfl⟩ := Prod.mk.inj (Option.some.inj h)
        exact .mark id retiring x.now
  | markCount id retiring now =>
      simp only [State.advance] at h
      split at h
      · obtain ⟨rfl, rfl⟩ := Prod.mk.inj (Option.some.inj h)
        exact .pruneStart id retiring now _ 0
      · obtain ⟨rfl, rfl⟩ := Prod.mk.inj (Option.some.inj h)
        exact .counted id retiring now _
  | prune id retiring cut seen kept =>
      simp only [State.advance] at h
      split at h
      · obtain ⟨rfl, rfl⟩ := Prod.mk.inj (Option.some.inj h)
        exact .pruneEnd id retiring cut seen kept
      · split at h
        · cases h
        · split at h
          · cases h
          · split at h
            · obtain ⟨rfl, rfl⟩ := Prod.mk.inj (Option.some.inj h)
              exact .pruneOld id retiring cut seen _ kept _
            · obtain ⟨rfl, rfl⟩ := Prod.mk.inj (Option.some.inj h)
              exact .pruneNext id retiring cut seen _ kept _
  | pruneDelete id retiring cut seen kept k =>
      obtain ⟨rfl, rfl⟩ := Prod.mk.inj (Option.some.inj h)
      exact .pruneDelete id retiring cut seen kept k
  | pruneCount id retiring kept =>
      obtain ⟨rfl, rfl⟩ := Prod.mk.inj (Option.some.inj h)
      exact .pruneCount id retiring kept _
  | retireSuspended id =>
      obtain ⟨rfl, rfl⟩ := Prod.mk.inj (Option.some.inj h)
      split
      · exact .retireSuspended id
      · next hsuspended => exact .retirePassed id (by simpa using hsuspended)
  | discard id =>
      simp only [State.advance] at h
      split at h
      · obtain ⟨rfl, rfl⟩ := Prod.mk.inj (Option.some.inj h)
        exact .discarded id
      · obtain ⟨rfl, rfl⟩ := Prod.mk.inj (Option.some.inj h)
        exact .discardFailed id
  | retireUnlock id discarded =>
      obtain ⟨rfl, rfl⟩ := Prod.mk.inj (Option.some.inj h)
      exact .retireUnlock id discarded
  | rotateSuspend oldId newId =>
      obtain ⟨rfl, rfl⟩ := Prod.mk.inj (Option.some.inj h)
      exact .rotateSuspend oldId newId
  | ended => cases h

/-- A new call, or a task that goes on. -/
inductive Stepped (s : State M) : State M → Prop where
  | call (c : Call M) : Stepped s { s with tasks := s.tasks ++ [.start c] }
  | run (i : ℕ) (pc : Pc M) (base : State M) (next : Pc M) (hi : s.tasks[i]? = some pc)
      (h : Advanced s pc base next) : Stepped s (base.setTask i next)

theorem State.step_cases {e : Event M} (h : s.step e = some t) : Stepped s t := by
  cases e with
  | call c =>
      obtain rfl := Option.some.inj h
      exact .call c
  | run i x =>
      simp only [State.step, Option.bind_eq_bind, Option.bind_eq_some_iff] at h
      obtain ⟨pc, hpc, ⟨base, next⟩, hadvance, ht⟩ := h
      obtain rfl := Option.some.inj ht
      exact .run i pc base next hpc (State.advance_cases hadvance)

theorem Advanced.tasks {base : State M} (h : Advanced s pc base next) : base.tasks = s.tasks := by
  cases h <;> rfl

/-! ## Stripes -/

/-- The stripe that a task holds. -/
def Pc.holds : Pc M → Option ℕ
  | .persistRetired id _ _ | .write id _ _ | .writeSuspend id _ | .persistUnlock id _ |
    .retireSuspended id | .discard id | .retireUnlock id _ => some (durableStripe id)
  | .mark id retiring | .markCount id retiring _ | .prune id retiring _ _ _ |
    .pruneDelete id retiring _ _ _ _ | .pruneCount id retiring _ =>
      if retiring then some (durableStripe id) else none
  | _ => none

theorem Next.holds (n : Next) : (n.pc : Pc M).holds = none := by
  cases n <;> rfl

theorem afterMark_holds (id : RunId) (retiring : Bool) :
    (afterMark id retiring : Pc M).holds = if retiring then some (durableStripe id) else none := by
  cases retiring <;> rfl

/-- Where a call begins. -/
inductive Begun (s : State M) : Pc M → Prop where
  | ended : Begun s .ended
  | restore (id : RunId) : Begun s (.bootRestore id)
  | check (id : RunId) (model : M) (n : Next) : Begun s (.persistCheck id model n)
  | lock (id : RunId) (model : M) (hsuspended : s.suspended id = false) :
      Begun s (.persistLock id model .done)
  | retire (id : RunId) : Begun s (.retireLock id)
  | rotate (oldId newId : RunId) : Begun s (.rotateSuspend oldId newId)

theorem State.begin_cases (s : State M) (c : Call M) : Begun s (s.begin c) := by
  cases c with
  | boot id =>
      simp only [State.begin]
      split
      · exact .ended
      · exact .restore id
  | persist id model =>
      simp only [State.begin]
      split
      · exact .ended
      · next hsuspended => exact .lock id model (by simpa using hsuspended)
  | persistSync id model =>
      simp only [State.begin]
      split
      · exact .ended
      · exact .check id model .done
  | retire id =>
      simp only [State.begin]
      split
      · exact .ended
      · exact .retire id
  | rotate oldId newId model =>
      simp only [State.begin]
      split
      · exact .ended
      · split
        · exact .rotate oldId newId
        · split
          · exact .check newId _ (.retire oldId)
          · exact .retire oldId

theorem Begun.holds (h : Begun s pc) : pc.holds = none := by
  cases h <;> rfl

/-! ## Suspension -/

/-- The task has passed a suspension check of the id, and its write or discard is still to come. -/
def Pc.passed (id : RunId) : Pc M → Prop
  | .persistLock id' _ _ | .persistRetired id' _ _ | .write id' _ _ | .discard id' => id' = id
  | _ => False

theorem Next.not_passed (n : Next) : ¬(n.pc : Pc M).passed id := by
  cases n <;> exact not_false

theorem afterMark_not_passed (id' : RunId) (retiring : Bool) :
    ¬(afterMark id' retiring : Pc M).passed id := by
  cases retiring <;> exact not_false

/-- The task is about to write the snapshot of the id. -/
def Pc.writes (id : RunId) : Pc M → Prop
  | .write id' _ _ => id' = id
  | _ => False

/-- The id that the task is about to mark as suspended. -/
def Pc.suspends : Pc M → Option RunId
  | .bootSuspend id | .writeSuspend id _ | .rotateSuspend _ id => some id
  | _ => none

theorem Pc.passed_of_writes (h : pc.writes id) : pc.passed id := by
  cases pc with
  | write id' model n => exact h
  | _ => exact h.elim

theorem Pc.holds_of_writes (h : pc.writes id) : pc.holds = some (durableStripe id) := by
  cases pc with
  | write id' model n =>
      obtain rfl : id' = id := h
      rfl
  | _ => exact h.elim

theorem Next.not_writes (n : Next) : ¬(n.pc : Pc M).writes id :=
  fun h => n.not_passed (Pc.passed_of_writes h)

theorem afterMark_not_writes (id' : RunId) (retiring : Bool) :
    ¬(afterMark id' retiring : Pc M).writes id :=
  fun h => afterMark_not_passed id' retiring (Pc.passed_of_writes h)

theorem Begun.not_writes (h : Begun s pc) : ¬pc.writes id := by
  cases h <;> exact not_false

theorem Begun.passed (h : Begun s pc) (hpc : pc.passed id) : s.suspended id = false := by
  cases h with
  | lock id' model hsuspended =>
      obtain rfl : id' = id := hpc
      exact hsuspended
  | _ => exact hpc.elim

namespace Advanced

variable {base : State M}

/-- Only a task that has passed the check writes or discards. -/
theorem store_eq (h : Advanced s pc base next) (hpc : ¬pc.passed id) :
    base.store id = s.store id := by
  cases h with
  | wrote id' model n => exact Function.update_of_ne (fun heq => hpc heq.symm) ..
  | discarded id' => exact Function.update_of_ne (fun heq => hpc heq.symm) ..
  | _ => rfl

/-- A task passes the check of an id only while the id is not suspended. -/
theorem passed (h : Advanced s pc base next) (hnext : next.passed id) :
    pc.passed id ∨ s.suspended id = false := by
  cases h with
  | start c => exact .inr ((s.begin_cases c).passed hnext)
  | restore id' next heq => rcases heq with rfl | rfl <;> exact hnext.elim
  | persistRefused id' model n => exact absurd hnext n.not_passed
  | persistPassed id' model n hsuspended =>
      obtain rfl : id' = id := hnext
      exact .inr hsuspended
  | persistLock id' model n hfree => exact .inl hnext
  | persistKept id' model n hretired => exact .inl hnext
  | persistUnlock id' n => exact absurd hnext n.not_passed
  | marked id' retiring => exact absurd hnext (afterMark_not_passed id' retiring)
  | counted id' retiring now n => exact absurd hnext (afterMark_not_passed id' retiring)
  | pruneCount id' retiring kept n => exact absurd hnext (afterMark_not_passed id' retiring)
  | retirePassed id' hsuspended =>
      obtain rfl : id' = id := hnext
      exact .inr hsuspended
  | _ => exact hnext.elim

/-- Only these set a mark, and a mark is never taken away. -/
theorem suspended (h : Advanced s pc base next) :
    (pc.suspends = none ∧ base.suspended = s.suspended) ∨
      ∃ id', pc.suspends = some id' ∧ base.suspended = Function.update s.suspended id' true ∧
        ∀ id, ¬next.passed id := by
  cases h with
  | bootSuspend id' => exact .inr ⟨id', rfl, rfl, fun _ => not_false⟩
  | writeSuspend id' n => exact .inr ⟨id', rfl, rfl, fun _ => not_false⟩
  | rotateSuspend oldId newId => exact .inr ⟨newId, rfl, rfl, fun _ => not_false⟩
  | _ => exact .inl ⟨rfl, rfl⟩

/-- A step leaves the snapshot as it is, deletes it, or is a write of it. -/
theorem store (h : Advanced s pc base next) (id : RunId) :
    base.store id = s.store id ∨ base.store id = none ∨ pc.writes id := by
  cases h with
  | wrote id' model n =>
      by_cases heq : id' = id
      · exact .inr (.inr heq)
      · exact .inl (Function.update_of_ne (Ne.symm heq) ..)
  | discarded id' =>
      by_cases heq : id' = id
      · subst heq
        exact .inr (.inl (Function.update_self ..))
      · exact .inl (Function.update_of_ne (Ne.symm heq) ..)
  | _ => exact .inl rfl

/-- A write follows the check that the id is not retired. -/
theorem writes (h : Advanced s pc base next) (hnext : next.writes id) : s.isRetired id = false := by
  cases h with
  | start c => exact absurd hnext (s.begin_cases c).not_writes
  | restore id' next heq => rcases heq with rfl | rfl <;> exact hnext.elim
  | persistRefused id' model n => exact absurd hnext n.not_writes
  | persistKept id' model n hretired =>
      obtain rfl : id' = id := hnext
      exact hretired
  | persistUnlock id' n => exact absurd hnext n.not_writes
  | marked id' retiring => exact absurd hnext (afterMark_not_writes id' retiring)
  | counted id' retiring now n => exact absurd hnext (afterMark_not_writes id' retiring)
  | pruneCount id' retiring kept n => exact absurd hnext (afterMark_not_writes id' retiring)
  | _ => exact hnext.elim

/-- A retire that says it has discarded has just done so. -/
theorem discards (h : Advanced s pc base next) (hnext : next = .retireUnlock id true) :
    base.store id = none := by
  cases h with
  | start c =>
      have hholds := (s.begin_cases c).holds
      rw [hnext] at hholds
      cases hholds
  | restore id' next heq => rcases heq with rfl | rfl <;> cases hnext
  | persistRefused id' model n => cases n <;> cases hnext
  | persistUnlock id' n => cases n <;> cases hnext
  | marked id' retiring => cases retiring <;> cases hnext
  | counted id' retiring now n => cases retiring <;> cases hnext
  | pruneCount id' retiring kept n => cases retiring <;> cases hnext
  | discarded id' =>
      cases hnext
      exact Function.update_self ..
  | _ => cases hnext

end Advanced

/-! ## Locks -/

/-- What a task does to the stripes. -/
inductive StripeMove (s base : State M) (pc next : Pc M) : Prop where
  | keep (hholds : next.holds = pc.holds) (hstripes : base.stripes = s.stripes)
  | acquire (k : ℕ) (hpc : pc.holds = none) (hnext : next.holds = some k)
      (hfree : s.stripes k = false) (hstripes : base.stripes = Function.update s.stripes k true)
  | release (k : ℕ) (hpc : pc.holds = some k) (hnext : next.holds = none)
      (hstripes : base.stripes = Function.update s.stripes k false)

theorem Advanced.stripes {base : State M} (h : Advanced s pc base next) :
    StripeMove s base pc next := by
  cases h with
  | start c => exact .keep (s.begin_cases c).holds rfl
  | restore id next heq => rcases heq with rfl | rfl <;> exact .keep rfl rfl
  | persistRefused id model n => exact .keep n.holds rfl
  | persistLock id model n hfree => exact .acquire _ rfl rfl hfree rfl
  | persistUnlock id n => exact .release _ rfl n.holds rfl
  | retireLock id hfree => exact .acquire _ rfl rfl hfree rfl
  | marked id retiring => exact .keep (afterMark_holds id retiring) rfl
  | counted id retiring now n => exact .keep (afterMark_holds id retiring) rfl
  | pruneCount id retiring kept n => exact .keep (afterMark_holds id retiring) rfl
  | retireUnlock id discarded => exact .release _ rfl rfl rfl
  | _ => exact .keep rfl rfl

end Sky.Snapshots
