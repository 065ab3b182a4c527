import Sky.Verification.Snapshots.Steps

/-! # A rotation and the snapshot that it moves

The old snapshot is deleted after the write under the new id, whatever became of that write. -/

namespace Sky.Snapshots

open Library

variable {M : Type} {s t base : State M} {pc next : Pc M} {id oldId newId : RunId} {x : Input}

/-- A snapshot is stored under the id. -/
def State.stored (s : State M) (id : RunId) : Prop := (s.store id).isSome = true

instance (s : State M) (id : RunId) : Decidable (s.stored id) :=
  inferInstanceAs (Decidable ((s.store id).isSome = true))

/-! ## Other persists -/

/-- A persist that is not part of a rotation, or has returned. -/
def Pc.persisting : Pc M → Prop
  | .start (.persist _ _) | .start (.persistSync _ _) | .ended => True
  | .persistCheck _ _ n | .persistLock _ _ n | .persistRetired _ _ n | .write _ _ n |
    .writeSuspend _ n | .persistUnlock _ n => n = .done
  | _ => False

/-- No snapshot is deleted and no suspension taken away. -/
structure Grows (s t : State M) : Prop where
  stored : ∀ id, s.stored id → t.stored id
  suspended : ∀ id, s.suspended id = true → t.suspended id = true

theorem Grows.refl (s : State M) : Grows s s := ⟨fun _ h => h, fun _ h => h⟩

theorem State.stored_write (s : State M) (id' : RunId) (model : M) (h : s.stored id) :
    (s.setStore id' (some model)).stored id := by
  by_cases heq : id = id'
  · subst heq
    simp [State.stored, State.setStore]
  · simpa [State.stored, State.setStore, Function.update_of_ne heq] using h

theorem State.stored_self (s : State M) (id : RunId) (model : M) :
    (s.setStore id (some model)).stored id := by
  simp [State.stored, State.setStore]

theorem Grows.write (s : State M) (id' : RunId) (model : M) :
    Grows s (s.setStore id' (some model)) :=
  ⟨fun _ h => s.stored_write id' model h, fun _ h => h⟩

theorem Grows.suspend (s : State M) (id' : RunId) : Grows s (s.setSuspended id') := by
  refine ⟨fun _ h => h, fun id h => ?_⟩
  by_cases heq : id = id'
  · subst heq
    simp [State.setSuspended]
  · simpa [State.setSuspended, Function.update_of_ne heq] using h

theorem Advanced.persisting (h : Advanced s pc base next) (hpc : pc.persisting) :
    next.persisting ∧ Grows s base := by
  cases h with
  | start c =>
      cases c with
      | persist id model =>
          refine ⟨?_, .refl s⟩
          simp only [State.begin]
          split
          · trivial
          · rfl
      | persistSync id model =>
          refine ⟨?_, .refl s⟩
          simp only [State.begin]
          split
          · trivial
          · rfl
      | boot id => exact hpc.elim
      | retire id => exact hpc.elim
      | rotate o n model => exact hpc.elim
  | persistRefused id model n =>
      obtain rfl : n = .done := hpc
      exact ⟨trivial, .refl s⟩
  | persistPassed id model n hsuspended => exact ⟨hpc, .refl s⟩
  | persistLock id model n hfree => exact ⟨hpc, fun _ h => h, fun _ h => h⟩
  | persistDropped id model n => exact ⟨hpc, .refl s⟩
  | persistKept id model n hretired => exact ⟨hpc, .refl s⟩
  | wrote id model n => exact ⟨hpc, .write s id model⟩
  | writeFailed id model n => exact ⟨hpc, .refl s⟩
  | writePanicked id model n => exact ⟨hpc, .refl s⟩
  | writeSuspend id n => exact ⟨hpc, .suspend s id⟩
  | persistUnlock id n =>
      obtain rfl : n = .done := hpc
      exact ⟨trivial, fun _ h => h, fun _ h => h⟩
  | _ => exact hpc.elim

/-! ## The rotation -/

/-- The old snapshot may go, or will be kept. -/
def State.safe (s : State M) (oldId newId : RunId) : Prop :=
  s.stored newId ∨ s.suspended oldId = true

/-- What holds where a rotation from `oldId` to `newId` stands. -/
def Pc.rotates (s : State M) (oldId newId : RunId) : Pc M → Prop
  | .start (.rotate o n _) => o = oldId ∧ n = newId ∧ s.stored oldId
  | .rotateSuspend o _ => o = oldId ∧ s.stored oldId
  | .persistCheck id _ n | .persistLock id _ n | .persistRetired id _ n | .write id _ n =>
      id = newId ∧ n = .retire oldId ∧ s.stored oldId
  | .writeSuspend _ n | .persistUnlock _ n =>
      n = .retire oldId ∧ s.stored oldId ∧ s.safe oldId newId
  | .retireLock id | .retireSuspended id => id = oldId ∧ s.stored oldId ∧ s.safe oldId newId
  | .mark id retiring | .markCount id retiring _ | .prune id retiring _ _ _ |
    .pruneDelete id retiring _ _ _ _ | .pruneCount id retiring _ =>
      id = oldId ∧ s.stored oldId ∧ (retiring = true → s.safe oldId newId)
  | .discard id => id = oldId ∧ s.stored newId
  | .retireUnlock _ _ | .ended => s.stored newId ∨ s.stored oldId
  | _ => False

/-- The step is one where a persist is given up, or fails. -/
def Pc.givesUp (s : State M) (x : Input) : Pc M → Prop
  | .start (.rotate _ _ model) => model = none
  | .persistCheck id _ _ => s.suspended id = true
  | .persistRetired id _ _ => s.isRetired id = true
  | .write _ _ _ => x.wrote ≠ .ok
  | _ => False

theorem State.safe.grows (h : s.safe oldId newId) (hgrows : Grows s t) : t.safe oldId newId := by
  rcases h with h | h
  · exact .inl (hgrows.stored _ h)
  · exact .inr (hgrows.suspended _ h)

theorem Pc.rotates.grows (h : pc.rotates s oldId newId) (hgrows : Grows s t) :
    pc.rotates t oldId newId := by
  have hstored := fun id => hgrows.stored id
  cases pc with
  | start c =>
      cases c with
      | rotate o n model => exact ⟨h.1, h.2.1, hstored _ h.2.2⟩
      | _ => exact h.elim
  | rotateSuspend o n => exact ⟨h.1, hstored _ h.2⟩
  | persistCheck id model n => exact ⟨h.1, h.2.1, hstored _ h.2.2⟩
  | persistLock id model n => exact ⟨h.1, h.2.1, hstored _ h.2.2⟩
  | persistRetired id model n => exact ⟨h.1, h.2.1, hstored _ h.2.2⟩
  | write id model n => exact ⟨h.1, h.2.1, hstored _ h.2.2⟩
  | writeSuspend id n => exact ⟨h.1, hstored _ h.2.1, h.2.2.grows hgrows⟩
  | persistUnlock id n => exact ⟨h.1, hstored _ h.2.1, h.2.2.grows hgrows⟩
  | retireLock id => exact ⟨h.1, hstored _ h.2.1, h.2.2.grows hgrows⟩
  | retireSuspended id => exact ⟨h.1, hstored _ h.2.1, h.2.2.grows hgrows⟩
  | mark id retiring => exact ⟨h.1, hstored _ h.2.1, fun hr => (h.2.2 hr).grows hgrows⟩
  | markCount id retiring now => exact ⟨h.1, hstored _ h.2.1, fun hr => (h.2.2 hr).grows hgrows⟩
  | prune id retiring cut seen kept =>
      exact ⟨h.1, hstored _ h.2.1, fun hr => (h.2.2 hr).grows hgrows⟩
  | pruneDelete id retiring cut seen kept k =>
      exact ⟨h.1, hstored _ h.2.1, fun hr => (h.2.2 hr).grows hgrows⟩
  | pruneCount id retiring kept =>
      exact ⟨h.1, hstored _ h.2.1, fun hr => (h.2.2 hr).grows hgrows⟩
  | discard id => exact ⟨h.1, hstored _ h.2⟩
  | retireUnlock id discarded => exact h.imp (hstored _) (hstored _)
  | ended => exact h.imp (hstored _) (hstored _)
  | _ => exact h.elim

theorem Pc.rotates.kept (h : pc.rotates s oldId newId) : s.stored newId ∨ s.stored oldId := by
  cases pc with
  | start c =>
      cases c with
      | rotate o n model => exact .inr h.2.2
      | _ => exact h.elim
  | rotateSuspend o n => exact .inr h.2
  | persistCheck id model n => exact .inr h.2.2
  | persistLock id model n => exact .inr h.2.2
  | persistRetired id model n => exact .inr h.2.2
  | write id model n => exact .inr h.2.2
  | discard id => exact .inl h.2
  | retireUnlock id discarded => exact h
  | ended => exact h
  | bootRestore id => exact h.elim
  | bootSuspend id => exact h.elim
  | _ => exact .inr h.2.1

theorem afterMark_rotates {retiring : Bool} (hstored : s.stored oldId)
    (hsafe : retiring = true → s.safe oldId newId) :
    (afterMark oldId retiring : Pc M).rotates s oldId newId := by
  cases retiring with
  | false => exact .inr hstored
  | true => exact ⟨rfl, hstored, hsafe rfl⟩

/-- Where a rotation begins. -/
theorem State.begin_rotates {model : Option M} (hstored : s.stored oldId)
    (hmodel : model = none → s.safe oldId newId) :
    (s.begin (.rotate oldId newId model)).rotates s oldId newId := by
  simp only [State.begin]
  split
  · exact .inr hstored
  · split
    · exact ⟨rfl, hstored⟩
    · cases model with
      | some model => exact ⟨rfl, rfl, hstored⟩
      | none => exact ⟨rfl, hstored, hmodel rfl⟩

/-- The step neither begins nor decides anything about the snapshots. -/
def Pc.onward : Pc M → Prop
  | .start _ | .persistCheck _ _ _ | .persistRetired _ _ _ | .write _ _ _ | .discard _ => False
  | _ => True

theorem Advanced.onward (h : Advanced s pc base next) (hpc : pc.rotates s oldId newId)
    (honward : pc.onward) : next.rotates base oldId newId := by
  cases h with
  | persistLock id model n hfree => exact hpc
  | writeSuspend id n =>
      obtain ⟨rfl, hstored, hsafe⟩ := hpc
      exact ⟨rfl, hstored, hsafe.grows (.suspend s id)⟩
  | persistUnlock id n =>
      obtain ⟨rfl, hstored, hsafe⟩ := hpc
      exact ⟨rfl, hstored, hsafe⟩
  | retireLock id hfree => exact ⟨hpc.1, hpc.2.1, fun _ => hpc.2.2⟩
  | marked id retiring =>
      obtain ⟨rfl, hstored, hsafe⟩ := hpc
      exact afterMark_rotates hstored hsafe
  | mark id retiring now => exact hpc
  | counted id retiring now n =>
      obtain ⟨rfl, hstored, hsafe⟩ := hpc
      exact afterMark_rotates (s := { s with retiredN := n }) hstored hsafe
  | pruneStart id retiring now cut n => exact hpc
  | pruneNext id retiring cut seen seen' kept kept' => exact hpc
  | pruneOld id retiring cut seen seen' kept k => exact hpc
  | pruneEnd id retiring cut seen kept => exact hpc
  | pruneDelete id retiring cut seen kept k => exact hpc
  | pruneCount id retiring kept n =>
      obtain ⟨rfl, hstored, hsafe⟩ := hpc
      exact afterMark_rotates (s := { s with retiredN := n }) hstored hsafe
  | retireSuspended id =>
      obtain ⟨rfl, hstored, -⟩ := hpc
      exact .inr hstored
  | retirePassed id hsuspended =>
      obtain ⟨rfl, hstored, hsafe⟩ := hpc
      refine ⟨rfl, hsafe.resolve_right ?_⟩
      simp [hsuspended]
  | retireUnlock id discarded => exact hpc
  | rotateSuspend o n => exact ⟨hpc.1, hpc.2, fun hr => nomatch hr⟩
  | start c => exact honward.elim
  | persistRefused id model n => exact honward.elim
  | persistPassed id model n hsuspended => exact honward.elim
  | persistDropped id model n => exact honward.elim
  | persistKept id model n hretired => exact honward.elim
  | wrote id model n => exact honward.elim
  | writeFailed id model n => exact honward.elim
  | writePanicked id model n => exact honward.elim
  | discarded id => exact honward.elim
  | discardFailed id => exact honward.elim
  | restore id next hnext => exact hpc.elim
  | bootSuspend id => exact hpc.elim

/-- A step of the rotation that does not give up its write, or need not make it. -/
theorem State.advance_rotates (hne : oldId ≠ newId) (h : s.advance x pc = some (base, next))
    (hpc : pc.rotates s oldId newId) (hlands : pc.givesUp s x → s.safe oldId newId) :
    next.rotates base oldId newId := by
  cases pc with
  | start c =>
      obtain ⟨rfl, rfl⟩ := Prod.mk.inj (Option.some.inj h)
      cases c with
      | rotate o n model =>
          obtain ⟨rfl, rfl, hstored⟩ := hpc
          exact State.begin_rotates hstored hlands
      | _ => exact hpc.elim
  | persistCheck id model n =>
      obtain ⟨rfl, rfl⟩ := Prod.mk.inj (Option.some.inj h)
      obtain ⟨rfl, rfl, hstored⟩ := hpc
      split
      · next hsuspended => exact ⟨rfl, hstored, hlands hsuspended⟩
      · exact ⟨rfl, rfl, hstored⟩
  | persistRetired id model n =>
      obtain ⟨rfl, rfl⟩ := Prod.mk.inj (Option.some.inj h)
      obtain ⟨rfl, rfl, hstored⟩ := hpc
      split
      · next hretired => exact ⟨rfl, hstored, hlands hretired⟩
      · exact ⟨rfl, rfl, hstored⟩
  | write id model n =>
      obtain ⟨rfl, rfl, hstored⟩ := hpc
      cases hwrote : x.wrote with
      | ok =>
          simp only [State.advance, hwrote] at h
          obtain ⟨rfl, rfl⟩ := Prod.mk.inj (Option.some.inj h)
          exact ⟨rfl, s.stored_write id model hstored, .inl (s.stored_self id model)⟩
      | err =>
          have hsafe : s.safe oldId id := hlands (by simp [Pc.givesUp, hwrote])
          simp only [State.advance, hwrote] at h
          obtain ⟨rfl, rfl⟩ := Prod.mk.inj (Option.some.inj h)
          exact ⟨rfl, hstored, hsafe⟩
      | panicked =>
          have hsafe : s.safe oldId id := hlands (by simp [Pc.givesUp, hwrote])
          simp only [State.advance, hwrote] at h
          obtain ⟨rfl, rfl⟩ := Prod.mk.inj (Option.some.inj h)
          exact ⟨rfl, hstored, hsafe⟩
  | discard id =>
      obtain ⟨rfl, hstored⟩ := hpc
      cases State.advance_cases h with
      | discarded =>
          refine .inl ?_
          simpa [State.stored, State.setStore, Function.update_of_ne hne.symm] using hstored
      | discardFailed => exact .inl hstored
  | _ => exact (State.advance_cases h).onward hpc trivial

/-! ## Runs of a rotation among persists -/

def Call.persists : Call M → Prop
  | .persist _ _ | .persistSync _ _ => True
  | _ => False

/-- The event calls no more than a persist, and if it goes on with the rotation, task `r`, it gives up
the write under the new id only when a snapshot is there or the old one will be kept. -/
def Event.lands (oldId newId : RunId) (r : ℕ) (s : State M) : Event M → Prop
  | .call c => c.persists
  | .run i x => i = r → ∀ pc, s.tasks[i]? = some pc → pc.givesUp s x → s.safe oldId newId

def LandingStep (oldId newId : RunId) (r : ℕ) (s : State M) (e : Event M) (t : State M) : Prop :=
  s.step e = some t ∧ e.lands oldId newId r s

/-- Task `r` is the rotation, and the others persist. -/
structure Rotating (oldId newId : RunId) (r : ℕ) (s : State M) : Prop where
  others : ∀ i pc, i ≠ r → s.tasks[i]? = some pc → pc.persisting
  rotation : ∃ pc, s.tasks[r]? = some pc ∧ pc.rotates s oldId newId

theorem Rotating.call {r : ℕ} {c : Call M} (h : Rotating oldId newId r s) (hc : c.persists) :
    Rotating oldId newId r { s with tasks := s.tasks ++ [.start c] } := by
  obtain ⟨pc, hr, hpc⟩ := h.rotation
  constructor
  · intro i pc' hi hpc'
    rcases getElem?_concat_cases hpc' with ⟨_, rfl⟩ | hold
    · cases c with
      | persist id model => trivial
      | persistSync id model => trivial
      | _ => exact hc.elim
    · exact h.others i pc' hi hold
  · refine ⟨pc, ?_, hpc⟩
    rw [List.getElem?_append_left (List.getElem?_eq_some_iff.1 hr).1]
    exact hr

theorem Rotating.run {r i : ℕ} (hne : oldId ≠ newId) (h : Rotating oldId newId r s)
    (hi : s.tasks[i]? = some pc) (hadvance : s.advance x pc = some (base, next))
    (hlands : i = r → pc.givesUp s x → s.safe oldId newId) :
    Rotating oldId newId r (base.setTask i next) := by
  obtain ⟨rot, hr, hrot⟩ := h.rotation
  have hadv := State.advance_cases hadvance
  have htasks : (base.setTask i next).tasks = s.tasks.set i next := by
    rw [State.setTask, hadv.tasks]
  have hset : Grows base (base.setTask i next) := ⟨fun _ h => h, fun _ h => h⟩
  have hlt := (List.getElem?_eq_some_iff.1 hi).1
  by_cases hir : i = r
  · subst hir
    obtain rfl := Option.some.inj (hi.symm.trans hr)
    constructor
    · intro j pc' hj hpc'
      rw [htasks, List.getElem?_set_ne (Ne.symm hj)] at hpc'
      exact h.others j pc' hj hpc'
    · refine ⟨next, ?_, (State.advance_rotates hne hadvance hrot (hlands rfl)).grows hset⟩
      rw [htasks, List.getElem?_set_self hlt]
  · obtain ⟨hnext, hgrows⟩ := hadv.persisting (h.others i pc hir hi)
    constructor
    · intro j pc' hj hpc'
      rw [htasks] at hpc'
      rcases getElem?_set_cases hpc' with ⟨_, rfl⟩ | ⟨_, hold⟩
      · exact hnext
      · exact h.others j pc' hj hold
    · refine ⟨rot, ?_, (hrot.grows hgrows).grows hset⟩
      rw [htasks, List.getElem?_set_ne hir]
      exact hr

theorem Rotating.step {r : ℕ} {e : Event M} (hne : oldId ≠ newId) (h : Rotating oldId newId r s)
    (hstep : LandingStep oldId newId r s e t) : Rotating oldId newId r t := by
  obtain ⟨hstep, hlands⟩ := hstep
  cases e with
  | call c =>
      obtain rfl := Option.some.inj hstep
      exact h.call hlands
  | run i x =>
      simp only [State.step, Option.bind_eq_bind, Option.bind_eq_some_iff] at hstep
      obtain ⟨pc, hpc, ⟨base, next⟩, hadvance, ht⟩ := hstep
      obtain rfl := Option.some.inj ht
      exact h.run hne hpc hadvance fun hir => hlands hir pc hpc

/-- In every run of a rotation among persists that gives up the write under the new id only when a
snapshot is there or the old one will be kept, a snapshot stays. -/
theorem rotation_keeps_snapshot (hne : oldId ≠ newId) (hothers : ∀ pc ∈ s.tasks, pc.persisting)
    (hstored : s.stored oldId) (model : Option M) :
    ∀ s₀, s.step (.call (.rotate oldId newId model)) = some s₀ →
      ∀ es t, Run (LandingStep oldId newId s.tasks.length) s₀ es t →
        t.stored newId ∨ t.stored oldId := by
  intro s₀ hcall es t hrun
  obtain rfl := Option.some.inj hcall
  have hstart : Rotating oldId newId s.tasks.length
      { s with tasks := s.tasks ++ [.start (.rotate oldId newId model)] } := by
    constructor
    · intro i pc hi hpc
      rcases getElem?_concat_cases hpc with ⟨heq, _⟩ | hold
      · exact absurd heq hi
      · exact hothers pc (List.mem_of_getElem? hold)
    · exact ⟨_, List.getElem?_concat_length .., rfl, rfl, hstored⟩
  obtain ⟨pc, -, hpc⟩ := (hrun.invariant (fun _ _ _ h hstep => h.step hne hstep) hstart).rotation
  exact hpc.kept

/-- A snapshot under `[1]` only. -/
def oneStored : State ℕ := .init fun id => if id = [1] then some 0 else none

theorem Event.lands_of {r i : ℕ} (hi : s.tasks[i]? = some pc) (h : ¬pc.givesUp s x) :
    Event.lands oldId newId r s (.run i x) := by
  intro _ pc' hpc' hgives
  obtain rfl := Option.some.inj (hi.symm.trans hpc')
  exact absurd hgives h

/-- `[1]` moves to `[2]`: the write is done, and the old snapshot deleted. -/
theorem rotation_keeps_snapshot_moved :
    ∃ t u : State ℕ, oneStored.step (.call (.rotate [1] [2] (some 7))) = some t ∧
      Run (LandingStep [1] [2] 0) t
        [.run 0 {}, .run 0 {}, .run 0 {}, .run 0 {}, .run 0 {}, .run 0 {}, .run 0 {}, .run 0 {},
          .run 0 {}, .run 0 {}, .run 0 {}] u ∧
      ¬u.stored [1] ∧ (u.stored [2] ∨ u.stored [1]) := by
  have hrun : ∃ t u : State ℕ, oneStored.step (.call (.rotate [1] [2] (some 7))) = some t ∧
      Run (LandingStep [1] [2] 0) t
        [.run 0 {}, .run 0 {}, .run 0 {}, .run 0 {}, .run 0 {}, .run 0 {}, .run 0 {}, .run 0 {},
          .run 0 {}, .run 0 {}, .run 0 {}] u ∧ ¬u.stored [1] := by
    refine ⟨_, _, rfl, .cons ⟨rfl, Event.lands_of rfl (fun h => nomatch h)⟩
      (.cons ⟨rfl, Event.lands_of rfl (fun h => nomatch h)⟩
      (.cons ⟨rfl, Event.lands_of rfl (fun h => nomatch h)⟩
      (.cons ⟨rfl, Event.lands_of rfl (fun h => nomatch h)⟩
      (.cons ⟨rfl, Event.lands_of rfl (fun h => h rfl)⟩
      (.cons ⟨rfl, Event.lands_of rfl (fun h => nomatch h)⟩
      (.cons ⟨rfl, Event.lands_of rfl (fun h => nomatch h)⟩
      (.cons ⟨rfl, Event.lands_of rfl (fun h => nomatch h)⟩
      (.cons ⟨rfl, Event.lands_of rfl (fun h => nomatch h)⟩
      (.cons ⟨rfl, Event.lands_of rfl (fun h => nomatch h)⟩
      (.cons ⟨rfl, Event.lands_of rfl (fun h => nomatch h)⟩ (.nil _))))))))))), by decide⟩
  obtain ⟨t, u, hcall, hrun, hold⟩ := hrun
  exact ⟨t, u, hcall, hrun, hold, rotation_keeps_snapshot (s := oneStored) (by decide)
    (by simp [oneStored, State.init]) (by decide) (some 7) t hcall _ u hrun⟩

/-- The write under `[2]` returns `Err`, and the snapshot of `[1]` is deleted. -/
theorem rotation_loses_snapshot :
    ∃ t : State ℕ, oneStored.stored [1] ∧
      Run (fun a e b => a.step e = some b) oneStored
        [.call (.rotate [1] [2] (some 7)), .run 0 {}, .run 0 {}, .run 0 {}, .run 0 {},
          .run 0 { wrote := .err }, .run 0 {}, .run 0 {}, .run 0 {}, .run 0 {}, .run 0 {}, .run 0 {},
          .run 0 {}] t ∧
      t.tasks = [.ended] ∧ ¬t.stored [2] ∧ ¬t.stored [1] :=
  ⟨_, by decide, Run.iff_foldlM.2 rfl, rfl, by decide, by decide⟩

end Sky.Snapshots
