import Sky.Library.Run
import Sky.Library.Tasks
import Sky.Model.SyncQueue

/-! # Queues keep every value and wake every waiter -/

namespace Sky.Sync

open Library

variable {V : Type} {q : SyncQueue V} {s t : State V}

/-! ## What a call does under the lock -/

/-- What a call waits for: room, an item, or the end of the queue. -/
def SyncQueue.Free (q : SyncQueue V) : Call V → Prop
  | .push _ => q.closed = true ∨ q.items.length < q.cap
  | .syncPop _ _ => q.closed = true ∨ q.items ≠ []
  | .close | .size => True

/-- The ways of a call through the lock. -/
inductive Entered (q : SyncQueue V) : Call V → SyncQueue V × Option (Outcome V) → Prop where
  | pushed (v : V) (hroom : q.items.length < q.cap) : Entered q (.push v)
      ({ q with items := q.items ++ [v] }.signalLocked, some (.ok .unit))
  | popped (timeout : ℤ) (op : String) (v : V) (rest : List V) (hitems : q.items = v :: rest) :
      Entered q (.syncPop timeout op)
        ({ q with items := rest }.signalLocked, some (.ok (.item (some v))))
  | closed : Entered q .close ({ q with closed := true }.signalLocked, some (.ok .unit))
  | same (c : Call V) (r : Outcome V) (hpush : ∀ v, c = .push v → ∃ e, r = .error e)
      (hpop : ∀ v, r ≠ .ok (.item (some v))) : Entered q c (q, some r)
  | waits (c : Call V) (hblocked : ¬q.Free c) : Entered q c (q, none)

theorem SyncQueue.enter_cases (q : SyncQueue V) (c : Call V) : Entered q c (q.enter c) := by
  cases c with
  | push v =>
      unfold SyncQueue.enter
      dsimp only
      split
      · exact .same _ _ (fun _ _ => ⟨_, rfl⟩) (by simp)
      · next hclosed =>
          split
          · next hroom => exact .pushed v hroom
          · next hfull => exact .waits _ (by simp [SyncQueue.Free, hclosed, Nat.le_of_not_lt hfull])
  | syncPop timeout op =>
      unfold SyncQueue.enter
      dsimp only
      split
      · next v rest hitems => exact .popped timeout op v rest hitems
      · next hitems =>
          split
          · exact .same _ _ (by simp) (by simp)
          · next hclosed => exact .waits _ (by simp [SyncQueue.Free, hclosed, hitems])
  | close =>
      unfold SyncQueue.enter
      dsimp only
      split
      · exact .same _ _ (by simp) (by simp)
      · exact .closed
  | size => exact .same _ _ (by simp) (by simp)

/-! ## Steps -/

/-- What a step may be. -/
inductive Stepped (s : State V) : State V → Prop where
  | call (c : Call V) : Stepped s { s with tasks := s.tasks ++ [.ready c] }
  | entered (i : ℕ) (c : Call V) (hi : s.tasks[i]? = some (.ready c)) : Stepped s (s.enter i c)
  | woken (i : ℕ) (c : Call V) (ch : ℕ) (hi : s.tasks[i]? = some (.waiting c ch)) :
      Stepped s (s.setTask i (.ready c))
  | timedOut (i : ℕ) (timeout : ℤ) (op : String) (ch : ℕ)
      (hi : s.tasks[i]? = some (.waiting (.syncPop timeout op) ch)) :
      Stepped s (s.setTask i (.ended (.syncPop timeout op)
        (.error (.timeout (timeoutMessage timeout op)))))

theorem State.step_cases {e : Event V} (h : s.step e = some t) : Stepped s t := by
  cases e with
  | call c =>
      obtain rfl := Option.some.inj h
      exact .call c
  | run i =>
      simp only [State.step] at h
      split at h
      · next c hi =>
          obtain rfl := Option.some.inj h
          exact .entered i c hi
      · next c ch hi =>
          split at h
          · obtain rfl := Option.some.inj h
            exact .woken i c ch hi
          · cases h
      · cases h
      · cases h
  | timeout i =>
      simp only [State.step] at h
      split at h
      · next timeout op ch hi =>
          split at h
          · obtain rfl := Option.some.inj h
            exact .timedOut i timeout op ch hi
          · cases h
      · cases h

/-- What a call leaves behind when it has been through the lock. -/
inductive EnterStep (s : State V) (i : ℕ) : Call V → State V → Prop where
  | pushed (v : V) (hroom : s.q.items.length < s.q.cap) : EnterStep s i (.push v)
      { q := { s.q with items := s.q.items ++ [v] }.signalLocked
        tasks := s.tasks.set i (.ended (.push v) (.ok .unit))
        pushed := s.pushed ++ [(i, v)]
        popped := s.popped }
  | popped (timeout : ℤ) (op : String) (v : V) (rest : List V) (hitems : s.q.items = v :: rest) :
      EnterStep s i (.syncPop timeout op)
        { q := { s.q with items := rest }.signalLocked
          tasks := s.tasks.set i (.ended (.syncPop timeout op) (.ok (.item (some v))))
          pushed := s.pushed
          popped := s.popped ++ [(i, v)] }
  | closed : EnterStep s i .close
      { q := { s.q with closed := true }.signalLocked
        tasks := s.tasks.set i (.ended .close (.ok .unit))
        pushed := s.pushed
        popped := s.popped }
  | same (c : Call V) (r : Outcome V) (hpush : ∀ v, c = .push v → ∃ e, r = .error e)
      (hpop : ∀ v, r ≠ .ok (.item (some v))) : EnterStep s i c (s.setTask i (.ended c r))
  | waits (c : Call V) (hblocked : ¬s.q.Free c) :
      EnterStep s i c (s.setTask i (.waiting c s.q.changed))

theorem State.enter_cases (s : State V) (i : ℕ) (c : Call V) : EnterStep s i c (s.enter i c) := by
  have h := s.q.enter_cases c
  unfold State.enter
  generalize s.q.enter c = r at h
  cases h with
  | pushed v hroom => exact .pushed v hroom
  | popped timeout op v rest hitems => exact .popped timeout op v rest hitems
  | closed => exact .closed
  | same c r hpush hpop =>
      have hrecord : ({ s with q := s.q } : State V).record i c r = s := by
        unfold State.record
        split
        · obtain ⟨e, he⟩ := hpush _ rfl
          cases he
        · exact absurd rfl (hpop _)
        · rfl
      dsimp only
      rw [hrecord]
      exact .same c r hpush hpop
  | waits c hblocked => exact .waits c hblocked

/-! ## Values -/

/-- The value that a call has pushed. -/
def Pc.pushed : Pc V → Option V
  | .ended (.push v) (.ok .unit) => some v
  | _ => none

/-- The value that a call has popped. -/
def Pc.popped : Pc V → Option V
  | .ended (.syncPop _ _) (.ok (.item v)) => v
  | _ => none

theorem Pc.pushed_eq_some {pc : Pc V} {v : V} :
    pc.pushed = some v ↔ pc = .ended (.push v) (.ok .unit) := by
  constructor
  · intro h
    unfold Pc.pushed at h
    split at h
    · obtain rfl := Option.some.inj h
      rfl
    · cases h
  · rintro rfl
    rfl

theorem Pc.popped_eq_some {pc : Pc V} {v : V} :
    pc.popped = some v ↔ ∃ timeout op, pc = .ended (.syncPop timeout op) (.ok (.item (some v))) := by
  constructor
  · intro h
    unfold Pc.popped at h
    split at h
    · next timeout op w =>
        subst h
        exact ⟨timeout, op, rfl⟩
    · cases h
  · rintro ⟨timeout, op, rfl⟩
    rfl

/-- The items are what was pushed and not popped, and both histories are those of the calls. -/
structure Kept (capacity : ℕ) (s : State V) : Prop where
  cap : s.q.cap = capacity
  bound : s.q.items.length ≤ capacity
  order : s.pushed.map Prod.snd = s.popped.map Prod.snd ++ s.q.items
  pushes : Recorded Pc.pushed s.tasks s.pushed
  pops : Recorded Pc.popped s.tasks s.popped

namespace Kept

variable {capacity : ℕ} {i : ℕ} {c : Call V}

/-- A task that has done nothing gets to where it still has done nothing. -/
theorem setTask (h : Kept capacity s) {pc pc' : Pc V} (hi : s.tasks[i]? = some pc)
    (hpushed : pc.pushed = none) (hpopped : pc.popped = none) (hpushed' : pc'.pushed = none)
    (hpopped' : pc'.popped = none) : Kept capacity (s.setTask i pc') where
  cap := h.cap
  bound := h.bound
  order := h.order
  pushes := h.pushes.set hi hpushed hpushed'
  pops := h.pops.set hi hpopped hpopped'

theorem enter (h : Kept capacity s) (hi : s.tasks[i]? = some (.ready c)) :
    Kept capacity (s.enter i c) := by
  have hstep := s.enter_cases i c
  generalize s.enter i c = t at hstep ⊢
  cases hstep with
  | pushed v hroom =>
      rw [h.cap] at hroom
      refine ⟨h.cap, ?_, ?_, h.pushes.snoc hi rfl rfl, h.pops.set hi rfl rfl⟩
      · simpa [SyncQueue.signalLocked] using hroom
      · simp [SyncQueue.signalLocked, h.order]
  | popped timeout op v rest hitems =>
      have hbound := h.bound
      rw [hitems, List.length_cons] at hbound
      refine ⟨h.cap, (Nat.le_succ _).trans hbound, ?_, h.pushes.set hi rfl rfl,
        h.pops.snoc hi rfl rfl⟩
      simp [SyncQueue.signalLocked, h.order, hitems]
  | closed => exact ⟨h.cap, h.bound, h.order, h.pushes.set hi rfl rfl, h.pops.set hi rfl rfl⟩
  | same c r hpush hpop =>
      refine h.setTask hi rfl rfl ?_ ?_
      · unfold Pc.pushed
        split
        · next heq =>
            obtain ⟨rfl, rfl⟩ := Pc.ended.inj heq
            obtain ⟨e, he⟩ := hpush _ rfl
            cases he
        · rfl
      · unfold Pc.popped
        split
        · next v heq =>
            obtain ⟨rfl, rfl⟩ := Pc.ended.inj heq
            cases v with
            | none => rfl
            | some v => exact absurd rfl (hpop v)
        · rfl
  | waits c hblocked => exact h.setTask hi rfl rfl rfl rfl

theorem step (h : Kept capacity s) {e : Event V} (hstep : s.step e = some t) : Kept capacity t := by
  cases State.step_cases hstep with
  | call c => exact ⟨h.cap, h.bound, h.order, h.pushes.concat rfl, h.pops.concat rfl⟩
  | entered i c hi => exact h.enter hi
  | woken i c ch hi => exact h.setTask hi rfl rfl rfl rfl
  | timedOut i timeout op ch hi => exact h.setTask hi rfl rfl rfl rfl

end Kept

/-! ## Waits -/

/-- A call that waits for the current channel has nothing to go on with. -/
structure Waits (s : State V) : Prop where
  known : ∀ (i : ℕ) c ch, s.tasks[i]? = some (.waiting c ch) → ch ≤ s.q.changed
  blocked : ∀ (i : ℕ) c, s.tasks[i]? = some (.waiting c s.q.changed) → ¬s.q.Free c

namespace Waits

variable {i : ℕ} {c : Call V}

/-- A task moves, and does not wait. -/
theorem setTask (h : Waits s) {pc : Pc V} (hpc : ∀ c ch, pc ≠ .waiting c ch) :
    Waits (s.setTask i pc) where
  known j c ch hj := by
    rcases getElem?_set_cases hj with ⟨_, heq⟩ | ⟨_, hj⟩
    · exact absurd heq.symm (hpc c ch)
    · exact h.known j c ch hj
  blocked j c hj := by
    rcases getElem?_set_cases hj with ⟨_, heq⟩ | ⟨_, hj⟩
    · exact absurd heq.symm (hpc c _)
    · exact h.blocked j c hj

/-- A change leaves nobody waiting for the current channel. -/
theorem changed (h : Waits s) {pc : Pc V} (hpc : ∀ c ch, pc ≠ .waiting c ch)
    (hchanged : t.q.changed = s.q.changed + 1) (htasks : t.tasks = s.tasks.set i pc) : Waits t where
  known j c ch hj := by
    rw [htasks] at hj
    rcases getElem?_set_cases hj with ⟨_, heq⟩ | ⟨_, hj⟩
    · exact absurd heq.symm (hpc c ch)
    · have hle := h.known j c ch hj
      omega
  blocked j c hj := by
    rw [htasks, hchanged] at hj
    rcases getElem?_set_cases hj with ⟨_, heq⟩ | ⟨_, hj⟩
    · exact absurd heq.symm (hpc c _)
    · have hle := h.known j c _ hj
      omega

theorem enter (h : Waits s) : Waits (s.enter i c) := by
  have hstep := s.enter_cases i c
  generalize s.enter i c = t at hstep ⊢
  cases hstep with
  | pushed v hroom => exact h.changed (by simp) rfl rfl
  | popped timeout op v rest hitems => exact h.changed (by simp) rfl rfl
  | closed => exact h.changed (by simp) rfl rfl
  | same c r hpush hpop => exact h.setTask (by simp)
  | waits c hblocked =>
      refine ⟨?_, ?_⟩
      · intro j d ch hj
        rcases getElem?_set_cases hj with ⟨_, heq⟩ | ⟨_, hj⟩
        · obtain ⟨_, rfl⟩ := Pc.waiting.inj heq
          exact le_rfl
        · exact h.known j d ch hj
      · intro j d hj
        rcases getElem?_set_cases hj with ⟨_, heq⟩ | ⟨_, hj⟩
        · obtain ⟨rfl, _⟩ := Pc.waiting.inj heq
          exact hblocked
        · exact h.blocked j d hj

theorem step (h : Waits s) {e : Event V} (hstep : s.step e = some t) : Waits t := by
  cases State.step_cases hstep with
  | call c =>
      refine ⟨?_, ?_⟩
      · intro j d ch hj
        rcases getElem?_concat_cases hj with ⟨_, heq⟩ | hj
        · cases heq
        · exact h.known j d ch hj
      · intro j d hj
        rcases getElem?_concat_cases hj with ⟨_, heq⟩ | hj
        · cases heq
        · exact h.blocked j d hj
  | entered i c hi => exact h.enter
  | woken i c ch hi => exact h.setTask (by simp)
  | timedOut i timeout op ch hi => exact h.setTask (by simp)

end Waits

/-- A call whose condition holds can go on. -/
theorem Waits.runs (h : Waits s) {i : ℕ} {c : Call V} (hfree : s.q.Free c)
    (hi : s.tasks[i]? = some (.ready c) ∨ ∃ ch, s.tasks[i]? = some (.waiting c ch)) :
    (s.step (.run i)).isSome = true := by
  rcases hi with hi | ⟨ch, hi⟩
  · simp [State.step, hi]
  · have hne : ch ≠ s.q.changed := by
      rintro rfl
      exact h.blocked i c hi hfree
    have hlt : ch < s.q.changed := lt_of_le_of_ne (h.known i c ch hi) hne
    simp [State.step, hi, hlt]

/-! ## Failed calls -/

/-- What ends with an error has changed nothing else. -/
theorem State.failed_step {e : Event V} (hstep : s.step e = some t) {i : ℕ} {c : Call V}
    {err : SyncError} (ht : t.tasks[i]? = some (.ended c (.error err)))
    (hs : s.tasks[i]? ≠ some (.ended c (.error err))) :
    t = s.setTask i (.ended c (.error err)) := by
  have hmoved : ∀ {j : ℕ} {pc : Pc V}, (s.tasks.set j pc)[i]? = some (.ended c (.error err)) →
      j = i ∧ pc = .ended c (.error err) := by
    intro j pc h
    rcases getElem?_set_cases h with ⟨hij, heq⟩ | ⟨_, h⟩
    · exact ⟨hij, heq.symm⟩
    · exact absurd h hs
  cases State.step_cases hstep with
  | call d =>
      rcases getElem?_concat_cases ht with ⟨_, heq⟩ | h
      · cases heq
      · exact absurd h hs
  | entered j d hj =>
      have henter := s.enter_cases j d
      generalize s.enter j d = t at henter ht ⊢
      cases henter with
      | pushed v hroom => cases (hmoved ht).2
      | popped timeout op v rest hitems => cases (hmoved ht).2
      | closed => cases (hmoved ht).2
      | same d r hpush hpop =>
          obtain ⟨rfl, heq⟩ := hmoved ht
          rw [heq]
      | waits d hblocked => cases (hmoved ht).2
  | woken j d ch hj => cases (hmoved ht).2
  | timedOut j timeout op ch hj =>
      obtain ⟨rfl, heq⟩ := hmoved ht
      rw [heq]

/-! ## Every run -/

abbrev Runs (s : State V) (es : List (Event V)) (t : State V) : Prop :=
  Run (fun a e b => a.step e = some b) s es t

theorem newQueue_eq {c : ℤ} (h : newQueue c = .ok q) :
    (q.cap : ℤ) = c ∧ q.items = [] ∧ q.closed = false := by
  unfold newQueue at h
  split at h
  · cases h
  · next hc =>
      obtain rfl := Except.ok.inj h
      exact ⟨Int.toNat_of_nonneg (by omega), rfl, rfl⟩

/-- A new queue under any calls: its items are the values pushed and not popped, in order and
within the capacity; each call that succeeds has pushed or popped once; a call that fails changes
nothing; and a call that can go on is not asleep. -/
theorem queue_keeps {c : ℤ} (hq : newQueue c = .ok q) {es : List (Event V)}
    (hrun : Runs (State.init q) es s) :
    (s.q.items.length : ℤ) ≤ c ∧
    s.pushed.map Prod.snd = s.popped.map Prod.snd ++ s.q.items ∧
    ((∀ i v, (i, v) ∈ s.pushed ↔ s.tasks[i]? = some (.ended (.push v) (.ok .unit))) ∧
      (s.pushed.map Prod.fst).Nodup) ∧
    ((∀ i v, (i, v) ∈ s.popped ↔
      ∃ timeout op, s.tasks[i]? = some (.ended (.syncPop timeout op) (.ok (.item (some v))))) ∧
      (s.popped.map Prod.fst).Nodup) ∧
    (∀ e t (i : ℕ) call err, s.step e = some t →
      t.tasks[i]? = some (.ended call (.error err)) →
      s.tasks[i]? ≠ some (.ended call (.error err)) →
      t = s.setTask i (.ended call (.error err))) ∧
    ∀ (i : ℕ) call, s.q.Free call →
      (s.tasks[i]? = some (.ready call) ∨ ∃ ch, s.tasks[i]? = some (.waiting call ch)) →
      (s.step (.run i)).isSome = true := by
  obtain ⟨hcap, hitems, _⟩ := newQueue_eq hq
  have hkept : Kept q.cap s := by
    refine hrun.invariant (fun a e b h hstep => h.step hstep)
      ⟨rfl, ?_, ?_, Recorded.nil _, Recorded.nil _⟩
    · simp [State.init, hitems]
    · simp [State.init, hitems]
  have hwaits : Waits s := by
    refine hrun.invariant (fun a e b h hstep => h.step hstep) ⟨?_, ?_⟩
    · intro i d ch hi
      cases hi
    · intro i d hi
      cases hi
  refine ⟨?_, hkept.order, ⟨?_, hkept.pushes.once⟩, ⟨?_, hkept.pops.once⟩, ?_, ?_⟩
  · rw [← hcap]
    exact Int.ofNat_le.2 hkept.bound
  · intro i v
    rw [hkept.pushes.mem_iff]
    constructor
    · rintro ⟨pc, hi, hpc⟩
      rwa [← Pc.pushed_eq_some.1 hpc]
    · intro hi
      exact ⟨_, hi, rfl⟩
  · intro i v
    rw [hkept.pops.mem_iff]
    constructor
    · rintro ⟨pc, hi, hpc⟩
      obtain ⟨timeout, op, rfl⟩ := Pc.popped_eq_some.1 hpc
      exact ⟨timeout, op, hi⟩
    · rintro ⟨timeout, op, hi⟩
      exact ⟨_, hi, rfl⟩
  · intro e t i call err hstep ht hs
    exact State.failed_step hstep ht hs
  · intro i call hfree hi
    exact hwaits.runs hfree hi

/-- A queue of one place: a pop runs out of time, two calls push and a fourth pops. -/
def pushTwice : List (Event ℕ) :=
  [.call (.popWithin 5), .run 0, .timeout 0, .call (.push 7), .call (.push 8), .run 1, .run 2,
    .call .pop, .run 3]

theorem pushTwice_keeps :
    ∃ q s, newQueue 1 = .ok q ∧ Runs (State.init q) pushTwice s ∧
      s.popped.map Prod.snd ++ s.q.items = [7] ∧ (s.step (.run 2)).isSome = true := by
  have hq : newQueue 1 = .ok (⟨[], 1, false, 0⟩ : SyncQueue ℕ) := by decide
  have hfields : (pushTwice.foldlM State.step (State.init (⟨[], 1, false, 0⟩ : SyncQueue ℕ))).map
      (fun s => (s.pushed, s.q, s.tasks[2]?)) =
        some ([(1, 7)], ⟨[], 1, false, 2⟩, some (.waiting (.push 8) 1)) := by decide
  obtain ⟨s, hs, hfields⟩ := Option.map_eq_some_iff.1 hfields
  obtain ⟨hpushed, hrest⟩ := Prod.mk.inj hfields
  obtain ⟨hfinal, htask⟩ := Prod.mk.inj hrest
  have hrun : Runs (State.init ⟨[], 1, false, 0⟩) pushTwice s := Run.iff_foldlM.2 hs
  obtain ⟨_, horder, _, _, _, hruns⟩ := queue_keeps hq hrun
  refine ⟨_, s, hq, hrun, ?_, hruns 2 (.push 8) ?_ (.inr ⟨1, htask⟩)⟩
  · rw [← horder, hpushed]
    rfl
  · rw [hfinal]
    exact .inr (by decide)

end Sky.Sync
