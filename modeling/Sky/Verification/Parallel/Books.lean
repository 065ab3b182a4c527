import Sky.Verification.Parallel.Steps

/-! # Each outcome reaches the caller once, and each panic is settled once -/

namespace Sky.Parallel

open Library

variable {V E P : Type} {s t : State V E P} {i : ℕ}

/-! ## What is left to a branch -/

structure Todos (limit : Option ℕ) (r : Result V E P) (todo : List Todo) : Prop where
  nodup : todo.Nodup
  apart : .send ∈ todo → .log ∉ todo
  panic : .log ∈ todo → ∃ p, r = .panicked p
  plain : limit = none → .release ∉ todo

theorem Todos.todo (s : State V E P) (r : Result V E P) : Todos s.limit r (s.todo r) := by
  unfold State.todo
  cases hlimit : s.limit with
  | none => exact ⟨by simp, by simp, by simp, by simp⟩
  | some lim => cases r <;> exact ⟨by simp, by simp, by simp, by simp⟩

namespace Todos

variable {limit : Option ℕ} {r : Result V E P} {a : Todo} {rest : List Todo}

theorem head (h : Todos limit r (a :: rest)) : a ∉ rest := (List.nodup_cons.1 h.nodup).1

theorem tail (h : Todos limit r (a :: rest)) : Todos limit r rest where
  nodup := (List.nodup_cons.1 h.nodup).2
  apart hsend hlog := h.apart (List.mem_cons_of_mem _ hsend) (List.mem_cons_of_mem _ hlog)
  panic hlog := h.panic (List.mem_cons_of_mem _ hlog)
  plain hlimit hrelease := h.plain hlimit (List.mem_cons_of_mem _ hrelease)

theorem not_log (h : Todos limit r (.send :: rest)) : .log ∉ rest := fun hlog =>
  h.apart (List.mem_cons_self ..) (List.mem_cons_of_mem _ hlog)

theorem refused {p : P} (h : Todos limit (.panicked (V := V) (E := E) p) (.send :: rest)) :
    Todos limit (.panicked (V := V) (E := E) p) (.log :: rest) where
  nodup := List.nodup_cons.2 ⟨h.not_log, h.tail.nodup⟩
  apart hsend := by
    have hrest : Todo.send ∈ rest := by simpa using hsend
    exact absurd hrest h.head
  panic _ := ⟨p, rfl⟩
  plain hlimit hrelease := h.tail.plain hlimit (by simpa using hrelease)

end Todos

/-- Every branch whose task has ended. -/
def Shape (s : State V E P) : Prop :=
  ∀ (i : ℕ) r todo, s.branches[i]? = some (Branch.ended r todo) → Todos s.limit r todo

/-- A branch moves. -/
theorem Shape.move (h : Shape s) {b : Branch V E P} (hlimit : t.limit = s.limit)
    (hbranches : t.branches = s.branches.set i b)
    (hb : ∀ r todo, b = .ended r todo → Todos s.limit r todo) : Shape t := by
  intro j r todo hj
  rw [hbranches] at hj
  rw [hlimit]
  rcases getElem?_set_cases hj with ⟨_, heq⟩ | ⟨_, hj⟩
  · exact hb r todo heq.symm
  · exact h j r todo hj

theorem Shape.ended (h : Shape s) {r : Result V E P} {todo : List Todo} (hlimit : t.limit = s.limit)
    (hbranches : t.branches = s.branches.set i (.ended r todo)) (htodo : Todos s.limit r todo) :
    Shape t := by
  refine h.move hlimit hbranches ?_
  intro r' todo' heq
  obtain ⟨rfl, rfl⟩ := Branch.ended.inj heq
  exact htodo

theorem Shape.same (h : Shape s) (hlimit : t.limit = s.limit) (hbranches : t.branches = s.branches) :
    Shape t := by
  intro j r todo hj
  rw [hlimit]
  exact h j r todo (hbranches ▸ hj)

theorem Shape.step (h : Shape s) (hstep : Stepped s t) : Shape t := by
  cases hstep with
  | caller hstep =>
      cases hstep with
      | launch i => exact h.move rfl rfl (by simp)
      | launched => exact h.same rfl rfl
      | receive => exact h.same rfl rfl
      | complete => exact h.same rfl rfl
      | leave => exact h.same rfl rfl
      | drain => exact h.same rfl rfl
      | drainPanic => exact h.same rfl rfl
      | drained => exact h.same rfl rfl
      | drainedN => exact h.same rfl rfl
      | close => exact h.same rfl rfl
  | dispatcher hstep =>
      cases hstep with
      | stopped => exact h.same rfl rfl
      | acquire => exact h.same rfl rfl
      | complete => exact h.same rfl rfl
      | late => exact h.same rfl rfl
      | launch i => exact h.move rfl rfl (by simp)
      | leave => exact h.same rfl rfl
  | finish i r hi => exact h.ended rfl rfl (Todos.todo s r)
  | branch i r a rest hi hstep =>
      have htodo := h i r _ hi
      cases hstep with
      | delivered => exact h.ended rfl rfl htodo.tail
      | refused hgone p hr =>
          subst hr
          exact h.ended rfl rfl htodo.refused
      | dropped => exact h.ended rfl rfl htodo.tail
      | released => exact h.ended rfl rfl htodo.tail
      | logged => exact h.ended rfl rfl htodo.tail
      | silent => exact h.ended rfl rfl htodo.tail

/-! ## Outcomes -/

/-- The outcome of a branch that has no send left. -/
def Branch.delivered : Branch V E P → Option (Result V E P)
  | .ended r todo => if .send ∈ todo then none else some r
  | .idle | .running => none

/-- What the caller took and what is in the channel are the outcomes of different branches, and of
all branches that have sent as long as the caller is there. -/
structure Sent (s : State V E P) : Prop where
  once : ((s.taken ++ s.ch).map Prod.fst).Nodup
  known : ∀ i r, (i, r) ∈ s.taken ++ s.ch → ∃ b, s.branches[i]? = some b ∧ b.delivered = some r
  all : s.gone = false → ∀ i r b, s.branches[i]? = some b → b.delivered = some r →
    (i, r) ∈ s.taken ++ s.ch

namespace Sent

theorem same (h : Sent s) (hbooks : t.taken ++ t.ch = s.taken ++ s.ch)
    (hbranches : t.branches = s.branches) (hgone : t.gone = false → s.gone = false) : Sent t := by
  constructor
  all_goals rw [hbooks]
  · exact h.once
  · rw [hbranches]
    exact h.known
  · rw [hbranches]
    exact fun hg => h.all (hgone hg)

/-- A branch moves that has sent before as after. -/
theorem move (h : Sent s) {b b' : Branch V E P} (hi : s.branches[i]? = some b)
    (hb : b'.delivered = b.delivered) (hbooks : t.taken ++ t.ch = s.taken ++ s.ch)
    (hbranches : t.branches = s.branches.set i b') (hgone : t.gone = s.gone) : Sent t := by
  have hlt := (List.getElem?_eq_some_iff.1 hi).1
  constructor
  all_goals rw [hbooks]
  · exact h.once
  · intro j r hj
    obtain ⟨c, hc, hr⟩ := h.known j r hj
    by_cases hij : i = j
    · subst hij
      obtain rfl := Option.some.inj (hi.symm.trans hc)
      refine ⟨b', ?_, hb.trans hr⟩
      rw [hbranches]
      exact List.getElem?_set_self hlt
    · refine ⟨c, ?_, hr⟩
      rw [hbranches]
      exact (List.getElem?_set_ne hij).trans hc
  · intro hg j r c hc hr
    rw [hbranches] at hc
    rcases getElem?_set_cases hc with ⟨rfl, rfl⟩ | ⟨_, hc⟩
    · exact h.all (hgone.symm.trans hg) i r b hi (hb.symm.trans hr)
    · exact h.all (hgone.symm.trans hg) j r c hc hr

/-- A branch that has not sent is in no book. -/
theorem absent (h : Sent s) {b : Branch V E P} (hi : s.branches[i]? = some b)
    (hb : b.delivered = none) (r : Result V E P) : (i, r) ∉ s.taken ++ s.ch := by
  intro hmem
  obtain ⟨c, hc, hr⟩ := h.known i r hmem
  obtain rfl := Option.some.inj (hi.symm.trans hc)
  rw [hb] at hr
  cases hr

theorem deliver (h : Sent s) {b b' : Branch V E P} {r : Result V E P}
    (hi : s.branches[i]? = some b) (hb : b.delivered = none) (hb' : b'.delivered = some r)
    (hbooks : t.taken ++ t.ch = s.taken ++ s.ch ++ [(i, r)])
    (hbranches : t.branches = s.branches.set i b') (hgone : t.gone = s.gone) : Sent t := by
  have hlt := (List.getElem?_eq_some_iff.1 hi).1
  constructor
  all_goals rw [hbooks]
  · rw [List.map_append, List.nodup_append]
    refine ⟨h.once, List.nodup_singleton _, ?_⟩
    rintro j hj k hk rfl
    obtain rfl : j = i := by simpa using hk
    obtain ⟨⟨_, q⟩, hmem, rfl⟩ := List.mem_map.1 hj
    exact h.absent hi hb q hmem
  · intro j q hj
    rw [List.mem_append, List.mem_singleton] at hj
    rcases hj with hj | heq
    · obtain ⟨c, hc, hq⟩ := h.known j q hj
      have hij : i ≠ j := by
        rintro rfl
        exact h.absent hi hb q hj
      refine ⟨c, ?_, hq⟩
      rw [hbranches]
      exact (List.getElem?_set_ne hij).trans hc
    · obtain ⟨rfl, rfl⟩ := Prod.mk.inj heq
      refine ⟨b', ?_, hb'⟩
      rw [hbranches]
      exact List.getElem?_set_self hlt
  · intro hg j q c hc hq
    rw [hbranches] at hc
    rw [List.mem_append, List.mem_singleton]
    rcases getElem?_set_cases hc with ⟨rfl, rfl⟩ | ⟨_, hc⟩
    · obtain rfl := Option.some.inj (hb'.symm.trans hq)
      exact .inr rfl
    · exact .inl (h.all (hgone.symm.trans hg) j q c hc hq)

/-- The caller has left, and a branch that could not send goes on. -/
theorem refuse (h : Sent s) {b b' : Branch V E P} (hi : s.branches[i]? = some b)
    (hb : b.delivered = none) (hbooks : t.taken ++ t.ch = s.taken ++ s.ch)
    (hbranches : t.branches = s.branches.set i b') (hgone : t.gone = true) : Sent t := by
  constructor
  all_goals rw [hbooks]
  · exact h.once
  · intro j q hj
    obtain ⟨c, hc, hq⟩ := h.known j q hj
    have hij : i ≠ j := by
      rintro rfl
      exact h.absent hi hb q hj
    refine ⟨c, ?_, hq⟩
    rw [hbranches]
    exact (List.getElem?_set_ne hij).trans hc
  · intro hg
    rw [hgone] at hg
    cases hg

end Sent

theorem Branch.delivered_tail {r : Result V E P} {a : Todo} {rest : List Todo} (ha : a ≠ .send) :
    (Branch.ended r rest).delivered = (Branch.ended r (a :: rest)).delivered := by
  simp [Branch.delivered, Ne.symm ha]

theorem Branch.delivered_running :
    (Branch.running : Branch V E P).delivered = (Branch.idle : Branch V E P).delivered := rfl

theorem State.send_mem_todo (s : State V E P) (r : Result V E P) : .send ∈ s.todo r := by
  unfold State.todo
  cases s.limit with
  | none => simp
  | some lim => cases r <;> simp

theorem Sent.step (h : Sent s) (hstarted : Started s) (hshape : Shape s) (hstep : Stepped s t) :
    Sent t := by
  cases hstep with
  | caller hstep =>
      cases hstep with
      | launch i hcaller hi =>
          have hidle := (hstarted.idle i).2 ⟨(hstarted.launching i hcaller).1.ge, hi⟩
          exact h.move hidle Branch.delivered_running rfl rfl rfl
      | launched => exact h.same rfl rfl id
      | receive received results i r ch hcaller hlt hch => exact h.same (by simp [hch]) rfl id
      | complete => exact h.same rfl rfl id
      | leave => exact h.same rfl rfl (by simp)
      | drain o i r ch hcaller hch => exact h.same (by simp [hch]) rfl id
      | drainPanic o i p ch hcaller hch => exact h.same (by simp [hch]) rfl id
      | drained => exact h.same rfl rfl id
      | drainedN => exact h.same rfl rfl id
      | close => exact h.same rfl rfl id
  | dispatcher hstep =>
      cases hstep with
      | stopped => exact h.same rfl rfl id
      | acquire => exact h.same rfl rfl id
      | complete => exact h.same rfl rfl id
      | late => exact h.same rfl rfl id
      | launch i hdispatcher hgone =>
          obtain ⟨hle, hi⟩ := hstarted.acquired i hdispatcher
          exact h.move ((hstarted.idle i).2 ⟨hle.ge, hi⟩) Branch.delivered_running rfl rfl rfl
      | leave => exact h.same rfl rfl id
  | finish i r hi =>
      refine h.move hi ?_ rfl rfl rfl
      simp [Branch.delivered, s.send_mem_todo r]
  | branch i r a rest hi hstep =>
      have htodo := hshape i r _ hi
      cases hstep with
      | delivered hgone hroom =>
          refine h.deliver hi (by simp [Branch.delivered]) ?_ (List.append_assoc ..).symm rfl rfl
          simp [Branch.delivered, htodo.head]
      | refused hgone p hr => exact h.refuse hi (by simp [Branch.delivered]) rfl rfl hgone
      | dropped hgone hr => exact h.refuse hi (by simp [Branch.delivered]) rfl rfl hgone
      | released hslots => exact h.move hi (Branch.delivered_tail (by simp)) rfl rfl rfl
      | logged p hr => exact h.move hi (Branch.delivered_tail (by simp)) rfl rfl rfl
      | silent hr => exact h.move hi (Branch.delivered_tail (by simp)) rfl rfl rfl

end Sky.Parallel
