import Sky.Library.Run
import Sky.Library.Tasks

/-! # Programs over shared atomic cells

A program panics, is done, or does one atomic step on the shared state and goes on with what it
saw. `Ensures` is the rule for a program among others: each of its steps is checked from any state
that the others may have left. -/

namespace Sky.Library

inductive Atomic (σ α : Type) where
  | panic
  | done (a : α)
  | step (act : σ → σ) (next : σ → Atomic σ α)

namespace Atomic

variable {σ α β : Type} {I I' : σ → Prop} {G G' : σ → σ → Prop} {P : α → Prop} {Q : β → Prop}

protected def bind : Atomic σ α → (α → Atomic σ β) → Atomic σ β
  | panic, _ => panic
  | done a, f => f a
  | step act next, f => step act fun s => (next s).bind f

instance : Monad (Atomic σ) where
  pure := done
  bind := Atomic.bind

/-- Read a part of the state. -/
def load (f : σ → α) : Atomic σ α := step id fun s => done (f s)

/-- Replace a part of the state. -/
def store (act : σ → σ) : Atomic σ Unit := step act fun _ => done ()

/-- A value that may not be there; without it the program panics. -/
def ofOption : Option α → Atomic σ α
  | none => panic
  | some a => done a

/-- Where the shared state satisfies `I` before each step of the program, the step keeps to `G`;
the program does not panic, takes at most so many steps, and what it returns satisfies `P`. -/
def Ensures (I : σ → Prop) (G : σ → σ → Prop) (P : α → Prop) : ℕ → Atomic σ α → Prop
  | _, panic => False
  | _, done a => P a
  | 0, step _ _ => False
  | n + 1, step act next => ∀ s, I s → G s (act s) ∧ Ensures I G P n (next s)

@[simp] theorem ensures_done {n : ℕ} {a : α} : Ensures I G P n (done a) ↔ P a := by
  cases n <;> rfl

theorem Ensures.pure {n : ℕ} {a : α} (h : P a) : Ensures I G P n (Pure.pure a) :=
  ensures_done.2 h

theorem Ensures.mono {m n : ℕ} {x : Atomic σ α} (h : Ensures I G P m x) (hmn : m ≤ n) :
    Ensures I G P n x := by
  induction x generalizing m n with
  | panic => cases m <;> exact h.elim
  | done a => simpa using h
  | step act next ih =>
      cases m with
      | zero => exact h.elim
      | succ m =>
          obtain ⟨n, rfl⟩ : ∃ k, n = k + 1 := ⟨n - 1, by omega⟩
          intro s hs
          obtain ⟨hact, hnext⟩ := h s hs
          exact ⟨hact, ih s hnext (by omega)⟩

theorem Ensures.bind {m n : ℕ} {x : Atomic σ α} {f : α → Atomic σ β} (hx : Ensures I G P m x)
    (hf : ∀ a, P a → Ensures I G Q n (f a)) : Ensures I G Q (m + n) (x >>= f) := by
  change Ensures I G Q (m + n) (x.bind f)
  induction x generalizing m with
  | panic => cases m <;> exact hx.elim
  | done a => exact (hf a (ensures_done.1 hx)).mono (Nat.le_add_left n m)
  | step act next ih =>
      cases m with
      | zero => exact hx.elim
      | succ m =>
          rw [Nat.add_right_comm]
          intro s hs
          obtain ⟨hact, hnext⟩ := hx s hs
          exact ⟨hact, ih s hnext⟩

theorem Ensures.load {f : σ → α} (hG : ∀ s, I s → G s s) (hP : ∀ s, I s → P (f s)) :
    Ensures I G P 1 (load f) :=
  fun s hs => ⟨hG s hs, ensures_done.2 (hP s hs)⟩

theorem Ensures.store {act : σ → σ} (h : ∀ s, I s → G s (act s)) :
    Ensures I G (fun _ => True) 1 (store act) :=
  fun s hs => ⟨h s hs, ensures_done.2 trivial⟩

theorem Ensures.ofOption {n : ℕ} {o : Option α} {a : α} (ho : o = some a) (h : P a) :
    Ensures I G P n (ofOption o) := by
  subst ho
  exact ensures_done.2 h

/-- A program that does not fail is done, or can go on. -/
theorem Ensures.cases {n : ℕ} {x : Atomic σ α} (h : Ensures I G P n x) :
    (∃ a, x = done a ∧ P a) ∨ ∃ m act next, n = m + 1 ∧ x = step act next := by
  cases x with
  | panic => cases n <;> exact h.elim
  | done a => exact .inl ⟨a, rfl, ensures_done.1 h⟩
  | step act next =>
      cases n with
      | zero => exact h.elim
      | succ n => exact .inr ⟨n, act, next, rfl, rfl⟩

end Atomic

/-! ## Programs that take steps in any order -/

/-- `steps` counts the steps that the program has taken. -/
structure AtomicTask (σ κ α : Type) where
  key : κ
  prog : Atomic σ α
  steps : ℕ

/-- The key of a program that is still running. -/
def AtomicTask.running? {σ κ α : Type} : AtomicTask σ κ α → Option κ
  | ⟨k, .step _ _, _⟩ => some k
  | _ => none

structure AtomicState (σ κ α : Type) where
  shared : σ
  tasks : List (AtomicTask σ κ α)

inductive AtomicEvent (κ : Type) where
  | start (k : κ)
  | step (i : ℕ)
  deriving DecidableEq

namespace AtomicState

variable {σ κ α : Type}

def running (a : AtomicState σ κ α) : List κ := a.tasks.filterMap AtomicTask.running?

/-- A program starts where the environment admits it, or a running one takes a step. -/
inductive Step (prog : κ → Atomic σ α) (admits : σ → List κ → κ → Prop) :
    AtomicState σ κ α → AtomicEvent κ → AtomicState σ κ α → Prop where
  | start {a k} (h : admits a.shared a.running k) :
      Step prog admits a (.start k) ⟨a.shared, a.tasks ++ [⟨k, prog k, 0⟩]⟩
  | step {a i k act next n} (h : a.tasks[i]? = some ⟨k, .step act next, n⟩) :
      Step prog admits a (.step i) ⟨act a.shared, a.tasks.set i ⟨k, next a.shared, n + 1⟩⟩

/-- What the programs of a system may rely on: `J` holds of the state and the programs that are
running, and a step of one of them that keeps to its `G` keeps it. -/
structure Contract (J : σ → List κ → Prop) (I : κ → σ → Prop) (G : κ → σ → σ → Prop)
    (admits : σ → List κ → κ → Prop) : Prop where
  sub {s ks ks'} (h : J s ks) (hsub : ∀ k ∈ ks', k ∈ ks) : J s ks'
  start {s ks k} (h : J s ks) (hk : admits s ks k) : J s (k :: ks)
  rely {s ks k} (h : J s ks) (hk : k ∈ ks) : I k s
  guarantee {s s' ks k} (h : J s ks) (hk : k ∈ ks) (hG : G k s s') : J s' ks

/-- What is left of a program keeps to its contract. -/
def Held (J : σ → List κ → Prop) (I : κ → σ → Prop) (G : κ → σ → σ → Prop) (P : κ → α → Prop)
    (n : ℕ) (a : AtomicState σ κ α) : Prop :=
  J a.shared a.running ∧
    ∀ t ∈ a.tasks, ∃ m, m + t.steps = n ∧ (t.prog).Ensures (I t.key) (G t.key) (P t.key) m

variable {J : σ → List κ → Prop} {I : κ → σ → Prop} {G : κ → σ → σ → Prop} {P : κ → α → Prop}
  {admits : σ → List κ → κ → Prop} {prog : κ → Atomic σ α} {n : ℕ} {a b : AtomicState σ κ α}
  {e : AtomicEvent κ}

theorem mem_running_of_step {k : κ} {act : σ → σ} {next : σ → Atomic σ α} {i m : ℕ}
    (h : a.tasks[i]? = some ⟨k, .step act next, m⟩) : k ∈ a.running :=
  List.mem_filterMap.2 ⟨_, List.mem_of_getElem? h, rfl⟩

theorem running?_eq {t : AtomicTask σ κ α} {k : κ} (h : t.running? = some k) : t.key = k := by
  obtain ⟨key, prog, steps⟩ := t
  cases prog with
  | panic => cases h
  | done a => cases h
  | step act next => exact Option.some.inj h

theorem held_step (hc : Contract J I G admits)
    (hprog : ∀ k, (prog k).Ensures (I k) (G k) (P k) n) (h : Held J I G P n a)
    (hstep : Step prog admits a e b) : Held J I G P n b := by
  obtain ⟨hJ, htasks⟩ := h
  cases hstep with
  | @start k hk =>
      refine ⟨hc.sub (hc.start hJ hk) ?_, ?_⟩
      · intro key hkey
        obtain ⟨t, ht, hrunning⟩ := List.mem_filterMap.1 hkey
        rcases List.mem_append.1 ht with ht | ht
        · exact .tail _ (List.mem_filterMap.2 ⟨t, ht, hrunning⟩)
        · obtain rfl := List.mem_singleton.1 ht
          rw [← running?_eq hrunning]
          exact .head _
      · intro t ht
        rcases List.mem_append.1 ht with ht | ht
        · exact htasks t ht
        · obtain rfl := List.mem_singleton.1 ht
          exact ⟨n, rfl, hprog k⟩
  | @step i k act next taken hi =>
      have hk := mem_running_of_step hi
      obtain ⟨m, hm, hx⟩ := htasks _ (List.mem_of_getElem? hi)
      cases m with
      | zero => exact hx.elim
      | succ m =>
          obtain ⟨hact, hnext⟩ := hx a.shared (hc.rely hJ hk)
          refine ⟨hc.sub (hc.guarantee hJ hk hact) ?_, ?_⟩
          · intro key hkey
            obtain ⟨t, ht, hrunning⟩ := List.mem_filterMap.1 hkey
            rcases mem_set_cases ht with rfl | ⟨j, -, hj⟩
            · rw [← running?_eq hrunning]
              exact hk
            · exact List.mem_filterMap.2 ⟨t, List.mem_of_getElem? hj, hrunning⟩
          · intro t ht
            rcases mem_set_cases ht with rfl | ⟨j, -, hj⟩
            · refine ⟨m, ?_, hnext⟩
              simp only at hm ⊢
              omega
            · exact htasks t (List.mem_of_getElem? hj)

/-- In a system of programs that each keep to their contract, every program keeps to it whatever
the others do. -/
theorem held_run (hc : Contract J I G admits)
    (hprog : ∀ k, (prog k).Ensures (I k) (G k) (P k) n) {es : List (AtomicEvent κ)}
    (h : Run (Step prog admits) a es b) (ha : Held J I G P n a) : Held J I G P n b :=
  h.invariant (fun _ _ _ hheld hstep => held_step hc hprog hheld hstep) ha

end AtomicState

end Sky.Library
