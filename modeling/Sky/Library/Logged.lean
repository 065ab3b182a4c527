import Mathlib

/-! # Computations with a log

A computation that may fail, and leaves a log of what it did also when it fails. -/

namespace Sky.Library

universe u

structure Logged (ω ε α : Type*) where
  log : List ω
  result : Except ε α

namespace Logged

variable {ω ε ε' : Type*} {α β : Type u}

protected def bind (x : Logged ω ε α) (f : α → Logged ω ε β) : Logged ω ε β :=
  match x.result with
  | .ok a => ⟨x.log ++ (f a).log, (f a).result⟩
  | .error e => ⟨x.log, .error e⟩

instance : Monad (Logged ω ε) where
  pure a := ⟨[], .ok a⟩
  bind := Logged.bind

def tell (w : ω) : Logged ω ε Unit := ⟨[w], .ok ()⟩

def fail (e : ε) : Logged ω ε α := ⟨[], .error e⟩

def ofExcept (r : Except ε α) : Logged ω ε α := ⟨[], r⟩

def mapError (f : ε → ε') (x : Logged ω ε α) : Logged ω ε' α :=
  ⟨x.log, x.result.mapError f⟩

@[simp] theorem result_pure (a : α) : (pure a : Logged ω ε α).result = .ok a := rfl

@[simp] theorem log_pure (a : α) : (pure a : Logged ω ε α).log = [] := rfl

@[simp] theorem result_tell (w : ω) : (tell w : Logged ω ε Unit).result = .ok () := rfl

@[simp] theorem log_tell (w : ω) : (tell w : Logged ω ε Unit).log = [w] := rfl

@[simp] theorem result_fail (e : ε) : (fail e : Logged ω ε α).result = .error e := rfl

@[simp] theorem log_fail (e : ε) : (fail e : Logged ω ε α).log = [] := rfl

@[simp] theorem result_ofExcept (r : Except ε α) : (ofExcept r : Logged ω ε α).result = r := rfl

@[simp] theorem log_ofExcept (r : Except ε α) : (ofExcept r : Logged ω ε α).log = [] := rfl

@[simp] theorem log_mapError (f : ε → ε') (x : Logged ω ε α) : (x.mapError f).log = x.log := rfl

theorem result_mapError_of_ok {f : ε → ε'} {x : Logged ω ε α} {a : α} (h : x.result = .ok a) :
    (x.mapError f).result = .ok a := by
  simp [mapError, h, Except.mapError]

theorem result_bind_of_ok {x : Logged ω ε α} {f : α → Logged ω ε β} {a : α}
    (h : x.result = .ok a) : (x >>= f).result = (f a).result := by
  change (Logged.bind x f).result = _
  simp [Logged.bind, h]

/-- A sequence whose first part is known. -/
theorem mk_ok_bind (w : List ω) (a : α) (f : α → Logged ω ε β) :
    ((⟨w, .ok a⟩ : Logged ω ε α) >>= f) = ⟨w ++ (f a).log, (f a).result⟩ := rfl

theorem mk_error_bind (w : List ω) (e : ε) (f : α → Logged ω ε β) :
    ((⟨w, .error e⟩ : Logged ω ε α) >>= f) = ⟨w, .error e⟩ := rfl

/-- What a sequence logs: the first part's log, and the second's when the first succeeds. -/
theorem log_bind_cases (x : Logged ω ε α) (f : α → Logged ω ε β) :
    (∃ e, x.result = .error e ∧ (x >>= f).log = x.log ∧ (x >>= f).result = .error e) ∨
      ∃ a, x.result = .ok a ∧ (x >>= f).log = x.log ++ (f a).log ∧
        (x >>= f).result = (f a).result := by
  change (∃ e, x.result = .error e ∧ (Logged.bind x f).log = x.log ∧
    (Logged.bind x f).result = .error e) ∨ ∃ a, x.result = .ok a ∧
      (Logged.bind x f).log = x.log ++ (f a).log ∧ (Logged.bind x f).result = (f a).result
  cases h : x.result with
  | ok a => exact .inr ⟨a, rfl, by simp [Logged.bind, h], by simp [Logged.bind, h]⟩
  | error e => exact .inl ⟨e, rfl, by simp [Logged.bind, h], by simp [Logged.bind, h]⟩

/-- A sequence succeeds when both parts do. -/
theorem bind_ok {x : Logged ω ε α} {f : α → Logged ω ε β} {b : β}
    (h : (x >>= f).result = .ok b) : ∃ a, x.result = .ok a ∧ (f a).result = .ok b := by
  rcases log_bind_cases x f with ⟨e, _, _, hresult⟩ | ⟨a, hx, _, hresult⟩
  · rw [hresult] at h
    cases h
  · exact ⟨a, hx, hresult.symm.trans h⟩

end Logged

end Sky.Library
