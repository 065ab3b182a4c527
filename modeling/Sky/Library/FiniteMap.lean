import Mathlib

/-! # Finite maps and states by key

The sum of a quantity over the bindings of an association list, and how the map operations change
it. Runs of steps that each work on the part of one key. -/

namespace Sky.Library

/-! ## Sums over the bindings -/

section

variable {κ β : Type*} [DecidableEq κ]

/-- The sum of `f` over the bindings of `m`. -/
def bindingSum (f : κ → β → ℕ) (m : AList fun _ : κ => β) : ℕ :=
  (m.entries.map fun p => f p.1 p.2).sum

variable {f g : κ → β → ℕ} {m : AList fun _ : κ => β} {k : κ} {b : β}

theorem perm_cons_erase (h : m.lookup k = some b) :
    m.entries.Perm (⟨k, b⟩ :: (m.erase k).entries) := by
  have hk : k ∈ m.entries.keys := AList.lookup_isSome.mp (by rw [h]; rfl)
  obtain ⟨b', front, back, -, hsplit, herase⟩ := List.exists_of_kerase hk
  have hmem : (⟨k, b'⟩ : Sigma fun _ : κ => β) ∈ m.entries := by simp [hsplit]
  have hb : b' = b := by
    have hl := AList.mem_lookup_iff.mpr hmem
    rw [h] at hl
    exact (Option.some.inj hl).symm
  subst hb
  have he : (m.erase k).entries = front ++ back := herase
  rw [hsplit, he]
  exact List.perm_middle

/-- A binding's share leaves the sum with the binding. -/
theorem bindingSum_erase (h : m.lookup k = some b) :
    bindingSum f m = f k b + bindingSum f (m.erase k) := by
  have hp := ((perm_cons_erase h).map fun p => f p.1 p.2).sum_eq
  simpa [bindingSum] using hp

theorem bindingSum_erase_of_lookup_none (h : m.lookup k = none) :
    bindingSum f (m.erase k) = bindingSum f m := by
  have hk : k ∉ m.entries.keys := AList.lookup_eq_none.mp h
  have he : (m.erase k).entries = m.entries := List.kerase_of_notMem_keys hk
  rw [bindingSum, he, bindingSum]

theorem bindingSum_insert : bindingSum f (m.insert k b) = f k b + bindingSum f (m.erase k) := by
  simp [bindingSum, AList.erase]

theorem bindingSum_congr (h : ∀ k b, m.lookup k = some b → f k b = g k b) :
    bindingSum f m = bindingSum g m := by
  rw [bindingSum, bindingSum]
  refine congrArg List.sum (List.map_congr_left ?_)
  intro p hp
  exact h p.1 p.2 (AList.mem_lookup_iff.mpr hp)

theorem bindingSum_eq_zero (h : ∀ k b, m.lookup k = some b → f k b = 0) : bindingSum f m = 0 := by
  rw [bindingSum_congr h, bindingSum]
  simp

end

/-! ## Steps that each work on one part -/

variable {κ σ ε : Type*} [DecidableEq κ]

/-- The step on the whole state of a step on a part. -/
def keyed (key : ε → κ) (f : σ → ε → Option σ) (s : κ → σ) (e : ε) : Option (κ → σ) :=
  (f (s (key e)) e).map (Function.update s (key e))

variable {key : ε → κ} {f : σ → ε → Option σ} {es : List ε} {s s' : κ → σ}

theorem keyed_eq_some {e : ε} (h : keyed key f s e = some s') :
    f (s (key e)) e = some (s' (key e)) ∧ ∀ k, k ≠ key e → s' k = s k := by
  obtain ⟨x, hx, rfl⟩ := Option.map_eq_some_iff.1 h
  refine ⟨by rw [hx, Function.update_self], fun k hk => Function.update_of_ne hk ..⟩

theorem keyed_run (h : es.foldlM (keyed key f) s = some s') (k : κ) :
    (es.filter (key · = k)).foldlM f (s k) = some (s' k) := by
  induction es generalizing s with
  | nil =>
      obtain rfl := Option.some.inj h
      rfl
  | cons e es ih =>
      rw [List.foldlM_cons, Option.bind_eq_bind, Option.bind_eq_some_iff] at h
      obtain ⟨t, hstep, hrest⟩ := h
      obtain ⟨hpart, hother⟩ := keyed_eq_some hstep
      by_cases hk : key e = k
      · subst hk
        rw [List.filter_cons_of_pos (by simp), List.foldlM_cons, hpart]
        exact ih hrest
      · rw [List.filter_cons_of_neg (by simpa using hk), ← hother k (Ne.symm hk)]
        exact ih hrest

/-- The parts run by themselves make a run of the whole. -/
theorem keyed_of_parts (h : ∀ k, (es.filter (key · = k)).foldlM f (s k) = some (s' k)) :
    es.foldlM (keyed key f) s = some s' := by
  induction es generalizing s with
  | nil =>
      have heq : s = s' := funext fun k => Option.some.inj (h k)
      rw [heq]
      rfl
  | cons e es ih =>
      have hself := h (key e)
      rw [List.filter_cons_of_pos (by simp), List.foldlM_cons, Option.bind_eq_bind,
        Option.bind_eq_some_iff] at hself
      obtain ⟨x, hx, hself⟩ := hself
      have hstep : keyed key f s e = some (Function.update s (key e) x) := by
        rw [keyed, hx]
        rfl
      rw [List.foldlM_cons, hstep]
      refine ih fun k => ?_
      by_cases hk : key e = k
      · subst hk
        rw [Function.update_self]
        exact hself
      · rw [Function.update_of_ne (Ne.symm hk)]
        have hother := h k
        rwa [List.filter_cons_of_neg (by simpa using hk)] at hother

end Sky.Library
