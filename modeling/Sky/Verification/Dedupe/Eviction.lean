import Mathlib
import Sky.Library.FiniteMap
import Sky.Model.Dedupe

/-! # One pass of eviction

What `sweep` leaves behind, for any map, counters and slots. -/

namespace Sky.Spa.SpaRpcDedupeCache

open Sky.Library

/-- The answer bytes an entry holds: none until it is finished. -/
def answerBytes (c : SpaRpcDedupeCache) (e : EntryRef) : ℕ :=
  if (c.heap e).done then (c.heap e).answer.body.length else 0

/-- The body lengths of the finished answers in a map. -/
def storedBytes (c : SpaRpcDedupeCache) (m : AList fun _ : String => EntryRef) : ℕ :=
  bindingSum (fun _ e => c.answerBytes e) m

/-- A slot is current when the map still holds the entry it was pushed for. -/
def Current (m : AList fun _ : String => EntryRef) (s : SpaRpcDedupeSlot) : Prop :=
  m.lookup s.key = some s.e

instance (m : AList fun _ : String => EntryRef) (s : SpaRpcDedupeSlot) : Decidable (Current m s) :=
  inferInstanceAs (Decidable (m.lookup s.key = some s.e))

/-- Why a pass drops a finished entry: it has expired, or the cache is over one of
its limits. -/
def Droppable (c : SpaRpcDedupeCache) (now bytes excess : ℤ) (e : EntryRef) : Prop :=
  (c.heap e).done = true ∧ (0 < excess ∨ (c.maxBytes : ℤ) < bytes ∨ c.ttl ≤ now - (c.heap e).at_)

instance (c : SpaRpcDedupeCache) (now bytes excess : ℤ) (e : EntryRef) :
    Decidable (c.Droppable now bytes excess e) :=
  inferInstanceAs (Decidable (_ ∧ _))

theorem Droppable.mono {c : SpaRpcDedupeCache} {now bytes bytes' excess excess' : ℤ} {e : EntryRef}
    (h : c.Droppable now bytes' excess' e) (hbytes : bytes' ≤ bytes) (hexcess : excess' ≤ excess) :
    c.Droppable now bytes excess e :=
  ⟨h.1, h.2.imp hexcess.trans_lt' (Or.imp hbytes.trans_lt' id)⟩

/-- The contract of one pass over `slots`, started with the map `m`. -/
structure SweepSpec (c : SpaRpcDedupeCache) (now : ℤ) (m : AList fun _ : String => EntryRef)
    (bytes excess : ℤ) (slots : List SpaRpcDedupeSlot) (out : Sweep) : Prop where
  kept : out.kept.Sublist slots
  current : ∀ s ∈ out.kept, Current out.m s
  keeps : ∀ s ∈ slots, Current out.m s → s ∈ out.kept
  removes : ∀ k, out.m.lookup k = m.lookup k ∨
    out.m.lookup k = none ∧ ∃ e, m.lookup k = some e ∧ c.Droppable now bytes excess e ∧ ⟨k, e⟩ ∈ slots
  balance : out.bytes - c.storedBytes out.m = bytes - c.storedBytes m
  entries : 0 < excess - (slots.length - out.kept.length) → ∀ s ∈ out.kept, (c.heap s.e).done = false
  budget : (c.maxBytes : ℤ) < out.bytes → ∀ s ∈ out.kept, (c.heap s.e).done = false

theorem sweep_bytes_le (c : SpaRpcDedupeCache) (now : ℤ) (m : AList fun _ : String => EntryRef)
    (bytes excess : ℤ) (slots : List SpaRpcDedupeSlot) :
    (c.sweep now m bytes excess slots).bytes ≤ bytes := by
  induction slots generalizing m bytes excess with
  | nil => exact le_rfl
  | cons s slots ih =>
      rw [sweep]
      split_ifs
      · exact ih _ _ _
      · have := ih (m.erase s.key) (bytes - (c.heap s.e).answer.body.length) (excess - 1)
        omega
      · exact ih _ _ _

theorem sweep_kept_length_le (c : SpaRpcDedupeCache) (now : ℤ)
    (m : AList fun _ : String => EntryRef) (bytes excess : ℤ) (slots : List SpaRpcDedupeSlot) :
    (c.sweep now m bytes excess slots).kept.length ≤ slots.length := by
  induction slots generalizing m bytes excess with
  | nil => exact le_rfl
  | cons s slots ih =>
      rw [sweep]
      split_ifs
      · exact (ih _ _ _).trans (Nat.le_succ _)
      · exact (ih _ _ _).trans (Nat.le_succ _)
      · exact Nat.succ_le_succ (ih _ _ _)

theorem sweep_spec (c : SpaRpcDedupeCache) (now : ℤ) (m : AList fun _ : String => EntryRef)
    (bytes excess : ℤ) (slots : List SpaRpcDedupeSlot) (hnd : slots.Nodup) :
    SweepSpec c now m bytes excess slots (c.sweep now m bytes excess slots) := by
  induction slots generalizing m bytes excess with
  | nil =>
      exact ⟨.refl _, by simp [sweep], by simp, fun _ => .inl rfl, rfl, by simp [sweep],
        by simp [sweep]⟩
  | cons s slots ih =>
      obtain ⟨hs, hnd⟩ := List.nodup_cons.mp hnd
      rw [sweep]
      split_ifs with hcur hdrop
      · -- a superseded slot: the map forgets nothing
        have h := ih m bytes (excess - 1) hnd
        refine ⟨h.kept.cons s, h.current, ?_, ?_, h.balance, ?_, h.budget⟩
        · intro t ht htcur
          rcases List.mem_cons.mp ht with rfl | ht
          · rcases h.removes t.key with hr | ⟨hr, -⟩
            · exact (hcur (hr ▸ htcur)).elim
            · rw [Current, hr] at htcur
              cases htcur
          · exact h.keeps t ht htcur
        · intro k
          rcases h.removes k with hr | ⟨hr, e, he, hd, hmem⟩
          · exact .inl hr
          · exact .inr ⟨hr, e, he, hd.mono le_rfl (by omega), List.mem_cons_of_mem _ hmem⟩
        · intro hexcess
          refine h.entries ?_
          simp only [List.length_cons, Nat.cast_add, Nat.cast_one] at hexcess
          omega
      · -- a finished entry goes, and its bytes with it
        have hcur : Current m s := not_not.mp hcur
        have h := ih (m.erase s.key) (bytes - (c.heap s.e).answer.body.length) (excess - 1) hnd
        have hsum : c.storedBytes m =
            (c.heap s.e).answer.body.length + c.storedBytes (m.erase s.key) := by
          rw [storedBytes, bindingSum_erase hcur, answerBytes, hdrop.1]
          rfl
        refine ⟨h.kept.cons s, h.current, ?_, ?_, ?_, ?_, h.budget⟩
        · intro t ht htcur
          rcases List.mem_cons.mp ht with rfl | ht
          · rcases h.removes t.key with hr | ⟨hr, -⟩
            · rw [Current, hr, AList.lookup_erase] at htcur
              cases htcur
            · rw [Current, hr] at htcur
              cases htcur
          · exact h.keeps t ht htcur
        · intro k
          by_cases hk : k = s.key
          · subst hk
            refine .inr ⟨?_, s.e, hcur, hdrop, List.mem_cons_self⟩
            rcases h.removes s.key with hr | ⟨hr, -⟩
            · rw [hr, AList.lookup_erase]
            · exact hr
          · rcases h.removes k with hr | ⟨hr, e, he, hd, hmem⟩
            · exact .inl (hr.trans (AList.lookup_erase_ne hk))
            · exact .inr ⟨hr, e, (AList.lookup_erase_ne hk).symm.trans he,
                hd.mono (by omega) (by omega), List.mem_cons_of_mem _ hmem⟩
        · have := h.balance
          rw [hsum]
          push_cast
          omega
        · intro hexcess
          refine h.entries ?_
          simp only [List.length_cons, Nat.cast_add, Nat.cast_one] at hexcess
          omega
      · -- the slot stays
        have hcur : Current m s := not_not.mp hcur
        have h := ih m bytes excess hnd
        have hcur' : Current (c.sweep now m bytes excess slots).m s := by
          rcases h.removes s.key with hr | ⟨-, e, he, -, hmem⟩
          · exact hr.trans hcur
          · obtain rfl : s.e = e := Option.some.inj (hcur.symm.trans he)
            exact (hs hmem).elim
        have hlen := c.sweep_kept_length_le now m bytes excess slots
        have hbytes := c.sweep_bytes_le now m bytes excess slots
        refine ⟨h.kept.cons_cons s, ?_, ?_, ?_, h.balance, ?_, ?_⟩
        · intro t ht
          rcases List.mem_cons.mp ht with rfl | ht
          · exact hcur'
          · exact h.current t ht
        · intro t ht htcur
          rcases List.mem_cons.mp ht with rfl | ht
          · exact List.mem_cons_self
          · exact List.mem_cons_of_mem _ (h.keeps t ht htcur)
        · intro k
          rcases h.removes k with hr | ⟨hr, e, he, hd, hmem⟩
          · exact .inl hr
          · exact .inr ⟨hr, e, he, hd, List.mem_cons_of_mem _ hmem⟩
        · intro hexcess t ht
          simp only [List.length_cons, Nat.cast_add, Nat.cast_one] at hexcess
          rcases List.mem_cons.mp ht with rfl | ht
          · refine Bool.eq_false_iff.mpr fun hd => hdrop ⟨hd, .inl ?_⟩
            omega
          · exact h.entries (by omega) t ht
        · intro hexcess t ht
          rcases List.mem_cons.mp ht with rfl | ht
          · exact Bool.eq_false_iff.mpr fun hd => hdrop ⟨hd, .inr (.inl (hexcess.trans_le hbytes))⟩
          · exact h.budget hexcess t ht

end Sky.Spa.SpaRpcDedupeCache
