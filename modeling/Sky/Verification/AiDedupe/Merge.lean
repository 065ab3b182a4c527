import Sky.Model.AiDedupe

/-! # The streaming merge

A run file is a list of records. Merging runs whose digests all differ gives one run with every
record of theirs. -/

namespace Sky.AiDedupe

open Library

/-! ## Run files as lists of records -/

section

/-- The rows of some digests. -/
abbrev Entries := List (Key × ℕ)

variable {l : Entries} {d : Key} {row i : ℕ} {a b c : Bytes}

/-! ## The order of the digests -/

theorem bytes_lt_of_not_lt (h : ¬b < a) (hne : a ≠ b) : a < b := by
  by_contra hlt
  exact hne (List.le_antisymm (List.not_lt.1 h) (List.not_lt.1 hlt))

/-- Strictly sorted by their digests, with rows that fit their field. -/
structure Sorted (l : Entries) : Prop where
  lt : l.Pairwise fun a b => a.1.1 < b.1.1
  rows : ∀ e ∈ l, e.2 < 2 ^ 64

theorem Sorted.nil : Sorted [] := ⟨.nil, by simp⟩

theorem Sorted.tail {e : Key × ℕ} (h : Sorted (e :: l)) : Sorted l :=
  ⟨h.lt.of_cons, fun x hx => h.rows x (.tail _ hx)⟩

/-! ## The records of a file -/

def encode (l : Entries) : Bytes := l.flatMap fun e => record e.1 e.2

@[simp] theorem length_record (d : Key) (row : ℕ) : (record d row).length = recordSize := by
  rw [record, List.length_append, d.2, length_putBytes, recordSize]

theorem take_record (d : Key) (row : ℕ) : (record d row).take 32 = d.1 := by
  rw [record, List.take_left' d.2]

theorem ofBytes_record (d : Key) (h : row < 2 ^ 64) : ofBytes ((record d row).drop 32) = row := by
  rw [record, List.drop_left' d.2, ofBytes_putBytes]
  exact Nat.mod_eq_of_lt h

@[simp] theorem encode_nil : encode [] = [] := rfl

theorem encode_cons (e : Key × ℕ) (l : Entries) : encode (e :: l) = record e.1 e.2 ++ encode l := rfl

theorem encode_append (l l' : Entries) : encode (l ++ l') = encode l ++ encode l' :=
  List.flatMap_append

theorem length_encode (l : Entries) : (encode l).length = l.length * recordSize := by
  induction l with
  | nil => rw [encode_nil, List.length_nil, List.length_nil, Nat.zero_mul]
  | cons e l ih =>
      rw [encode_cons, List.length_append, length_record, ih, List.length_cons, Nat.succ_mul,
        Nat.add_comm]

theorem recordAt_encode {e : Key × ℕ} (h : l[i]? = some e) :
    recordAt (encode l) i = record e.1 e.2 := by
  induction l generalizing i with
  | nil => cases h
  | cons x l ih =>
      cases i with
      | zero =>
          obtain rfl : x = e := by simpa using h
          rw [recordAt, encode_cons, Nat.zero_mul, List.drop_zero,
            List.take_left' (length_record ..)]
      | succ i =>
          rw [List.getElem?_cons_succ] at h
          rw [← ih h, recordAt, recordAt, encode_cons, Nat.succ_mul, Nat.add_comm,
            ← List.drop_drop, List.drop_left' (length_record ..)]

/-! ## The search of a run file -/

theorem searchRun_encode (h : Sorted l) (d : Key) :
    (∀ row, searchRun (encode l) d = some row → (d, row) ∈ l) ∧
      (searchRun (encode l) d = none → ∀ row, (d, row) ∉ l) := by
  have hn : (encode l).length / recordSize = l.length := by
    rw [length_encode, Nat.mul_div_cancel _ (by decide)]
  have hat : ∀ i (hi : i < l.length), (recordAt (encode l) i).take 32 = (l[i]).1.1 := by
    intro i hi
    rw [recordAt_encode (List.getElem?_eq_getElem hi), take_record]
  have hlt := List.pairwise_iff_getElem.1 h.lt
  obtain ⟨hle, hbelow, habove⟩ := search_spec (n := l.length)
    (p := fun i => !decide ((recordAt (encode l) i).take 32 < d.1)) (by
      intro i j hij hj hi
      simp only [Bool.not_eq_true', decide_eq_false_iff_not] at hi ⊢
      rcases hij.eq_or_lt with rfl | hij
      · exact hi
      · intro hjd
        rw [hat j hj] at hjd
        rw [hat i (hij.trans hj)] at hi
        exact hi (List.lt_trans (hlt i j _ hj hij) hjd))
  rw [searchRun, hn]
  generalize search l.length (fun i => !decide ((recordAt (encode l) i).take 32 < d.1)) = k at *
  -- A record of the digest stands where the search ends.
  have hfind : ∀ row, (d, row) ∈ l → ∃ hk : k < l.length, l[k] = (d, row) := by
    intro row hmem
    obtain ⟨j, hj, hget⟩ := List.mem_iff_getElem.1 hmem
    have hkj : ¬j < k := by
      intro hjk
      have hbelow := hbelow j hjk
      simp only [Bool.not_eq_false', decide_eq_true_eq] at hbelow
      rw [hat j hj, hget] at hbelow
      exact List.lt_irrefl _ hbelow
    refine ⟨by omega, ?_⟩
    rcases (not_lt.1 hkj).eq_or_lt with rfl | hkj
    · exact hget
    · have habove := habove k le_rfl (by omega)
      simp only [Bool.not_eq_true', decide_eq_false_iff_not] at habove
      rw [hat k (by omega)] at habove
      have hkj' := hlt k j (by omega) hj hkj
      rw [hget] at hkj'
      exact absurd hkj' habove
  constructor
  · intro row hrow
    split at hrow
    · cases hrow
    · rename_i hk
      have hk : k < l.length := by omega
      split at hrow
      · rename_i heq
        rw [hat k hk] at heq
        rw [recordAt_encode (List.getElem?_eq_getElem hk),
          ofBytes_record _ (h.rows _ (List.getElem_mem hk))] at hrow
        obtain rfl := Option.some.inj hrow
        have hd : (l[k]).1 = d := Subtype.ext heq
        rw [← hd]
        exact List.getElem_mem hk
      · cases hrow
  · intro hnone row hmem
    obtain ⟨hk, hget⟩ := hfind row hmem
    rw [if_neg (by omega), hat k hk, hget, if_pos rfl] at hnone
    cases hnone

end

/-! ## Merging -/

variable {l : Entries} {ls : List Entries} {heads : List Head} {h : Head}

/-! ## Heads -/

/-- A head stands before the records `l`. -/
structure Reads (h : Head) (l : Entries) : Prop where
  cur : h.cur = l.head?.map fun e => record e.1 e.2
  r : h.r = encode l.tail

theorem next_reads (hr : h.r = encode l) : ∃ h', h.next = some h' ∧ Reads h' l := by
  cases l with
  | nil => exact ⟨{ h with cur := none }, if_pos hr, rfl, hr⟩
  | cons e l =>
      have hlength : ¬(record e.1 e.2 ++ encode l).length < recordSize := by
        rw [List.length_append, length_record]
        omega
      have hne : record e.1 e.2 ++ encode l ≠ [] := by
        intro hnil
        rw [hnil, List.length_nil, recordSize] at hlength
        omega
      rw [encode_cons] at hr
      refine ⟨⟨h.r.drop recordSize, some (h.r.take recordSize)⟩, ?_, ?_, ?_⟩
      · rw [Head.next, hr, if_neg hne, if_neg hlength]
      · rw [hr, List.take_left' (length_record ..)]
        rfl
      · rw [hr, List.drop_left' (length_record ..)]
        rfl

/-! ## The least head -/

theorem lesser_eq_none {best : Option (ℕ × Bytes)} {i : ℕ} {cur : Option Bytes}
    (h : lesser best i cur = none) : best = none ∧ cur = none := by
  cases cur with
  | none => exact ⟨h, rfl⟩
  | some cur =>
      cases best with
      | none => cases h
      | some p =>
          simp only [lesser] at h
          split at h <;> cases h

theorem lesser_eq_some {best : Option (ℕ × Bytes)} {i j : ℕ} {cur : Option Bytes} {least : Bytes}
    (h : lesser best i cur = some (j, least)) :
    (best = some (j, least) ∨ i = j ∧ cur = some least) ∧
      (∀ p, best = some p → ¬p.2.take 32 < least.take 32) ∧
      ∀ c, cur = some c → ¬c.take 32 < least.take 32 := by
  cases cur with
  | none =>
      refine ⟨.inl h, fun p hp => ?_, by simp⟩
      obtain rfl := Option.some.inj (hp.symm.trans h)
      exact List.lt_irrefl _
  | some cur =>
      cases best with
      | none =>
          obtain ⟨rfl, rfl⟩ := Prod.mk.inj (Option.some.inj h)
          refine ⟨.inr ⟨rfl, rfl⟩, by simp, fun c hc => ?_⟩
          obtain rfl := Option.some.inj hc
          exact List.lt_irrefl _
      | some p =>
          simp only [lesser] at h
          split at h
          · rename_i hless
            obtain ⟨rfl, rfl⟩ := Prod.mk.inj (Option.some.inj h)
            refine ⟨.inr ⟨rfl, rfl⟩, fun q hq => ?_, fun c hc => ?_⟩
            · obtain rfl := Option.some.inj hq
              exact List.lt_asymm hless
            · obtain rfl := Option.some.inj hc
              exact List.lt_irrefl _
          · rename_i hless
            obtain ⟨rfl, rfl⟩ := Prod.mk.inj (Option.some.inj h)
            refine ⟨.inl rfl, fun q hq => ?_, fun c hc => ?_⟩
            · obtain rfl := Option.some.inj hq
              exact List.lt_irrefl _
            · obtain rfl := Option.some.inj hc
              exact hless

theorem minHead_none {best : Option (ℕ × Bytes)} {i : ℕ} (hmin : minHead best i heads = none) :
    best = none ∧ ∀ h ∈ heads, h.cur = none := by
  induction heads generalizing best i with
  | nil => exact ⟨hmin, by simp⟩
  | cons h heads ih =>
      rw [minHead] at hmin
      obtain ⟨hlesser, hrest⟩ := ih hmin
      obtain ⟨hbest, hcur⟩ := lesser_eq_none hlesser
      exact ⟨hbest, List.forall_mem_cons.2 ⟨hcur, hrest⟩⟩

theorem minHead_some {best : Option (ℕ × Bytes)} {i j : ℕ} {least : Bytes}
    (hmin : minHead best i heads = some (j, least)) :
    (best = some (j, least) ∨ ∃ k h, j = i + k ∧ heads[k]? = some h ∧ h.cur = some least) ∧
      (∀ h ∈ heads, ∀ cur, h.cur = some cur → ¬cur.take 32 < least.take 32) ∧
      ∀ p, best = some p → ¬p.2.take 32 < least.take 32 := by
  induction heads generalizing best i with
  | nil =>
      refine ⟨.inl hmin, by simp, fun p hp => ?_⟩
      obtain rfl := Option.some.inj (hp.symm.trans hmin)
      exact List.lt_irrefl _
  | cons h heads ih =>
      rw [minHead] at hmin
      obtain ⟨hfrom, hrest, hbelow⟩ := ih hmin
      -- What was least before this head is not below what is least after all of them.
      have htrans : ∀ c : Bytes, (∀ p, lesser best i h.cur = some p → ¬c.take 32 < p.2.take 32) →
          lesser best i h.cur ≠ none → ¬c.take 32 < least.take 32 := by
        intro c hc hne hlt
        obtain ⟨p, hp⟩ := Option.ne_none_iff_exists'.1 hne
        by_cases heq : p.2.take 32 = c.take 32
        · exact hbelow p hp (heq ▸ hlt)
        · exact hbelow p hp (List.lt_trans (bytes_lt_of_not_lt (hc p hp) heq) hlt)
      refine ⟨?_, ?_, ?_⟩
      · rcases hfrom with hfrom | ⟨k, h', hj, hk, hcur⟩
        · rcases (lesser_eq_some hfrom).1 with hbest | ⟨rfl, hcur⟩
          · exact .inl hbest
          · exact .inr ⟨0, h, rfl, rfl, hcur⟩
        · exact .inr ⟨k + 1, h', by omega, by rwa [List.getElem?_cons_succ], hcur⟩
      · refine List.forall_mem_cons.2 ⟨fun cur hcur => ?_, hrest⟩
        refine htrans cur (fun p hp => (lesser_eq_some hp).2.2 cur hcur) fun hnone => ?_
        rw [(lesser_eq_none hnone).2] at hcur
        cases hcur
      · intro p hp
        refine htrans p.2 (fun q hq => (lesser_eq_some hq).2.1 p hp) fun hnone => ?_
        rw [(lesser_eq_none hnone).1] at hp
        cases hp

/-! ## The loop -/

theorem flatten_set_perm {α : Type} {ls : List (List α)} {i : ℕ} {e : α} {t : List α}
    (hi : ls[i]? = some (e :: t)) : ls.flatten.Perm (e :: (ls.set i t).flatten) := by
  induction ls generalizing i with
  | nil => cases hi
  | cons l ls ih =>
      cases i with
      | zero =>
          obtain rfl : l = e :: t := by simpa using hi
          simp
      | succ i =>
          rw [List.getElem?_cons_succ] at hi
          rw [List.set_cons_succ, List.flatten_cons, List.flatten_cons]
          exact ((ih hi).append_left l).trans List.perm_middle

/-- The record of the least head is below all the others. -/
theorem least_lt {i : ℕ} {e : Key × ℕ} {t : Entries} (hreads : List.Forall₂ Reads heads ls)
    (hsorted : ∀ l ∈ ls, Sorted l) (hnodup : (ls.flatten.map Prod.fst).Nodup)
    (hleast : ∀ h ∈ heads, ∀ cur, h.cur = some cur → ¬cur.take 32 < e.1.1)
    (hi : ls[i]? = some (e :: t)) : ∀ x ∈ (ls.set i t).flatten, e.1.1 < x.1.1 := by
  intro x hx
  have hperm := flatten_set_perm hi
  have hne : e.1.1 ≠ x.1.1 := by
    intro heq
    rw [(hperm.map Prod.fst).nodup_iff, List.map_cons, List.nodup_cons] at hnodup
    exact hnodup.1 (List.mem_map.2 ⟨x, hx, (Subtype.ext heq).symm⟩)
  refine bytes_lt_of_not_lt (fun hlt => ?_) hne
  obtain ⟨l, hl, hxl⟩ := List.mem_flatten.1 (hperm.mem_iff.2 (.tail _ hx))
  obtain ⟨j, hj⟩ := List.mem_iff_getElem?.1 hl
  cases l with
  | nil => cases hxl
  | cons y l =>
      obtain ⟨hlength, hall⟩ := List.forall₂_iff_get.1 hreads
      obtain ⟨hjlt, hjget⟩ := List.getElem?_eq_some_iff.1 hj
      have hread := hall j (by omega) hjlt
      rw [List.get_eq_getElem, List.get_eq_getElem, hjget] at hread
      have hy := hleast _ (List.getElem_mem _) _ hread.cur
      rw [take_record] at hy
      rcases List.mem_cons.1 hxl with rfl | hxl
      · exact hy hlt
      · exact hy (List.lt_trans (List.rel_of_pairwise_cons (hsorted _ hl).lt hxl) hlt)

theorem forall₂_set {i : ℕ} {h' : Head} {t : Entries} (hreads : List.Forall₂ Reads heads ls)
    (hh' : Reads h' t) : List.Forall₂ Reads (heads.set i h') (ls.set i t) := by
  induction hreads generalizing i with
  | nil => exact .nil
  | cons hread hreads ih =>
      cases i with
      | zero => exact .cons hh' hreads
      | succ i => exact .cons hread ih

/-- The loop writes every record that is left, in order. -/
theorem mergeLoop_spec {fuel : ℕ} {outs : Entries} {last : Option Bytes}
    (hreads : List.Forall₂ Reads heads ls) (hfuel : ls.flatten.length < fuel)
    (hsorted : ∀ l ∈ ls, Sorted l) (hnodup : (ls.flatten.map Prod.fst).Nodup) (houts : Sorted outs)
    (hbelow : ∀ o ∈ outs, ∀ e ∈ ls.flatten, o.1.1 < e.1.1)
    (hlast : ∀ d, last = some d → ∃ o ∈ outs, o.1.1 = d) :
    ∃ merged, mergeLoop fuel heads (encode outs) last = some (encode merged) ∧ Sorted merged ∧
      merged.Perm (outs ++ ls.flatten) := by
  induction fuel generalizing heads ls outs last with
  | zero => omega
  | succ fuel ih =>
      rw [mergeLoop]
      cases hmin : minHead none 0 heads with
      | none =>
          have hempty : ∀ l ∈ ls, l = [] := by
            intro l hl
            obtain ⟨h, hh, hread⟩ : ∃ h ∈ heads, Reads h l := by
              obtain ⟨j, hj, rfl⟩ := List.mem_iff_getElem.1 hl
              obtain ⟨hlength, hall⟩ := List.forall₂_iff_get.1 hreads
              exact ⟨_, List.getElem_mem (hlength ▸ hj), hall j (hlength ▸ hj) hj⟩
            have hcur := hread.cur
            rw [(minHead_none hmin).2 h hh] at hcur
            cases l with
            | nil => rfl
            | cons e l => cases hcur
          refine ⟨outs, rfl, houts, ?_⟩
          rw [List.flatten_eq_nil_iff.2 hempty, List.append_nil]
      | some p =>
          obtain ⟨i, cur⟩ := p
          obtain ⟨hfrom, hleast, -⟩ := minHead_some hmin
          obtain ⟨h, hi, hcur⟩ : ∃ h, heads[i]? = some h ∧ h.cur = some cur := by
            rcases hfrom with hnone | ⟨k, h, rfl, hk, hcur⟩
            · cases hnone
            · exact ⟨h, by rwa [Nat.zero_add], hcur⟩
          obtain ⟨l, hl, hread⟩ : ∃ l, ls[i]? = some l ∧ Reads h l := by
            obtain ⟨hlength, hall⟩ := List.forall₂_iff_get.1 hreads
            obtain ⟨hlt, rfl⟩ := List.getElem?_eq_some_iff.1 hi
            exact ⟨_, List.getElem?_eq_getElem (hlength ▸ hlt), hall i hlt (hlength ▸ hlt)⟩
          cases l with
          | nil =>
              rw [hread.cur] at hcur
              cases hcur
          | cons e t =>
              obtain rfl := Option.some.inj (hread.cur.symm.trans hcur)
              obtain ⟨h', hnext, hread'⟩ := next_reads hread.r
              rw [take_record] at hleast
              have hlt := least_lt hreads hsorted hnodup hleast hl
              have hperm := flatten_set_perm hl
              have hmem : e ∈ ls.flatten := hperm.mem_iff.2 (.head _)
              have hnew : last ≠ some e.1.1 := by
                intro heq
                obtain ⟨o, ho, heq⟩ := hlast _ heq
                exact List.lt_irrefl _ (heq ▸ hbelow o ho e hmem)
              have hrow : e.2 < 2 ^ 64 := (hsorted _ (List.mem_of_getElem? hl)).rows e (.head _)
              have houts' : Sorted (outs ++ [e]) := by
                refine ⟨List.pairwise_append.2 ⟨houts.lt, List.pairwise_singleton _ _, ?_⟩, ?_⟩
                · intro o ho x hx
                  obtain rfl := List.mem_singleton.1 hx
                  exact hbelow o ho _ hmem
                · intro x hx
                  rcases List.mem_append.1 hx with hx | hx
                  · exact houts.rows x hx
                  · exact List.mem_singleton.1 hx ▸ hrow
              have hfuel' : (ls.set i t).flatten.length < fuel := by
                have hlength := hperm.length_eq
                rw [List.length_cons] at hlength
                omega
              have hsorted' : ∀ l ∈ ls.set i t, Sorted l := by
                intro x hx
                rcases List.mem_or_eq_of_mem_set hx with hx | rfl
                · exact hsorted x hx
                · exact (hsorted _ (List.mem_of_getElem? hl)).tail
              have hnodup' : ((ls.set i t).flatten.map Prod.fst).Nodup := by
                rw [(hperm.map Prod.fst).nodup_iff] at hnodup
                exact hnodup.of_cons
              have hbelow' : ∀ o ∈ outs ++ [e], ∀ x ∈ (ls.set i t).flatten, o.1.1 < x.1.1 := by
                intro o ho x hx
                rcases List.mem_append.1 ho with ho | ho
                · exact hbelow o ho x (hperm.mem_iff.2 (.tail _ hx))
                · obtain rfl := List.mem_singleton.1 ho
                  exact hlt x hx
              have hlast' : ∀ d, some e.1.1 = some d → ∃ o ∈ outs ++ [e], o.1.1 = d :=
                fun d hd => ⟨e, by simp, Option.some.inj hd⟩
              obtain ⟨merged, hmerged, hmergedSorted, hperm'⟩ := ih (forall₂_set hreads hread') hfuel'
                hsorted' hnodup' houts' hbelow' hlast'
              refine ⟨merged, ?_, hmergedSorted, ?_⟩
              · simp only [take_record, if_neg hnew, hi, Option.bind_eq_bind, Option.bind_some, hnext]
                rw [← hmerged, encode_append, encode_cons, encode_nil, List.append_nil]
              · rw [List.append_assoc] at hperm'
                exact hperm'.trans (hperm.symm.append_left outs)

end Sky.AiDedupe
