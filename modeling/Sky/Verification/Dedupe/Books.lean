import Mathlib
import Sky.Library.Run
import Sky.Verification.Dedupe.Eviction

/-! # The books of the dedupe cache

The byte counter, the limits and the eviction order over whole runs of claims,
fills and evictions. -/

namespace Sky.Spa

open Sky.Library

/-- A step of the cache with its clock readings. -/
inductive CacheEvent where
  | claim (key : String) (now nowEvict : ℤ)
  | fill (e : EntryRef) (answer : Answer) (now : ℤ)
  | evict (now : ℤ)
  deriving DecidableEq

/-- Only the first request with an entry fills it, and it does so once. -/
def CacheEvent.apply (c : SpaRpcDedupeCache) : CacheEvent → Option SpaRpcDedupeCache
  | .claim key now nowEvict => some (c.claim key now nowEvict).1
  | .fill e answer now =>
      if e < c.fresh ∧ (c.heap e).done = false then some (c.fill e answer now) else none
  | .evict now => some (c.evict now)

namespace SpaRpcDedupeCache

variable {c c' : SpaRpcDedupeCache} {key : String} {e : EntryRef} {now nowEvict : ℤ}

/-! ## What the methods leave alone -/

@[simp] theorem evict_heap : (c.evict now).heap = c.heap := rfl
@[simp] theorem evict_fresh : (c.evict now).fresh = c.fresh := rfl
@[simp] theorem evict_cap : (c.evict now).cap = c.cap := rfl
@[simp] theorem evict_maxBytes : (c.evict now).maxBytes = c.maxBytes := rfl
@[simp] theorem evict_ttl : (c.evict now).ttl = c.ttl := rfl

theorem storedBytes_congr {m : AList fun _ : String => EntryRef}
    (h : ∀ k e, m.lookup k = some e → c.answerBytes e = c'.answerBytes e) :
    c.storedBytes m = c'.storedBytes m :=
  bindingSum_congr h

/-! ## The invariant -/

/-- The cache before a pass of `evict`: an entry knows its key, references are
allocated, and the eviction order has a slot for every binding. -/
structure Tracked (c : SpaRpcDedupeCache) : Prop where
  keyed : ∀ k e, c.m.lookup k = some e → (c.heap e).key = k
  allocated : ∀ k e, c.m.lookup k = some e → e < c.fresh
  slotted : ∀ k e, c.m.lookup k = some e → ⟨k, e⟩ ∈ c.order
  orderAllocated : ∀ s ∈ c.order, s.e < c.fresh
  nodup : c.order.Nodup

/-- Between two steps every slot is current, the entry cap is exceeded only by
entries that are still running, and an exceeded budget is all drift. -/
structure Ordered (c : SpaRpcDedupeCache) : Prop extends Tracked c where
  current : ∀ s ∈ c.order, Current c.m s
  entries : c.m.entries.length ≤ c.cap ∨ ∀ k e, c.m.lookup k = some e → (c.heap e).done = false
  budget : c.bytes ≤ c.maxBytes ∨ c.storedBytes c.m = 0

/-- What the byte counter holds beyond the answers in the map. -/
def drift (c : SpaRpcDedupeCache) : ℤ :=
  c.bytes - c.storedBytes c.m

/-- The byte counter is the size of the finished answers in the map and within
its budget. -/
structure Books (c : SpaRpcDedupeCache) : Prop where
  bytes : c.bytes = c.storedBytes c.m
  budget : c.bytes ≤ c.maxBytes
  entries : c.m.entries.length ≤ c.cap ∨ ∀ k e, c.m.lookup k = some e → (c.heap e).done = false
  slots : ∀ k e, c.m.lookup k = some e → c.order.count ⟨k, e⟩ = 1

theorem Ordered.init (capacity maxBytes : ℕ) (ttl : ℤ) :
    Ordered (newSpaRpcDedupeCache capacity maxBytes ttl) where
  keyed := by simp [newSpaRpcDedupeCache]
  allocated := by simp [newSpaRpcDedupeCache]
  slotted := by simp [newSpaRpcDedupeCache]
  orderAllocated := by simp [newSpaRpcDedupeCache]
  nodup := by simp [newSpaRpcDedupeCache]
  current := by simp [newSpaRpcDedupeCache]
  entries := .inl (Nat.zero_le _)
  budget := .inr rfl

theorem drift_init (capacity maxBytes : ℕ) (ttl : ℤ) :
    (newSpaRpcDedupeCache capacity maxBytes ttl).drift = 0 := rfl

/-- No more bindings than slots, when every binding has its slot. -/
theorem entries_length_le {m : AList fun _ : String => EntryRef} {slots : List SpaRpcDedupeSlot}
    (h : ∀ k e, m.lookup k = some e → ⟨k, e⟩ ∈ slots) : m.entries.length ≤ slots.length := by
  have hnd : (m.entries.map fun p => (⟨p.1, p.2⟩ : SpaRpcDedupeSlot)).Nodup := by
    refine List.Pairwise.map _ ?_ (List.nodupKeys_iff_pairwise.mp m.nodupKeys)
    intro p q hne heq
    exact hne (congrArg SpaRpcDedupeSlot.key heq)
  have hsub : ∀ s ∈ m.entries.map fun p => (⟨p.1, p.2⟩ : SpaRpcDedupeSlot), s ∈ slots := by
    intro s hs
    obtain ⟨p, hp, rfl⟩ := List.mem_map.mp hs
    exact h _ _ (AList.mem_lookup_iff.mpr hp)
  simpa using (List.subperm_of_subset hnd hsub).length_le

/-! ## Eviction -/

theorem Tracked.sweepSpec (hc : Tracked c) (now : ℤ) :
    SweepSpec c now c.m c.bytes (c.order.length - c.cap) c.order
      (c.sweep now c.m c.bytes (c.order.length - c.cap) c.order) :=
  c.sweep_spec now c.m c.bytes _ c.order hc.nodup

theorem drift_evict (hc : Tracked c) : (c.evict now).drift = c.drift :=
  (hc.sweepSpec now).balance

/-- A binding that survives a pass was there before it. -/
theorem lookup_of_lookup_evict (hc : Tracked c) {k : String}
    (h : (c.evict now).m.lookup k = some e) : c.m.lookup k = some e := by
  rcases (hc.sweepSpec now).removes k with hr | ⟨hr, -⟩
  · exact hr.symm.trans h
  · cases hr.symm.trans h

/-- A pass keeps every entry that is still running. -/
theorem lookup_evict_of_running (hc : Tracked c) {k : String} (h : c.m.lookup k = some e)
    (hrun : (c.heap e).done = false) : (c.evict now).m.lookup k = some e := by
  rcases (hc.sweepSpec now).removes k with hr | ⟨-, e', he', hdrop, -⟩
  · exact hr.trans h
  · obtain rfl : e = e' := Option.some.inj (h.symm.trans he')
    exact (Bool.false_ne_true (hrun.symm.trans hdrop.1)).elim

/-- A pass drops an entry only if it has expired or a limit is exceeded. -/
theorem droppable_of_evict (hc : Tracked c) {k : String} (h : c.m.lookup k = some e)
    (hgone : (c.evict now).m.lookup k ≠ some e) :
    c.Droppable now c.bytes (c.order.length - c.cap) e := by
  rcases (hc.sweepSpec now).removes k with hr | ⟨-, e', he', hdrop, -⟩
  · exact (hgone (hr.trans h)).elim
  · obtain rfl : e = e' := Option.some.inj (h.symm.trans he')
    exact hdrop

theorem Tracked.evict (hc : Tracked c) (now : ℤ) : Ordered (c.evict now) := by
  have hs := hc.sweepSpec now
  have hslot : ∀ k e, (c.evict now).m.lookup k = some e → ⟨k, e⟩ ∈ (c.evict now).order :=
    fun k e hk => hs.keeps ⟨k, e⟩ (hc.slotted k e (lookup_of_lookup_evict hc hk)) hk
  refine ⟨⟨?_, ?_, hslot, ?_, hc.nodup.sublist hs.kept⟩, hs.current, ?_, ?_⟩
  · exact fun k e hk => hc.keyed k e (lookup_of_lookup_evict hc hk)
  · exact fun k e hk => hc.allocated k e (lookup_of_lookup_evict hc hk)
  · exact fun s hmem => hc.orderAllocated s (hs.kept.subset hmem)
  · refine or_iff_not_imp_left.mpr fun hcap k e hk => hs.entries ?_ _ (hslot k e hk)
    have hlen := entries_length_le hslot
    have hkept := hs.kept.length_le
    simp only [SpaRpcDedupeCache.evict] at hcap hlen
    omega
  · refine or_iff_not_imp_left.mpr fun hbytes => bindingSum_eq_zero fun k e hk => ?_
    have hrun := hs.budget (not_le.mp hbytes) _ (hslot k e hk)
    simp only [answerBytes, evict_heap, hrun]
    rfl

/-! ## A new claim -/

/-- The cache with a new entry for `key`, before it is trimmed. -/
def opened (c : SpaRpcDedupeCache) (key : String) (now : ℤ) : SpaRpcDedupeCache :=
  { c with
    heap := Function.update c.heap c.fresh (newEntry key now)
    fresh := c.fresh + 1
    m := c.m.insert key c.fresh
    order := c.order ++ [⟨key, c.fresh⟩] }

theorem claim_of_live (h : c.live key now = some e) : c.claim key now nowEvict = (c, e, false) := by
  simp [claim, h]

theorem claim_of_not_live (h : c.live key now = none) :
    c.claim key now nowEvict = ((c.opened key now).evict nowEvict, c.fresh, true) := by
  simp [claim, h, opened]

theorem opened_heap_of_ne (h : e ≠ c.fresh) : (c.opened key now).heap e = c.heap e :=
  Function.update_of_ne h _ _

@[simp] theorem opened_heap_fresh : (c.opened key now).heap c.fresh = newEntry key now :=
  Function.update_self ..

theorem lookup_opened_of_ne {k : String} (h : k ≠ key) :
    (c.opened key now).m.lookup k = c.m.lookup k :=
  AList.lookup_insert_ne h

@[simp] theorem lookup_opened : (c.opened key now).m.lookup key = some c.fresh :=
  AList.lookup_insert ..

theorem Ordered.opened (hc : Ordered c) (key : String) (now : ℤ) : Tracked (c.opened key now) := by
  have hold : ∀ {k e}, c.m.lookup k = some e → e ≠ c.fresh :=
    fun h => (hc.allocated _ _ h).ne
  refine ⟨?_, ?_, ?_, ?_, ?_⟩
  · intro k e hk
    by_cases hkey : k = key
    · subst hkey
      obtain rfl : c.fresh = e := Option.some.inj (lookup_opened.symm.trans hk)
      rw [opened_heap_fresh]
      rfl
    · rw [lookup_opened_of_ne hkey] at hk
      rw [opened_heap_of_ne (hold hk)]
      exact hc.keyed k e hk
  · intro k e hk
    by_cases hkey : k = key
    · subst hkey
      obtain rfl : c.fresh = e := Option.some.inj (lookup_opened.symm.trans hk)
      exact Nat.lt_succ_self _
    · rw [lookup_opened_of_ne hkey] at hk
      exact Nat.lt_succ_of_lt (hc.allocated k e hk)
  · intro k e hk
    by_cases hkey : k = key
    · subst hkey
      obtain rfl : c.fresh = e := Option.some.inj (lookup_opened.symm.trans hk)
      exact List.mem_append_right _ (List.mem_singleton_self _)
    · rw [lookup_opened_of_ne hkey] at hk
      exact List.mem_append_left _ (hc.slotted k e hk)
  · intro s hs
    rcases List.mem_append.mp hs with hs | hs
    · exact Nat.lt_succ_of_lt (hc.orderAllocated s hs)
    · obtain rfl := List.mem_singleton.mp hs
      exact Nat.lt_succ_self _
  · refine hc.nodup.append (List.nodup_singleton _) ?_
    intro s hs hs'
    obtain rfl := List.mem_singleton.mp hs'
    exact (hc.orderAllocated _ hs).ne rfl

/-- The answer bytes of the entry that a new claim of `key` takes out of the map. -/
def supersededBytes (c : SpaRpcDedupeCache) (key : String) : ℕ :=
  (c.m.lookup key).elim 0 c.answerBytes

theorem storedBytes_eq_superseded_add (c : SpaRpcDedupeCache) (key : String) :
    c.storedBytes c.m = c.supersededBytes key + c.storedBytes (c.m.erase key) := by
  cases h : c.m.lookup key with
  | none => simp [supersededBytes, h, storedBytes, bindingSum_erase_of_lookup_none h]
  | some e => simp [supersededBytes, h, storedBytes, bindingSum_erase h]

/-- The bytes of the superseded answer stay in the counter. -/
theorem drift_opened (hc : Ordered c) :
    (c.opened key now).drift = c.drift + c.supersededBytes key := by
  have hrest : (c.opened key now).storedBytes (c.m.erase key) = c.storedBytes (c.m.erase key) := by
    refine storedBytes_congr fun k e hk => ?_
    have hk : c.m.lookup k = some e := by
      by_cases hkey : k = key
      · subst hkey
        simp at hk
      · rwa [AList.lookup_erase_ne hkey] at hk
    rw [answerBytes, opened_heap_of_ne (hc.allocated k e hk).ne, answerBytes]
  have hnew : (c.opened key now).answerBytes c.fresh = 0 := by
    rw [answerBytes, opened_heap_fresh]
    rfl
  have hsum :
      (c.opened key now).storedBytes (c.opened key now).m = c.storedBytes (c.m.erase key) := by
    rw [← hrest]
    simp only [storedBytes]
    rw [show (c.opened key now).m = c.m.insert key c.fresh from rfl, bindingSum_insert, hnew,
      Nat.zero_add]
  rw [drift, drift, hsum, storedBytes_eq_superseded_add c key]
  simp only [opened]
  push_cast
  ring

/-! ## Filling an entry -/

/-- The cache with `e` completed, before the books are adjusted. -/
def finished (c : SpaRpcDedupeCache) (e : EntryRef) (answer : Answer) : SpaRpcDedupeCache :=
  { c with heap := Function.update c.heap e { c.heap e with done := true, answer := answer } }

variable {answer : Answer}

theorem finished_heap_of_ne {e' : EntryRef} (h : e' ≠ e) :
    (c.finished e answer).heap e' = c.heap e' :=
  Function.update_of_ne h _ _

@[simp] theorem finished_heap_self :
    (c.finished e answer).heap e = { c.heap e with done := true, answer := answer } :=
  Function.update_self ..

theorem finished_heap_key (e' : EntryRef) :
    ((c.finished e answer).heap e').key = (c.heap e').key := by
  by_cases h : e' = e
  · subst h
    rw [finished_heap_self]
  · rw [finished_heap_of_ne h]

theorem finished_heap_at (e' : EntryRef) :
    ((c.finished e answer).heap e').at_ = (c.heap e').at_ := by
  by_cases h : e' = e
  · subst h
    rw [finished_heap_self]
  · rw [finished_heap_of_ne h]

/-- The counted cache of a current entry, before it is trimmed. -/
def counted (c : SpaRpcDedupeCache) (e : EntryRef) (answer : Answer) : SpaRpcDedupeCache :=
  { c.finished e answer with bytes := c.bytes + answer.body.length }

theorem fill_eq : c.fill e answer now =
    if c.m.lookup ((c.finished e answer).heap e).key = some e then
      { c.finished e answer with bytes := c.bytes + answer.body.length }.evict now
    else c.finished e answer :=
  rfl

theorem fill_of_current (h : c.m.lookup (c.heap e).key = some e) :
    c.fill e answer now = (c.counted e answer).evict now := by
  rw [fill_eq, finished_heap_key, if_pos h]
  rfl

theorem fill_of_superseded (h : c.m.lookup (c.heap e).key ≠ some e) :
    c.fill e answer now = c.finished e answer := by
  rw [fill_eq, finished_heap_key, if_neg h]

theorem Tracked.counted (hc : Tracked c) (e : EntryRef) (answer : Answer) :
    Tracked (c.counted e answer) where
  keyed k e' hk := (finished_heap_key e').trans (hc.keyed k e' hk)
  allocated := hc.allocated
  slotted := hc.slotted
  orderAllocated := hc.orderAllocated
  nodup := hc.nodup

/-- An entry that was superseded while it ran never reaches the counter. -/
theorem storedBytes_finished (hc : Tracked c) (h : c.m.lookup (c.heap e).key ≠ some e) :
    (c.finished e answer).storedBytes c.m = c.storedBytes c.m := by
  refine storedBytes_congr fun k e' hk => ?_
  have hne : e' ≠ e := by
    rintro rfl
    rw [hc.keyed k _ hk] at h
    exact h hk
  rw [answerBytes, finished_heap_of_ne hne, answerBytes]

theorem Ordered.finished (hc : Ordered c) (answer : Answer)
    (h : c.m.lookup (c.heap e).key ≠ some e) : Ordered (c.finished e answer) where
  keyed k e' hk := (finished_heap_key e').trans (hc.keyed k e' hk)
  allocated := hc.allocated
  slotted := hc.slotted
  orderAllocated := hc.orderAllocated
  nodup := hc.nodup
  current := hc.current
  entries := by
    refine hc.entries.imp id fun hrun k e' hk => ?_
    have hne : e' ≠ e := by
      rintro rfl
      rw [hc.keyed k _ hk] at h
      exact h hk
    rw [finished_heap_of_ne hne]
    exact hrun k e' hk
  budget := hc.budget.imp id (storedBytes_finished hc.toTracked h).trans

/-- The counter takes in exactly the answer that becomes finished. -/
theorem drift_counted (hc : Tracked c) (hcur : c.m.lookup (c.heap e).key = some e)
    (hrun : (c.heap e).done = false) : (c.counted e answer).drift = c.drift := by
  have hrest : (c.counted e answer).storedBytes (c.m.erase (c.heap e).key) =
      c.storedBytes (c.m.erase (c.heap e).key) := by
    refine storedBytes_congr fun k e' hk => ?_
    by_cases hkey : k = (c.heap e).key
    · subst hkey
      simp at hk
    · rw [AList.lookup_erase_ne hkey] at hk
      have hne : e' ≠ e := by
        rintro rfl
        exact hkey (hc.keyed k _ hk).symm
      rw [answerBytes, SpaRpcDedupeCache.counted, finished_heap_of_ne hne, answerBytes]
  have hold : c.answerBytes e = 0 := by
    rw [answerBytes, hrun]
    rfl
  have hnew : (c.counted e answer).answerBytes e = answer.body.length := by
    rw [answerBytes, SpaRpcDedupeCache.counted, finished_heap_self]
    rfl
  have hbefore : c.storedBytes c.m = c.storedBytes (c.m.erase (c.heap e).key) := by
    rw [storedBytes, bindingSum_erase hcur, hold, Nat.zero_add]
    rfl
  have hafter : (c.counted e answer).storedBytes (c.counted e answer).m =
      answer.body.length + c.storedBytes (c.m.erase (c.heap e).key) := by
    rw [← hrest, storedBytes, bindingSum_erase (show (c.counted e answer).m.lookup _ = _ from hcur),
      hnew]
    rfl
  rw [drift, drift, hafter, hbefore]
  simp only [SpaRpcDedupeCache.counted]
  push_cast
  ring

theorem drift_finished (hc : Tracked c) (h : c.m.lookup (c.heap e).key ≠ some e) :
    (c.finished e answer).drift = c.drift :=
  congrArg (fun n : ℕ => c.bytes - (n : ℤ)) (storedBytes_finished hc h)

/-! ## One step -/

/-- What one step does to the answers that leave the map uncounted: only a new
claim over a finished answer moves the drift, and only up. -/
def lostBytes (c : SpaRpcDedupeCache) : CacheEvent → ℕ
  | .claim key now _ => if c.live key now = none then c.supersededBytes key else 0
  | _ => 0

/-- The step leaves every entry that is still running in the map, unless it is a
claim of the entry's key past the TTL. -/
def KeepsRunning (c : SpaRpcDedupeCache) (ev : CacheEvent) (c' : SpaRpcDedupeCache) : Prop :=
  ∀ k e, c.m.lookup k = some e → (c'.heap e).done = false →
    c'.m.lookup k = some e ∨ ∃ now nowEvict, ev = .claim k now nowEvict ∧ c.live k now = none

/-- The contract of one step. -/
structure StepSpec (c : SpaRpcDedupeCache) (ev : CacheEvent) (c' : SpaRpcDedupeCache) : Prop where
  ordered : Ordered c'
  drift : c'.drift = c.drift + c.lostBytes ev
  keepsRunning : KeepsRunning c ev c'

theorem claim_spec (hc : Ordered c) :
    StepSpec c (.claim key now nowEvict) (c.claim key now nowEvict).1 := by
  cases hlive : c.live key now with
  | some e =>
      rw [claim_of_live hlive]
      exact ⟨hc, by simp [lostBytes, hlive], fun _ _ hk _ => .inl hk⟩
  | none =>
      rw [claim_of_not_live hlive]
      have ht := hc.opened key now
      refine ⟨ht.evict nowEvict, ?_, ?_⟩
      · rw [drift_evict ht, drift_opened hc, lostBytes, if_pos hlive]
      · intro k e hk hrun
        by_cases hkey : k = key
        · subst hkey
          exact .inr ⟨now, nowEvict, rfl, hlive⟩
        · exact .inl (lookup_evict_of_running ht ((lookup_opened_of_ne hkey).trans hk) hrun)

theorem fill_spec (hc : Ordered c) {answer : Answer} (hrun : (c.heap e).done = false) :
    StepSpec c (.fill e answer now) (c.fill e answer now) := by
  by_cases hcur : c.m.lookup (c.heap e).key = some e
  · rw [fill_of_current hcur]
    have ht := hc.counted e answer
    refine ⟨ht.evict now, ?_, fun k e' hk hrun' => .inl (lookup_evict_of_running ht hk hrun')⟩
    rw [drift_evict ht, drift_counted hc.toTracked hcur hrun]
    exact (add_zero _).symm
  · rw [fill_of_superseded hcur]
    refine ⟨hc.finished answer hcur, ?_, fun k e' hk _ => .inl hk⟩
    rw [drift_finished hc.toTracked hcur]
    exact (add_zero _).symm

theorem step_spec {ev : CacheEvent} (hc : Ordered c) (h : ev.apply c = some c') :
    StepSpec c ev c' := by
  cases ev with
  | claim key now nowEvict =>
      cases h
      exact claim_spec hc
  | fill e answer now =>
      simp only [CacheEvent.apply] at h
      split_ifs at h with hrun
      cases h
      exact fill_spec hc hrun.2
  | evict now =>
      cases h
      refine ⟨hc.toTracked.evict now, ?_, fun k e hk hrun => .inl ?_⟩
      · rw [drift_evict hc.toTracked]
        exact (add_zero _).symm
      · exact lookup_evict_of_running hc.toTracked hk hrun

/-! ## Whole runs -/

/-- A step takes no finished answer with a body out of the map by claiming its
key again. -/
def RenewsNoAnswer (c : SpaRpcDedupeCache) : CacheEvent → Prop
  | .claim key now _ =>
      ∀ e, c.m.lookup key = some e → c.ttl ≤ now - (c.heap e).at_ →
        (c.heap e).done = true → (c.heap e).answer.body = []
  | _ => True

theorem live_eq_none_iff : c.live key now = none ↔
    ∀ e, c.m.lookup key = some e → c.ttl ≤ now - (c.heap e).at_ := by
  simp [live, Option.filter_eq_none_iff]

theorem answerBytes_eq_zero_iff :
    c.answerBytes e = 0 ↔ ((c.heap e).done = true → (c.heap e).answer.body = []) := by
  simp [answerBytes]

theorem lostBytes_eq_zero_iff {ev : CacheEvent} : c.lostBytes ev = 0 ↔ c.RenewsNoAnswer ev := by
  cases ev with
  | claim key now nowEvict =>
      cases h : c.m.lookup key with
      | none => simp [lostBytes, supersededBytes, RenewsNoAnswer, h]
      | some e =>
          have hsome : ∀ e', some e = some e' ↔ e = e' := fun _ => Option.some_inj
          simp only [lostBytes, live_eq_none_iff, supersededBytes, RenewsNoAnswer, h, hsome,
            forall_eq', Option.elim_some, ite_eq_right_iff, answerBytes_eq_zero_iff]
  | _ => simp [lostBytes, RenewsNoAnswer]

theorem Ordered.books (hc : Ordered c) (hdrift : c.drift = 0) : Books c := by
  have hbytes : c.bytes = c.storedBytes c.m := sub_eq_zero.mp hdrift
  refine ⟨hbytes, ?_, hc.entries, ?_⟩
  · rcases hc.budget with hb | hb
    · exact hb
    · rw [hbytes, hb]
      exact Int.natCast_nonneg _
  · intro k e hk
    exact List.count_eq_one_of_mem hc.nodup (hc.slotted k e hk)

theorem Books.drift_eq_zero (hc : Books c) : c.drift = 0 :=
  sub_eq_zero.mpr hc.bytes

theorem Ordered.run {es : List CacheEvent} (hc : Ordered c)
    (h : Run (fun a ev b => ev.apply a = some b) c es c') : Ordered c' :=
  h.invariant (fun _ _ _ ha hstep => (step_spec ha hstep).ordered) hc

/-- The drift never falls, and it stays put exactly in the runs that renew no
answer. -/
theorem drift_run {es : List CacheEvent} (hc : Ordered c)
    (h : Run (fun a ev b => ev.apply a = some b) c es c') :
    c.drift ≤ c'.drift ∧
      (c'.drift = c.drift ↔
        Run (fun a ev b => ev.apply a = some b ∧ a.RenewsNoAnswer ev) c es c') := by
  induction h with
  | nil s => exact ⟨le_rfl, fun _ => .nil s, fun _ => rfl⟩
  | @cons s ev t es u hstep hrest ih =>
      have hspec := step_spec hc hstep
      obtain ⟨hle, hiff⟩ := ih hspec.ordered
      have hdrift := hspec.drift
      refine ⟨by omega, fun heq => ?_, fun hrun => ?_⟩
      · have hlost : s.lostBytes ev = 0 := by omega
        exact .cons ⟨hstep, lostBytes_eq_zero_iff.mp hlost⟩ (hiff.mp (by omega))
      · cases hrun with
        | cons hstep' hrest' =>
            obtain rfl : t = _ := Option.some.inj (hstep.symm.trans hstep'.1)
            have hlost : s.lostBytes ev = 0 := lostBytes_eq_zero_iff.mpr hstep'.2
            have := hiff.mpr hrest'
            omega

end SpaRpcDedupeCache

open SpaRpcDedupeCache

/-- The books hold after a run exactly when no claim of the run took a finished
answer with a body out of the map. No step evicts an entry that is still running:
only a claim of its key past the TTL takes its place. -/
theorem dedupe_keeps_books (capacity maxBytes : ℕ) (ttl : ℤ) {es : List CacheEvent}
    {c : SpaRpcDedupeCache}
    (h : Run (fun a ev b => ev.apply a = some b) (newSpaRpcDedupeCache capacity maxBytes ttl) es
      c) :
    (Books c ∧ ∀ ev c', CacheEvent.apply c ev = some c' → KeepsRunning c ev c') ↔
      Run (fun a ev b => ev.apply a = some b ∧ a.RenewsNoAnswer ev)
        (newSpaRpcDedupeCache capacity maxBytes ttl) es c := by
  have hinit := Ordered.init capacity maxBytes ttl
  have hc : Ordered c := hinit.run h
  have hdrift := (drift_run hinit h).2
  rw [drift_init] at hdrift
  constructor
  · rintro ⟨hbooks, -⟩
    exact hdrift.mp hbooks.drift_eq_zero
  · intro hrun
    exact ⟨hc.books (hdrift.mpr hrun), fun ev c' hstep => (step_spec hc hstep).keepsRunning⟩

/-- A key claimed, answered with two bytes, and claimed again before it expires. -/
def repeatedClaim : List CacheEvent :=
  [.claim "k" 0 0, .fill 0 ⟨200, [], [1, 2]⟩ 1, .claim "k" 2 2]

theorem dedupe_keeps_books_repeatedClaim : ∃ c, Books c ∧ c.bytes = 2 := by
  obtain ⟨c, hrun, hbytes⟩ : ∃ c, Run
      (fun a ev b => CacheEvent.apply a ev = some b ∧ a.RenewsNoAnswer ev)
      (newSpaRpcDedupeCache 1 2 spaRpcDedupeTTL) repeatedClaim c ∧ c.bytes = 2 :=
    ⟨_, .cons ⟨rfl, lostBytes_eq_zero_iff.mp (by decide)⟩ (.cons ⟨rfl, trivial⟩
      (.cons ⟨rfl, lostBytes_eq_zero_iff.mp (by decide)⟩ (.nil _))), by decide⟩
  exact ⟨c, ((dedupe_keeps_books 1 2 spaRpcDedupeTTL (hrun.mono fun _ _ _ h => h.1)).mpr hrun).1,
    hbytes⟩

/-- The second claim of `k` comes when the TTL has passed. -/
def renewedClaim : List CacheEvent :=
  [.claim "k" 0 0, .fill 0 ⟨200, [], [1, 2]⟩ 1, .claim "k" spaRpcDedupeTTL spaRpcDedupeTTL]

/-- The counter keeps the two bytes of an answer that no binding holds any more. -/
theorem dedupe_renewed_claim_leaks :
    ∃ c, Run (fun a ev b => CacheEvent.apply a ev = some b)
        (newSpaRpcDedupeCache spaRpcDedupeCap spaRpcDedupeMaxBytes spaRpcDedupeTTL) renewedClaim c ∧
      c.bytes = 2 ∧ c.storedBytes c.m = 0 :=
  ⟨_, Run.iff_foldlM.mpr rfl, by decide, by decide⟩

end Sky.Spa
