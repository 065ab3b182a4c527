import Mathlib

/-! # Saturation of a finite graph: a search by work list, and marking until nothing changes -/

namespace Sky.Saturation

open Relation

variable {α : Type*} [DecidableEq α]

/-! ## Marking -/

/-- Mark a node that the marked ones force. -/
def mark (forced : List α → α → Bool) (marked : List α) (d : α) : List α :=
  if d ∈ marked then marked else if forced marked d then d :: marked else marked

/-- One pass over the nodes. -/
def pass (forced : List α → α → Bool) (nodes marked : List α) : List α :=
  nodes.foldl (mark forced) marked

/-- Passes until one changes nothing. -/
def saturate (forced : List α → α → Bool) (nodes : List α) : ℕ → List α → List α
  | 0, marked => marked
  | n + 1, marked =>
      let next := pass forced nodes marked
      if next.length = marked.length then marked else saturate forced nodes n next

variable {forced : List α → α → Bool} {nodes marked : List α}

theorem mark_cases (forced : List α → α → Bool) (marked : List α) (d : α) :
    mark forced marked d = marked ∧ (forced marked d → d ∈ marked) ∨
      mark forced marked d = d :: marked ∧ d ∉ marked ∧ forced marked d := by
  unfold mark
  by_cases hd : d ∈ marked
  · rw [if_pos hd]
    exact .inl ⟨rfl, fun _ => hd⟩
  · rw [if_neg hd]
    by_cases hforced : forced marked d
    · rw [if_pos hforced]
      exact .inr ⟨rfl, hd, hforced⟩
    · rw [if_neg hforced]
      exact .inl ⟨rfl, fun h => absurd h hforced⟩

theorem suffix_mark (d : α) : marked <:+ mark forced marked d := by
  rcases mark_cases forced marked d with ⟨h, -⟩ | ⟨h, -⟩
  · rw [h]
  · rw [h]
    exact List.suffix_cons d marked

theorem suffix_pass : marked <:+ pass forced nodes marked := by
  induction nodes generalizing marked with
  | nil => exact List.suffix_rfl
  | cons d nodes ih => exact (suffix_mark d).trans ih

/-- What a pass preserves, one node at a time. -/
theorem pass_induction {P : α → Prop}
    (hstep : ∀ marked d, (∀ x ∈ marked, P x) → d ∈ nodes → forced marked d → P d)
    (hmarked : ∀ x ∈ marked, P x) : ∀ x ∈ pass forced nodes marked, P x := by
  induction nodes generalizing marked with
  | nil => exact hmarked
  | cons d nodes ih =>
      refine ih (fun m x hm hx => hstep m x hm (List.mem_cons_of_mem d hx)) ?_
      rcases mark_cases forced marked d with ⟨h, -⟩ | ⟨h, -, hforced⟩
      · rw [h]
        exact hmarked
      · rw [h]
        exact List.forall_mem_cons.mpr
          ⟨hstep marked d hmarked List.mem_cons_self hforced, hmarked⟩

/-- A pass marks nothing only where no node is forced. -/
theorem pass_cases (forced : List α → α → Bool) (nodes marked : List α) :
    (∃ x ∈ pass forced nodes marked, x ∉ marked) ∨
      pass forced nodes marked = marked ∧ ∀ d ∈ nodes, forced marked d → d ∈ marked := by
  induction nodes with
  | nil => exact .inr ⟨rfl, by simp⟩
  | cons d nodes ih =>
      rcases mark_cases forced marked d with ⟨h, hd⟩ | ⟨h, hd, -⟩
      · have hpass : pass forced (d :: nodes) marked = pass forced nodes marked :=
          congrArg (pass forced nodes) h
        rw [hpass]
        exact ih.imp_right fun ⟨heq, hall⟩ => ⟨heq, List.forall_mem_cons.mpr ⟨hd, hall⟩⟩
      · have hpass : pass forced (d :: nodes) marked = pass forced nodes (d :: marked) :=
          congrArg (pass forced nodes) h
        rw [hpass]
        exact .inl ⟨d, suffix_pass.subset List.mem_cons_self, hd⟩

theorem saturate_succ (n : ℕ) :
    saturate forced nodes (n + 1) marked =
      if (pass forced nodes marked).length = marked.length then marked
      else saturate forced nodes n (pass forced nodes marked) := rfl

theorem suffix_saturate (n : ℕ) : marked <:+ saturate forced nodes n marked := by
  induction n generalizing marked with
  | zero => exact List.suffix_rfl
  | succ n ih =>
      rw [saturate_succ]
      split
      · exact List.suffix_rfl
      · exact suffix_pass.trans ih

/-- Saturation marks nothing outside a predicate that the seeds have and forcing keeps. -/
theorem saturate_induction {P : α → Prop} (n : ℕ)
    (hstep : ∀ marked d, (∀ x ∈ marked, P x) → d ∈ nodes → forced marked d → P d)
    (hmarked : ∀ x ∈ marked, P x) : ∀ x ∈ saturate forced nodes n marked, P x := by
  induction n generalizing marked with
  | zero => exact hmarked
  | succ n ih =>
      rw [saturate_succ]
      split
      · exact hmarked
      · exact ih (pass_induction hstep hmarked)

/-- A pass that marks something leaves fewer nodes unmarked. -/
theorem card_unmarked_pass_lt {x : α} (hx : x ∈ pass forced nodes marked) (hfresh : x ∉ marked) :
    (nodes.toFinset \ (pass forced nodes marked).toFinset).card <
      (nodes.toFinset \ marked.toFinset).card := by
  have hsub : ∀ x ∈ pass forced nodes marked, x ∈ marked ∨ x ∈ nodes :=
    pass_induction (fun _ _ _ hd _ => .inr hd) fun x hx => .inl hx
  have hmem : x ∈ nodes.toFinset \ marked.toFinset := by
    rw [Finset.mem_sdiff, List.mem_toFinset, List.mem_toFinset]
    exact ⟨(hsub x hx).resolve_left hfresh, hfresh⟩
  refine Finset.card_lt_card ⟨?_, fun hback => ?_⟩
  · refine Finset.sdiff_subset_sdiff subset_rfl fun y hy => ?_
    exact List.mem_toFinset.mpr (suffix_pass.subset (List.mem_toFinset.mp hy))
  · exact (Finset.mem_sdiff.mp (hback hmem)).2 (List.mem_toFinset.mpr hx)

/-- With a pass for each node, saturation leaves no forced node unmarked. -/
theorem saturate_closed {n : ℕ} (hn : (nodes.toFinset \ marked.toFinset).card ≤ n) :
    ∀ d ∈ nodes, forced (saturate forced nodes n marked) d →
      d ∈ saturate forced nodes n marked := by
  induction n generalizing marked with
  | zero =>
      intro d hd _
      have hall := Finset.card_eq_zero.mp (Nat.le_zero.mp hn)
      exact List.mem_toFinset.mp
        (Finset.sdiff_eq_empty_iff_subset.mp hall (List.mem_toFinset.mpr hd))
  | succ n ih =>
      rw [saturate_succ]
      rcases pass_cases forced nodes marked with
        ⟨x, hx, hfresh⟩ | ⟨heq, hall⟩
      · rw [if_neg]
        · exact ih (Nat.le_of_lt_succ ((card_unmarked_pass_lt hx hfresh).trans_le hn))
        · intro hlen
          rw [← suffix_pass.eq_of_length hlen.symm] at hx
          exact hfresh hx
      · rw [if_pos (congrArg List.length heq)]
        exact hall

/-- A pass for each node is enough. -/
theorem card_unmarked_le : (nodes.toFinset \ marked.toFinset).card ≤ nodes.length :=
  (Finset.card_le_card Finset.sdiff_subset).trans (List.toFinset_card_le nodes)

/-- Marking a node with a marked successor marks the nodes that reach a seed. -/
theorem mem_saturate_any {succ : α → List α} (seeds : List α)
    (hsucc : ∀ d ∈ nodes, succ d ⊆ nodes) {d : α} (hd : d ∈ nodes) :
    d ∈ saturate (fun m x => (succ x).any (· ∈ m)) nodes nodes.length seeds ↔
      ∃ s ∈ seeds, ReflTransGen (fun a b => b ∈ succ a) d s := by
  constructor
  · refine saturate_induction (P := fun x => ∃ s ∈ seeds,
      ReflTransGen (fun a b => b ∈ succ a) x s) nodes.length ?_ ?_ d
    · intro m x hm _ hforced
      obtain ⟨c, hc, hmem⟩ := List.any_eq_true.mp hforced
      obtain ⟨s, hs, hpath⟩ := hm c (of_decide_eq_true hmem)
      exact ⟨s, hs, .head hc hpath⟩
    · exact fun x hx => ⟨x, hx, .refl⟩
  · rintro ⟨s, hs, hpath⟩
    induction hpath using ReflTransGen.head_induction_on with
    | refl => exact (suffix_saturate nodes.length).subset hs
    | head hstep _ ih =>
        have hnext := hsucc _ hd hstep
        refine saturate_closed card_unmarked_le _ hd (List.any_eq_true.mpr ⟨_, hstep, ?_⟩)
        exact decide_eq_true (ih hnext)

/-! ## Search -/

/-- A node not seen before is seen and put on the work list. -/
def enqueue (s : List α × List α) (d : α) : List α × List α :=
  if d ∈ s.1 then s else (d :: s.1, d :: s.2)

/-- Take nodes off the work list until it is empty, putting the unseen successors on it. -/
def explore (succ : α → List α) : ℕ → List α × List α → List α → List α
  | 0, _, done => done
  | _ + 1, (_, []), done => done
  | n + 1, (seen, d :: work), done =>
      explore succ n ((succ d).foldl enqueue (seen, work)) (d :: done)

/-- The nodes found from the seeds. -/
def search (succ : α → List α) (n : ℕ) (seeds : List α) : List α :=
  explore succ n (seeds.foldl enqueue ([], [])) []

/-- What stays true of the seen nodes and the work list while nodes are put on it. -/
structure Enqueued (world : Finset α) (s t : List α × List α) : Prop where
  seen : ∀ x ∈ s.1, x ∈ t.1
  work : ∀ x ∈ s.2, x ∈ t.2
  fresh : ∀ x ∈ t.1, x ∈ s.1 ∨ x ∈ t.2
  budget : t.2.length + (world \ t.1.toFinset).card =
    s.2.length + (world \ s.1.toFinset).card

theorem Enqueued.refl {world : Finset α} {s : List α × List α} : Enqueued world s s where
  seen _ h := h
  work _ h := h
  fresh _ h := .inl h
  budget := rfl

theorem Enqueued.trans {world : Finset α} {s t u : List α × List α}
    (h : Enqueued world s t) (k : Enqueued world t u) : Enqueued world s u where
  seen x hx := k.seen x (h.seen x hx)
  work x hx := k.work x (h.work x hx)
  fresh x hx := (k.fresh x hx).elim
    (fun hx => (h.fresh x hx).imp_right (k.work x)) .inr
  budget := k.budget.trans h.budget

theorem enqueue_spec {world : Finset α} {d : α} (hd : d ∈ world) (s : List α × List α) :
    Enqueued world s (enqueue s d) ∧ d ∈ (enqueue s d).1 := by
  unfold enqueue
  by_cases hseen : d ∈ s.1
  · rw [if_pos hseen]
    exact ⟨.refl, hseen⟩
  · rw [if_neg hseen]
    refine ⟨⟨fun _ => List.mem_cons_of_mem d, fun _ => List.mem_cons_of_mem d, ?_, ?_⟩,
      List.mem_cons_self⟩
    · intro x hx
      rcases List.mem_cons.mp hx with rfl | hx
      · exact .inr List.mem_cons_self
      · exact .inl hx
    · have hmem : d ∈ world \ s.1.toFinset := by
        rw [Finset.mem_sdiff, List.mem_toFinset]
        exact ⟨hd, hseen⟩
      have herase : world \ (d :: s.1).toFinset = (world \ s.1.toFinset).erase d := by
        rw [List.toFinset_cons, Finset.sdiff_insert]
      have hcard := Finset.card_erase_add_one hmem
      rw [herase, List.length_cons]
      omega

theorem foldl_enqueue_spec {world : Finset α} {ds : List α} (hds : ∀ d ∈ ds, d ∈ world)
    (s : List α × List α) :
    Enqueued world s (ds.foldl enqueue s) ∧ ∀ d ∈ ds, d ∈ (ds.foldl enqueue s).1 := by
  induction ds generalizing s with
  | nil => exact ⟨.refl, by simp⟩
  | cons d ds ih =>
      obtain ⟨hd, hds⟩ := List.forall_mem_cons.mp hds
      obtain ⟨hone, hseen⟩ := enqueue_spec hd s
      obtain ⟨hrest, hall⟩ := ih hds (enqueue s d)
      exact ⟨hone.trans hrest, List.forall_mem_cons.mpr ⟨hrest.seen d hseen, hall⟩⟩

/-- The loop of a search: what was taken off has its successors seen, and what was seen was
taken off or waits. -/
structure Searching (succ : α → List α) (s : List α × List α) (done : List α) : Prop where
  closed : ∀ d ∈ done, ∀ c ∈ succ d, c ∈ s.1
  covered : ∀ x ∈ s.1, x ∈ done ∨ x ∈ s.2

omit [DecidableEq α] in
theorem Searching.finished {succ : α → List α} {s : List α × List α} {done : List α}
    (hs : Searching succ s done) (hwork : s.2 = []) :
    (∀ x ∈ s.1, x ∈ done) ∧ ∀ d ∈ done, ∀ c ∈ succ d, c ∈ done := by
  have hcovered : ∀ x ∈ s.1, x ∈ done := fun x hx =>
    (hs.covered x hx).resolve_right (by simp [hwork])
  exact ⟨hcovered, fun d hd c hc => hcovered c (hs.closed d hd c hc)⟩

theorem explore_spec {succ : α → List α} {world : Finset α}
    (hsucc : ∀ d, ∀ c ∈ succ d, c ∈ world) {n : ℕ} {s : List α × List α} {done : List α}
    (hn : s.2.length + (world \ s.1.toFinset).card ≤ n) (hs : Searching succ s done) :
    (∀ x ∈ s.1, x ∈ explore succ n s done) ∧
      ∀ d ∈ explore succ n s done, ∀ c ∈ succ d, c ∈ explore succ n s done := by
  induction n generalizing s done with
  | zero => exact hs.finished (List.length_eq_zero_iff.mp (by omega))
  | succ n ih =>
      obtain ⟨seen, work⟩ := s
      cases work with
      | nil => exact hs.finished rfl
      | cons d work =>
          obtain ⟨hnext, hall⟩ := foldl_enqueue_spec (hsucc d) (seen, work)
          have hbudget := hnext.budget
          have hsearching : Searching succ ((succ d).foldl enqueue (seen, work)) (d :: done) := by
            constructor
            · refine List.forall_mem_cons.mpr ⟨hall, fun x hx c hc => ?_⟩
              exact hnext.seen c (hs.closed x hx c hc)
            · intro x hx
              rcases hnext.fresh x hx with hx | hx
              · rcases hs.covered x hx with hx | hx
                · exact .inl (List.mem_cons_of_mem d hx)
                · rcases List.mem_cons.mp hx with rfl | hx
                  · exact .inl List.mem_cons_self
                  · exact .inr (hnext.work x hx)
              · exact .inr hx
          have hfuel : ((succ d).foldl enqueue (seen, work)).2.length +
              (world \ ((succ d).foldl enqueue (seen, work)).1.toFinset).card ≤ n := by
            simp only [List.length_cons] at hn hbudget
            omega
          obtain ⟨hseen, hclosed⟩ := ih hfuel hsearching
          exact ⟨fun x hx => hseen x (hnext.seen x hx), hclosed⟩

/-- With a step for each node there is, a search finds its seeds and the successors of what it
finds. -/
theorem search_spec {succ : α → List α} {world : Finset α}
    (hsucc : ∀ d, ∀ c ∈ succ d, c ∈ world) {seeds : List α}
    (hseeds : ∀ d ∈ seeds, d ∈ world) {n : ℕ} (hn : world.card ≤ n) :
    (∀ d ∈ seeds, d ∈ search succ n seeds) ∧
      ∀ d ∈ search succ n seeds, ∀ c ∈ succ d, c ∈ search succ n seeds := by
  obtain ⟨hstart, hall⟩ := foldl_enqueue_spec hseeds ([], [])
  have hsearching : Searching succ (seeds.foldl enqueue ([], [])) [] := by
    refine ⟨by simp, fun x hx => .inr ?_⟩
    exact (hstart.fresh x hx).resolve_left (by simp)
  have hbudget := hstart.budget
  simp only [List.length_nil, List.toFinset_nil, Finset.sdiff_empty, Nat.zero_add] at hbudget
  obtain ⟨hseen, hclosed⟩ := explore_spec hsucc (hbudget.trans_le hn) hsearching
  exact ⟨fun d hd => hseen d (hall d hd), hclosed⟩

end Sky.Saturation
