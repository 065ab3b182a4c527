import Sky.Model.DependencyGroups

/-! # The groups are the strongly connected components

A visit leaves the stack below it as it was, visits what its index reaches, and either closes the
group of its index or leaves it above an older one that it reaches. -/

namespace Sky.Infer

open Library Relation

/-! ## What a visit does -/

section

/-- `w` is a successor of `v`. -/
def IndexGraph.Edge (g : IndexGraph) (v w : ℕ) : Prop := w ∈ g.out v

/-- There is a path. -/
abbrev IndexGraph.Reaches (g : IndexGraph) : ℕ → ℕ → Prop := ReflTransGen g.Edge

theorem IndexGraph.lt_of_edge {g : IndexGraph} {v w : ℕ} (h : g.Edge v w) :
    w < g.edges.length := by
  unfold IndexGraph.Edge IndexGraph.out at h
  cases hget : g.edges[v]? with
  | none =>
      rw [hget] at h
      exact absurd h List.not_mem_nil
  | some out =>
      rw [hget, Option.getD_some] at h
      exact g.bound out (List.mem_of_getElem? hget) w h

namespace Tarjan

variable {g : IndexGraph} {t t' t₀ t₁ : Tarjan} {v w : ℕ} {new new₁ seen : List ℕ}

def Visited (t : Tarjan) (x : ℕ) : Prop := (t.index x).isSome = true

def num (t : Tarjan) (x : ℕ) : ℕ := (t.index x).getD 0

theorem Visited.eq_some {x : ℕ} (h : t.Visited x) : t.index x = some (t.num x) := by
  obtain ⟨i, hi⟩ := Option.isSome_iff_exists.mp h
  rw [num, hi, Option.getD_some]

theorem visited_of_eq {x i : ℕ} (h : t.index x = some i) : t.Visited x := by
  rw [Visited, h, Option.isSome_some]

theorem not_visited_iff {x : ℕ} : ¬ t.Visited x ↔ t.index x = none := by
  rw [Visited, Bool.not_eq_true, Option.isSome_eq_false_iff, Option.isNone_iff_eq_none]

/-! ## The invariant -/

structure Inv (g : IndexGraph) (t : Tarjan) : Prop where
  lt_next : ∀ x, t.Visited x → t.num x < t.next
  sorted : t.stack.Pairwise fun a b => t.num b < t.num a
  onStack : ∀ x, t.onStack x = true ↔ x ∈ t.stack
  visited : ∀ x, t.Visited x ↔ x ∈ t.stack ∨ x ∈ t.out.flatten
  apart : ∀ x ∈ t.stack, x ∉ t.out.flatten
  groups : CalleesFirst g.Edge t.out
  each : ∀ grp ∈ t.out, grp.Pairwise (· ≤ ·)
  nodup : t.out.flatten.Nodup
  inside : ∀ x, t.Visited x → x < g.edges.length

theorem Inv.visited_of_mem (h : t.Inv g) {x : ℕ} (hx : x ∈ t.stack) : t.Visited x :=
  (h.visited x).mpr (.inl hx)

theorem Inv.stack_nodup (h : t.Inv g) : t.stack.Nodup := by
  refine h.sorted.imp ?_
  intro a b hab heq
  rw [heq] at hab
  exact lt_irrefl _ hab

/-- What a later state keeps of an earlier one. -/
structure Extends (t t' : Tarjan) : Prop where
  index : ∀ x, t.Visited x → t'.index x = t.index x
  low : ∀ x, t.Visited x → t'.low x = t.low x
  next : t.next ≤ t'.next
  fresh : ∀ x, ¬ t.Visited x → t'.Visited x → t.next ≤ t'.num x

theorem Extends.refl (t : Tarjan) : t.Extends t :=
  ⟨fun _ _ => rfl, fun _ _ => rfl, le_rfl, fun _ h h' => absurd h' h⟩

theorem Extends.visited (h : t.Extends t') {x : ℕ} (hx : t.Visited x) : t'.Visited x := by
  rw [Visited, h.index x hx]
  exact hx

theorem Extends.num (h : t.Extends t') {x : ℕ} (hx : t.Visited x) : t'.num x = t.num x := by
  rw [Tarjan.num, h.index x hx, Tarjan.num]

theorem Extends.trans (h : t₀.Extends t) (h' : t.Extends t') : t₀.Extends t' := by
  refine ⟨?_, ?_, h.next.trans h'.next, ?_⟩
  · intro x hx
    rw [h'.index x (h.visited hx), h.index x hx]
  · intro x hx
    rw [h'.low x (h.visited hx), h.low x hx]
  · intro x hx hx'
    by_cases hmid : t.Visited x
    · rw [h'.num hmid]
      exact h.fresh x hx hmid
    · exact h.next.trans (h'.fresh x hmid hx')

/-! ## The indices that are not visited -/

def unvisited (g : IndexGraph) (t : Tarjan) : ℕ :=
  ((List.range g.edges.length).filter fun x => (t.index x).isNone).length

theorem Extends.unvisited_le (h : t.Extends t') : t'.unvisited g ≤ t.unvisited g := by
  apply List.Sublist.length_le
  apply List.monotone_filter_right
  intro x hx
  by_contra hnot
  have hvisited : t.Visited x := by
    rw [Bool.not_eq_true, Option.isNone_eq_false_iff] at hnot
    exact hnot
  have hvisited' := h.visited hvisited
  rw [Visited] at hvisited'
  rw [Option.isNone_iff_eq_none] at hx
  rw [hx] at hvisited'
  exact absurd hvisited' (by simp)

theorem unvisited_enter (hv : t.index v = none) (hlt : v < g.edges.length) :
    (t.enter v).unvisited g < t.unvisited g := by
  unfold unvisited
  have hsub : ((List.range g.edges.length).filter fun x => ((t.enter v).index x).isNone) =
      ((List.range g.edges.length).filter fun x => (t.index x).isNone).filter
        fun x => decide (x ≠ v) := by
    rw [List.filter_filter]
    apply List.filter_congr
    intro x _
    by_cases hx : x = v
    · subst hx
      simp [enter]
    · simp [enter, hx]
  rw [hsub]
  apply List.length_filter_lt_length_iff_exists.mpr
  exact ⟨v, List.mem_filter.mpr ⟨List.mem_range.mpr hlt, by simp [hv]⟩, by simp⟩

/-! ## What holds between two successors -/

/-- The visit of `v` began in `t₀`, has looked at `seen` and has left `new` above `v`. -/
structure Mid (g : IndexGraph) (v : ℕ) (t₀ : Tarjan) (seen new : List ℕ) (t : Tarjan) : Prop where
  inv : t.Inv g
  ext : t₀.Extends t
  stack : t.stack = new ++ v :: t₀.stack
  self : t.index v = some t₀.next
  reach : ∀ x, t.Visited x → ¬ t₀.Visited x → g.Reaches v x
  succs : ∀ x, t.Visited x → ¬ t₀.Visited x → x ≠ v → ∀ y, g.Edge x y → t.Visited y
  looked : ∀ y ∈ seen, t.Visited y
  down : ∀ x ∈ new, ∃ z ∈ t.stack, t.num z < t.num x ∧ g.Reaches x z
  lowNode : ∃ y ∈ t.stack, t.num y = t.low v ∧ g.Reaches v y
  low_le : t.low v ≤ t₀.next
  cross : ∀ x ∈ new, ∀ y ∈ t₀.stack, g.Edge x y → t.low v ≤ t.num y
  crossSelf : ∀ y ∈ seen, y ∈ t₀.stack → t.low v ≤ t.num y

/-- The visit of `w` took `t` to `t'` and left `new` on the stack. -/
structure Post (g : IndexGraph) (w : ℕ) (t : Tarjan) (new : List ℕ) (t' : Tarjan) : Prop where
  inv : t'.Inv g
  ext : t.Extends t'
  stack : t'.stack = new ++ t.stack
  self : t'.Visited w
  reach : ∀ x, t'.Visited x → ¬ t.Visited x → g.Reaches w x
  succs : ∀ x, t'.Visited x → ¬ t.Visited x → ∀ y, g.Edge x y → t'.Visited y
  down : ∀ x ∈ new, ∃ z ∈ t'.stack, t'.num z < t'.num x ∧ g.Reaches x z
  lowNode : (∃ y ∈ t.stack, t'.num y = t'.low w ∧ g.Reaches w y) ∨ t.next ≤ t'.low w
  cross : ∀ x ∈ new, ∀ y ∈ t.stack, g.Edge x y → t'.low w ≤ t'.num y

theorem Inv.enter (h : t.Inv g) (hv : t.index v = none) (hlt : v < g.edges.length) :
    Mid g v t [] [] (t.enter v) := by
  have hnot : ¬ t.Visited v := not_visited_iff.mpr hv
  have hself : (t.enter v).index v = some t.next := Function.update_self _ _ _
  have hother : ∀ x, x ≠ v → (t.enter v).index x = t.index x :=
    fun x hx => Function.update_of_ne hx _ _
  have hne : ∀ x, t.Visited x → x ≠ v := fun x hx heq => hnot (heq ▸ hx)
  have hext : t.Extends (t.enter v) := by
    refine ⟨fun x hx => hother x (hne x hx), ?_, Nat.le_succ _, ?_⟩
    · intro x hx
      exact Function.update_of_ne (hne x hx) _ _
    · intro x hx hx'
      by_cases hxv : x = v
      · subst hxv
        rw [num, hself, Option.getD_some]
      · rw [Visited, hother x hxv] at hx'
        exact absurd hx' hx
  have hnumv : (t.enter v).num v = t.next := by
    rw [num, hself, Option.getD_some]
  have hvisited : ∀ x, (t.enter v).Visited x ↔ x = v ∨ t.Visited x := by
    intro x
    by_cases hxv : x = v
    · subst hxv
      exact ⟨fun _ => .inl rfl, fun _ => visited_of_eq hself⟩
    · rw [Visited, hother x hxv, Visited]
      exact ⟨.inr, fun h => h.resolve_left hxv⟩
  have hinv : (t.enter v).Inv g := by
    refine ⟨?_, ?_, ?_, ?_, ?_, h.groups, h.each, h.nodup, ?_⟩
    · intro x hx
      rcases (hvisited x).mp hx with rfl | hx'
      · rw [hnumv]
        exact Nat.lt_succ_self _
      · rw [hext.num hx']
        exact Nat.lt_succ_of_lt (h.lt_next x hx')
    · refine List.pairwise_cons.mpr ⟨?_, ?_⟩
      · intro x hx
        have hx' := h.visited_of_mem hx
        rw [hnumv, hext.num hx']
        exact h.lt_next x hx'
      · refine h.sorted.imp_of_mem ?_
        intro a b ha hb hab
        rw [hext.num (h.visited_of_mem ha), hext.num (h.visited_of_mem hb)]
        exact hab
    · intro x
      by_cases hxv : x = v
      · subst hxv
        exact ⟨fun _ => List.mem_cons_self, fun _ => Function.update_self _ _ _⟩
      · rw [show (t.enter v).onStack x = t.onStack x from Function.update_of_ne hxv _ _,
          h.onStack x]
        exact ⟨List.mem_cons_of_mem v, fun hx => (List.mem_cons.mp hx).resolve_left hxv⟩
    · intro x
      rw [hvisited x, h.visited x]
      exact ⟨fun hx => by
          rcases hx with rfl | hx | hx
          · exact .inl List.mem_cons_self
          · exact .inl (List.mem_cons_of_mem _ hx)
          · exact .inr hx,
        fun hx => by
          rcases hx with hx | hx
          · rcases List.mem_cons.mp hx with rfl | hx
            · exact .inl rfl
            · exact .inr (.inl hx)
          · exact .inr (.inr hx)⟩
    · intro x hx
      rcases List.mem_cons.mp hx with rfl | hx
      · exact fun hout => hnot ((h.visited _).mpr (.inr hout))
      · exact h.apart x hx
    · intro x hx
      rcases (hvisited x).mp hx with rfl | hx'
      · exact hlt
      · exact h.inside x hx'
  have hlowv : (t.enter v).low v = t.next := Function.update_self _ _ _
  have honly : ∀ x, (t.enter v).Visited x → ¬ t.Visited x → x = v :=
    fun x hx hx' => ((hvisited x).mp hx).resolve_right hx'
  refine ⟨hinv, hext, rfl, hself, ?_, ?_, by simp, by simp, ?_, ?_, by simp, by simp⟩
  · intro x hx hx'
    rw [honly x hx hx']
  · intro x hx hx' hxv
    exact absurd (honly x hx hx') hxv
  · refine ⟨v, List.mem_cons_self, ?_, .refl⟩
    rw [hnumv, hlowv]
  · exact hlowv.le

/-- Lowering the number of `v` changes nothing else. -/
theorem lower_low (t : Tarjan) (v low : ℕ) : (t.lower v low).low v = min (t.low v) low :=
  Function.update_self _ _ _

theorem Inv.lower (h : t.Inv g) (v low : ℕ) : (t.lower v low).Inv g :=
  ⟨h.lt_next, h.sorted, h.onStack, h.visited, h.apart, h.groups, h.each, h.nodup, h.inside⟩

theorem Extends.lower (h : t.Extends t') (hv : ¬ t.Visited v) (low : ℕ) :
    t.Extends (t'.lower v low) := by
  refine ⟨h.index, ?_, h.next, h.fresh⟩
  intro x hx
  have hxv : x ≠ v := fun heq => hv (heq ▸ hx)
  exact (Function.update_of_ne hxv _ _).trans (h.low x hx)

theorem Mid.not_visited (h : Mid g v t₀ seen new t) (h₀ : t₀.Inv g) : ¬ t₀.Visited v := by
  intro hv
  have hnum := h.ext.num hv
  rw [num, h.self, Option.getD_some] at hnum
  have hlt := h₀.lt_next v hv
  omega

/-- A successor that is not visited yet is visited now. -/
theorem Mid.visit (h : Mid g v t₀ seen new t) (h₀ : t₀.Inv g) (hw : ¬ t.Visited w)
    (hedge : g.Edge v w) (hpost : Post g w t new₁ t₁) :
    Mid g v t₀ (seen ++ [w]) (new₁ ++ new) (t₁.lower v (t₁.low w)) := by
  have hnotv := h.not_visited h₀
  have hvisv : t.Visited v := visited_of_eq h.self
  have hlowv : t₁.low v = t.low v := hpost.ext.low v hvisv
  have hlow : (t₁.lower v (t₁.low w)).low v = min (t.low v) (t₁.low w) := by
    rw [lower_low, hlowv]
  have hstack : t₁.stack = new₁ ++ new ++ v :: t₀.stack := by
    rw [hpost.stack, h.stack, List.append_assoc]
  have hmem : ∀ {x}, x ∈ t.stack → x ∈ t₁.stack := by
    intro x hx
    rw [hpost.stack]
    exact List.mem_append_right _ hx
  have hnum : ∀ {x}, x ∈ t.stack → t₁.num x = t.num x :=
    fun hx => hpost.ext.num (h.inv.visited_of_mem hx)
  have hbase : ∀ {y}, y ∈ t₀.stack → y ∈ t.stack := by
    intro y hy
    rw [h.stack]
    exact List.mem_append_right _ (List.mem_cons_of_mem _ hy)
  have hnewMem : ∀ {x}, x ∈ new → x ∈ t.stack := by
    intro x hx
    rw [h.stack]
    exact List.mem_append_left _ hx
  refine ⟨hpost.inv.lower _ _, (h.ext.trans hpost.ext).lower hnotv _, hstack, ?_, ?_, ?_, ?_, ?_,
    ?_, ?_, ?_, ?_⟩
  · exact (hpost.ext.index v hvisv).trans h.self
  · intro x hx hx₀
    by_cases hxt : t.Visited x
    · exact h.reach x hxt hx₀
    · exact .head hedge (hpost.reach x hx hxt)
  · intro x hx hx₀ hxv y hy
    by_cases hxt : t.Visited x
    · exact hpost.ext.visited (h.succs x hxt hx₀ hxv y hy)
    · exact hpost.succs x hx hxt y hy
  · intro y hy
    rcases List.mem_append.mp hy with hy | hy
    · exact hpost.ext.visited (h.looked y hy)
    · rw [List.mem_singleton.mp hy]
      exact hpost.self
  · intro x hx
    rcases List.mem_append.mp hx with hx | hx
    · exact hpost.down x hx
    · obtain ⟨z, hz, hlt, hreach⟩ := h.down x hx
      refine ⟨z, hmem hz, ?_, hreach⟩
      rw [show (t₁.lower v (t₁.low w)).num = t₁.num from rfl, hnum hz, hnum (hnewMem hx)]
      exact hlt
  · rw [hlow]
    by_cases hle : t.low v ≤ t₁.low w
    · obtain ⟨y, hy, hyl, hreach⟩ := h.lowNode
      refine ⟨y, hmem hy, ?_, hreach⟩
      rw [Nat.min_eq_left hle, ← hyl]
      exact hnum hy
    · -- the number came from a node below `w`
      rcases hpost.lowNode with ⟨y, hy, hyl, hreach⟩ | hnext
      · refine ⟨y, hmem hy, ?_, .head hedge hreach⟩
        rw [Nat.min_eq_right (by omega)]
        exact hyl
      · have hlow₀ := h.low_le
        have hself := h.inv.lt_next v hvisv
        rw [num, h.self, Option.getD_some] at hself
        omega
  · rw [hlow]
    exact (Nat.min_le_left _ _).trans h.low_le
  · intro x hx y hy hxy
    rw [hlow, show (t₁.lower v (t₁.low w)).num = t₁.num from rfl]
    rcases List.mem_append.mp hx with hx | hx
    · exact (Nat.min_le_right _ _).trans (hpost.cross x hx y (hbase hy) hxy)
    · rw [hnum (hbase hy)]
      exact (Nat.min_le_left _ _).trans (h.cross x hx y hy hxy)
  · intro y hy hy₀
    rw [hlow, show (t₁.lower v (t₁.low w)).num = t₁.num from rfl]
    rcases List.mem_append.mp hy with hy | hy
    · rw [hnum (hbase hy₀)]
      exact (Nat.min_le_left _ _).trans (h.crossSelf y hy hy₀)
    · rw [List.mem_singleton.mp hy] at hy₀
      exact absurd (h.inv.visited_of_mem (hbase hy₀)) hw

/-- A successor on the stack. -/
theorem Mid.onStack (h : Mid g v t₀ seen new t) (h₀ : t₀.Inv g) (hw : w ∈ t.stack)
    (hedge : g.Edge v w) : Mid g v t₀ (seen ++ [w]) new (t.lower v (t.num w)) := by
  have hlow := lower_low t v (t.num w)
  refine ⟨h.inv.lower _ _, h.ext.lower (h.not_visited h₀) _, h.stack, h.self, h.reach, h.succs, ?_,
    h.down, ?_, ?_, ?_, ?_⟩
  · intro y hy
    rcases List.mem_append.mp hy with hy | hy
    · exact h.looked y hy
    · rw [List.mem_singleton.mp hy]
      exact h.inv.visited_of_mem hw
  · rw [hlow]
    by_cases hle : t.low v ≤ t.num w
    · obtain ⟨y, hy, hyl, hreach⟩ := h.lowNode
      rw [Nat.min_eq_left hle]
      exact ⟨y, hy, hyl, hreach⟩
    · refine ⟨w, hw, ?_, .single hedge⟩
      rw [Nat.min_eq_right (by omega)]
      rfl
  · rw [hlow]
    exact (Nat.min_le_left _ _).trans h.low_le
  · intro x hx y hy hxy
    rw [hlow]
    exact (Nat.min_le_left _ _).trans (h.cross x hx y hy hxy)
  · intro y hy hy₀
    rw [hlow]
    rcases List.mem_append.mp hy with hy | hy
    · exact (Nat.min_le_left _ _).trans (h.crossSelf y hy hy₀)
    · rw [List.mem_singleton.mp hy]
      exact Nat.min_le_right _ _

/-- A successor in a group that is closed. -/
theorem Mid.closed (h : Mid g v t₀ seen new t) (hvis : t.Visited w) (hw : w ∉ t.stack) :
    Mid g v t₀ (seen ++ [w]) new t := by
  refine { h with looked := ?_, crossSelf := ?_ }
  · intro y hy
    rcases List.mem_append.mp hy with hy | hy
    · exact h.looked y hy
    · rw [List.mem_singleton.mp hy]
      exact hvis
  · intro y hy hy₀
    rcases List.mem_append.mp hy with hy | hy
    · exact h.crossSelf y hy hy₀
    · rw [List.mem_singleton.mp hy] at hy₀
      refine absurd ?_ hw
      rw [h.stack]
      exact List.mem_append_right _ (List.mem_cons_of_mem _ hy₀)

end Tarjan

end

/-! ## Whole runs -/

namespace Tarjan

variable {g : IndexGraph} {t t' t₀ t₁ : Tarjan} {v w : ℕ} {new seen : List ℕ}

/-! ## Closing a group -/

theorem popTo_spec {new : List ℕ} (old : List ℕ) (hv : v ∉ new) (onStack : ℕ → Bool) (group : List ℕ) :
    ∃ on, popTo v (new ++ v :: old) onStack group = (old, on, group ++ (new ++ [v])) ∧
      ∀ x, on x = true ↔ ¬ (x ∈ new ∨ x = v) ∧ onStack x = true := by
  induction new generalizing onStack group with
  | nil =>
      refine ⟨Function.update onStack v false, by simp [popTo], ?_⟩
      intro x
      by_cases hx : x = v
      · simp [hx]
      · simp [hx]
  | cons y new ih =>
      rw [List.mem_cons, not_or] at hv
      obtain ⟨on, hrun, hon⟩ := ih hv.2 (Function.update onStack y false) (group ++ [y])
      refine ⟨on, ?_, ?_⟩
      · rw [List.cons_append, popTo, if_neg fun h => hv.1 h.symm, hrun]
        simp
      · intro x
        rw [hon x, List.mem_cons]
        by_cases hxy : x = y
        · simp [hxy]
        · rw [Function.update_of_ne hxy]
          simp [hxy]

/-- The numbers above `v` on the stack are greater, those below it smaller. -/
theorem Mid.num_lt (h : Mid g v t₀ seen new t) :
    (∀ x ∈ new, t.num v < t.num x) ∧ ∀ y ∈ t₀.stack, t.num y < t.num v := by
  have hsorted := h.inv.sorted
  rw [h.stack, List.pairwise_append] at hsorted
  obtain ⟨-, hbelow, hcross⟩ := hsorted
  exact ⟨fun x hx => hcross x hx v List.mem_cons_self, (List.pairwise_cons.mp hbelow).1⟩

theorem Mid.num_self (h : Mid g v t₀ seen new t) : t.num v = t₀.next := by
  rw [num, h.self, Option.getD_some]

theorem Mid.mem_stack {x : ℕ} (h : Mid g v t₀ seen new t) :
    x ∈ t.stack ↔ x ∈ new ∨ x = v ∨ x ∈ t₀.stack := by
  rw [h.stack, List.mem_append, List.mem_cons]

/-- All successors of what was visited are visited, once those of `v` are. -/
theorem Mid.succs_all (h : Mid g v t₀ (g.out v) new t) {x : ℕ} (hx : t.Visited x)
    (hx₀ : ¬ t₀.Visited x) {y : ℕ} (hy : g.Edge x y) : t.Visited y := by
  by_cases hxv : x = v
  · subst hxv
    exact h.looked y hy
  · exact h.succs x hx hx₀ hxv y hy

theorem Mid.not_visited_new (h : Mid g v t₀ seen new t) (h₀ : t₀.Inv g) {x : ℕ} (hx : x ∈ new) :
    ¬ t₀.Visited x := by
  intro hvis
  have hlt := h.num_lt.1 x hx
  rw [h.num_self, h.ext.num hvis] at hlt
  have hbound := h₀.lt_next x hvis
  omega

/-- When nothing older is reached, what is above `v` reaches `v`. -/
theorem Mid.reaches_self (h : Mid g v t₀ (g.out v) new t) (h₀ : t₀.Inv g)
    (hlow : t.low v = t.num v) : ∀ x ∈ new, g.Reaches x v := by
  have hnotv := h.not_visited h₀
  -- an edge out of the part above leads to it, or to a closed group
  have hedge : ∀ x, x ∈ new ∨ x = v → ∀ y, g.Edge x y →
      (y ∈ new ∨ y = v) ∨ y ∈ t.out.flatten := by
    intro x hx y hy
    have hvis : t.Visited y := by
      rcases hx with hx | rfl
      · exact h.succs_all (h.inv.visited_of_mem (h.mem_stack.mpr (.inl hx)))
          (h.not_visited_new h₀ hx) hy
      · exact h.looked y hy
    rcases (h.inv.visited y).mp hvis with hst | hout
    · rcases h.mem_stack.mp hst with hst | hst | hst
      · exact .inl (.inl hst)
      · exact .inl (.inr hst)
      · have hlt := h.num_lt.2 y hst
        have hle : t.low v ≤ t.num y := by
          rcases hx with hx | rfl
          · exact h.cross x hx y hst hy
          · exact h.crossSelf y hy hst
        omega
    · exact .inr hout
  have hpath : ∀ x y, g.Reaches x y → x ∈ new ∨ x = v → (y ∈ new ∨ y = v) ∨ y ∈ t.out.flatten := by
    intro x y hxy hx
    induction hxy with
    | refl => exact .inl hx
    | tail _ hlast ih =>
        rcases ih with hmid | hmid
        · exact hedge _ hmid _ hlast
        · exact .inr (h.inv.groups.closed hmid hlast)
  have hall : ∀ n, ∀ x ∈ new, t.num x = n → g.Reaches x v := by
    intro n
    induction n using Nat.strong_induction_on with
    | _ n ih =>
        intro x hx hn
        obtain ⟨z, hz, hlt, hreach⟩ := h.down x hx
        rcases hpath x z hreach (.inl hx) with (hznew | rfl) | hout
        · exact hreach.trans (ih (t.num z) (by omega) z hznew rfl)
        · exact hreach
        · exact absurd hout (h.inv.apart z hz)
  intro x hx
  exact hall (t.num x) x hx rfl

/-- The visit closes the group of `v`. -/
theorem Mid.close (h : Mid g v t₀ (g.out v) new t) (h₀ : t₀.Inv g) (hlow : t.low v = t.num v) :
    Post g v t₀ [] (t.leave v) := by
  have hv : v ∉ new := fun hmem => lt_irrefl _ (h.num_lt.1 v hmem)
  have hvisv : t.Visited v := visited_of_eq h.self
  have hnotv := h.not_visited h₀
  obtain ⟨on, hpop, hon⟩ := popTo_spec t₀.stack hv t.onStack []
  rw [List.nil_append, ← h.stack] at hpop
  have hleave : t.leave v = { t with
      stack := t₀.stack
      onStack := on
      out := t.out ++ [(new ++ [v]).insertionSort (· ≤ ·)] } := by
    rw [leave, if_pos (by rw [hlow, ← hvisv.eq_some]), hpop]
  have hperm := List.perm_insertionSort (· ≤ ·) (new ++ [v])
  have hgroup : ∀ x, x ∈ (new ++ [v]).insertionSort (· ≤ ·) ↔ x ∈ new ∨ x = v := by
    intro x
    rw [hperm.mem_iff, List.mem_append, List.mem_singleton]
  have hreach := h.reaches_self h₀ hlow
  have hfrom : ∀ x, x ∈ new ∨ x = v → g.Reaches v x := by
    intro x hx
    rcases hx with hx | rfl
    · exact h.reach x (h.inv.visited_of_mem (h.mem_stack.mpr (.inl hx))) (h.not_visited_new h₀ hx)
    · exact .refl
  have hto : ∀ x, x ∈ new ∨ x = v → g.Reaches x v := by
    intro x hx
    rcases hx with hx | rfl
    · exact hreach x hx
    · exact .refl
  have hnotnew : ∀ x ∈ t₀.stack, ¬ (x ∈ new ∨ x = v) := by
    intro x hx hmem
    have hlt := h.num_lt.2 x hx
    rcases hmem with hmem | rfl
    · have hlt' := h.num_lt.1 x hmem
      omega
    · exact lt_irrefl _ hlt
  have hgroups : CalleesFirst g.Edge (t.out ++ [(new ++ [v]).insertionSort (· ≤ ·)]) := by
    refine .snoc h.inv.groups ?_ ?_ ?_
    · intro a ha b hb
      rw [hgroup] at ha hb
      exact (hto a ha).trans (hfrom b hb)
    · intro a ha b hab
      rw [hgroup] at ha
      rw [hgroup]
      have hvisa : t.Visited a := h.inv.visited_of_mem
        (h.mem_stack.mpr (by rcases ha with ha | ha; exacts [.inl ha, .inr (.inl ha)]))
      have hnota : ¬ t₀.Visited a := by
        rcases ha with ha | rfl
        · exact h.not_visited_new h₀ ha
        · exact hnotv
      rcases (h.inv.visited b).mp (h.succs_all hvisa hnota hab) with hb | hb
      · rcases h.mem_stack.mp hb with hb | hb | hb
        · exact .inl (.inl hb)
        · exact .inl (.inr hb)
        · have hlt := h.num_lt.2 b hb
          have hle : t.low v ≤ t.num b := by
            rcases ha with ha | rfl
            · exact h.cross a ha b hb hab
            · exact h.crossSelf b hab hb
          omega
      · exact .inr hb
    · intro a ha
      rw [hgroup] at ha
      exact h.inv.apart a (h.mem_stack.mpr (by rcases ha with ha | ha; exacts [.inl ha, .inr (.inl ha)]))
  rw [hleave]
  refine ⟨⟨h.inv.lt_next, ?_, ?_, ?_, ?_, hgroups, ?_, ?_, h.inv.inside⟩,
    ⟨h.ext.index, h.ext.low, h.ext.next, h.ext.fresh⟩, rfl, hvisv, h.reach, ?_, by simp, ?_, by simp⟩
  · have hsorted := h.inv.sorted
    rw [h.stack, List.pairwise_append] at hsorted
    exact (List.pairwise_cons.mp hsorted.2.1).2
  · intro x
    simp only
    rw [hon x, h.inv.onStack x, h.mem_stack]
    have hdisj := hnotnew x
    tauto
  · intro x
    simp only [List.flatten_concat, List.mem_append, hgroup]
    have hvis := h.inv.visited x
    rw [h.mem_stack] at hvis
    refine Iff.trans hvis ?_
    tauto
  · intro x hx
    simp only [List.flatten_concat, List.mem_append, hgroup]
    rw [not_or]
    exact ⟨h.inv.apart x (h.mem_stack.mpr (.inr (.inr hx))), hnotnew x hx⟩
  · intro grp hgrp
    rcases List.mem_append.mp hgrp with hgrp | hgrp
    · exact h.inv.each grp hgrp
    · rw [List.mem_singleton.mp hgrp]
      exact List.pairwise_insertionSort (· ≤ ·) _
  · simp only [List.flatten_concat]
    rw [List.nodup_append']
    refine ⟨h.inv.nodup, ?_, ?_⟩
    · rw [hperm.nodup_iff]
      have hnodup := h.inv.stack_nodup
      rw [h.stack, show new ++ v :: t₀.stack = (new ++ [v]) ++ t₀.stack by simp] at hnodup
      exact hnodup.of_append_left
    · intro x hx hx'
      rw [hgroup] at hx'
      exact h.inv.apart x
        (h.mem_stack.mpr (by rcases hx' with hx' | hx'; exacts [.inl hx', .inr (.inl hx')])) hx
  · intro x hx hx₀ y hy
    exact h.succs_all hx hx₀ hy
  · right
    simp only
    rw [hlow, h.num_self]

/-- The visit leaves `v` on the stack, above an older index that it reaches. -/
theorem Mid.keep (h : Mid g v t₀ (g.out v) new t) (hlow : t.low v ≠ t.num v) :
    Post g v t₀ (new ++ [v]) (t.leave v) := by
  have hvisv : t.Visited v := visited_of_eq h.self
  have hleave : t.leave v = t := by
    rw [leave, if_neg]
    rw [hvisv.eq_some]
    exact fun heq => hlow (Option.some.inj heq)
  have hlt : t.low v < t.num v := by
    have hle := h.low_le
    have hself := h.num_self
    omega
  obtain ⟨y, hy, hyl, hreach⟩ := h.lowNode
  have hbase : y ∈ t₀.stack := by
    rcases h.mem_stack.mp hy with hnew | rfl | hold
    · have hgt := h.num_lt.1 y hnew
      omega
    · omega
    · exact hold
  rw [hleave]
  refine ⟨h.inv, h.ext, by rw [h.stack]; simp, hvisv, h.reach, ?_, ?_, .inl ⟨y, hbase, hyl, hreach⟩,
    ?_⟩
  · intro x hx hx₀ z hz
    exact h.succs_all hx hx₀ hz
  · intro x hx
    rcases List.mem_append.mp hx with hx | hx
    · exact h.down x hx
    · rw [List.mem_singleton.mp hx]
      exact ⟨y, hy, by omega, hreach⟩
  · intro x hx z hz hxz
    rcases List.mem_append.mp hx with hx | hx
    · exact h.cross x hx z hz hxz
    · rw [List.mem_singleton.mp hx] at hxz
      exact h.crossSelf z hxz hz

/-! ## Visits -/

/-- One successor. -/
theorem Mid.look (visit : ℕ → Tarjan → Option Tarjan) (h : Mid g v t₀ seen new t) (h₀ : t₀.Inv g)
    (hedge : g.Edge v w)
    (hvisit : ¬ t.Visited w → ∃ new₁ t₁, visit w t = some t₁ ∧ Post g w t new₁ t₁) :
    ∃ new' t', Tarjan.look visit v t w = some t' ∧ Mid g v t₀ (seen ++ [w]) new' t' ∧
      t.unvisited g ≥ t'.unvisited g := by
  cases hindex : t.index w with
  | none =>
      have hw : ¬ t.Visited w := not_visited_iff.mpr hindex
      obtain ⟨new₁, t₁, hrun, hpost⟩ := hvisit hw
      refine ⟨new₁ ++ new, t₁.lower v (t₁.low w), ?_, h.visit h₀ hw hedge hpost, ?_⟩
      · simp only [Tarjan.look, hindex, hrun, Option.bind_eq_bind, Option.bind_some]
      · exact hpost.ext.unvisited_le
  | some iw =>
      have hvis : t.Visited w := visited_of_eq hindex
      by_cases hst : w ∈ t.stack
      · refine ⟨new, t.lower v (t.num w), ?_, h.onStack h₀ hst hedge, le_rfl⟩
        simp only [Tarjan.look, hindex, (h.inv.onStack w).mpr hst, if_true, num, Option.getD_some]
      · refine ⟨new, t, ?_, h.closed hvis hst, le_rfl⟩
        have hoff : t.onStack w = false := by
          rw [← Bool.not_eq_true, h.inv.onStack w]
          exact hst
        simp only [Tarjan.look, hindex, hoff, Bool.false_eq_true, if_false]

theorem visit_spec {fuel : ℕ} (h : t.Inv g) (hv : ¬ t.Visited v) (hlt : v < g.edges.length)
    (hfuel : t.unvisited g ≤ fuel) : ∃ new t', visit g fuel v t = some t' ∧ Post g v t new t' := by
  induction fuel generalizing t v with
  | zero =>
      have hsub := unvisited_enter (not_visited_iff.mp hv) hlt
      omega
  | succ fuel ih =>
      have henter := h.enter (not_visited_iff.mp hv) hlt
      have hcount := unvisited_enter (not_visited_iff.mp hv) hlt
      have hloop : ∀ ws seen new s, g.out v = seen ++ ws → Mid g v t seen new s →
          s.unvisited g ≤ fuel → ∃ new' s', ws.foldlM (Tarjan.look (visit g fuel) v) s = some s' ∧
            Mid g v t (g.out v) new' s' := by
        intro ws
        induction ws with
        | nil =>
            intro seen new s hout hmid _
            rw [List.append_nil] at hout
            exact ⟨new, s, rfl, hout ▸ hmid⟩
        | cons w ws ihws =>
            intro seen new s hout hmid hs
            have hedge : g.Edge v w := by
              rw [IndexGraph.Edge, hout]
              exact List.mem_append_right _ List.mem_cons_self
            obtain ⟨new₁, s₁, hlook, hmid₁, hle⟩ := hmid.look (visit g fuel) h hedge
              fun hw => ih hmid.inv hw (IndexGraph.lt_of_edge hedge) hs
            obtain ⟨new', s', hrun, hmid'⟩ :=
              ihws (seen ++ [w]) new₁ s₁ (by rw [hout]; simp) hmid₁ (hle.trans hs)
            refine ⟨new', s', ?_, hmid'⟩
            rw [List.foldlM_cons, hlook]
            exact hrun
      obtain ⟨new, s, hrun, hmid⟩ := hloop (g.out v) [] [] (t.enter v) rfl henter (by omega)
      have hvisit : visit g (fuel + 1) v t = some (s.leave v) := by
        simp only [visit, hrun, Option.bind_eq_bind, Option.bind_some]
      by_cases hlow : s.low v = s.num v
      · exact ⟨[], s.leave v, hvisit, hmid.close h hlow⟩
      · exact ⟨new ++ [v], s.leave v, hvisit, hmid.keep hlow⟩

/-- A deeper recursion gives the same result. -/
theorem look_mono {f : ℕ → Tarjan → Option Tarjan} (f' : ℕ → Tarjan → Option Tarjan)
    (hf : ∀ w t t', f w t = some t' → f' w t = some t') {ws : List ℕ}
    (h : ws.foldlM (Tarjan.look f v) t = some t') : ws.foldlM (Tarjan.look f' v) t = some t' := by
  induction ws generalizing t with
  | nil => exact h
  | cons w ws ih =>
      rw [List.foldlM_cons] at h ⊢
      obtain ⟨t₁, hlook, hrest⟩ := Option.bind_eq_some_iff.mp h
      have hlook' : Tarjan.look f' v t w = some t₁ := by
        unfold Tarjan.look at hlook ⊢
        cases hindex : t.index w with
        | none =>
            simp only [hindex] at hlook ⊢
            obtain ⟨t₂, hvisit, hlower⟩ := Option.bind_eq_some_iff.mp hlook
            exact Option.bind_eq_some_iff.mpr ⟨t₂, hf w t t₂ hvisit, hlower⟩
        | some iw =>
            simp only [hindex] at hlook ⊢
            exact hlook
      exact Option.bind_eq_some_iff.mpr ⟨t₁, hlook', ih hrest⟩

theorem visit_mono {fuel fuel' : ℕ} (h : visit g fuel v t = some t') (hle : fuel ≤ fuel') :
    visit g fuel' v t = some t' := by
  induction fuel generalizing fuel' v t t' with
  | zero => exact absurd h (by simp [visit])
  | succ fuel ih =>
      obtain ⟨fuel', rfl⟩ := Nat.exists_eq_add_of_le' (Nat.le_trans (Nat.le_add_left 1 fuel) hle)
      obtain ⟨s, hloop, hleave⟩ := Option.bind_eq_some_iff.mp h
      have hloop' := look_mono (visit g fuel') (fun w t t' hw => ih hw (by omega)) hloop
      exact Option.bind_eq_some_iff.mpr ⟨s, hloop', hleave⟩

/-! ## The whole graph -/

theorem inv_start (g : IndexGraph) : start.Inv g := by
  refine ⟨?_, List.Pairwise.nil, ?_, ?_, ?_, .nil, ?_, List.nodup_nil, ?_⟩ <;> simp [start, Visited]

theorem unvisited_start (g : IndexGraph) : start.unvisited g ≤ g.edges.length := by
  refine (List.length_filter_le _ _).trans ?_
  rw [List.length_range]

/-- With nothing left on the stack, the roots are visited one by one. -/
theorem roots_spec (vs : List ℕ) (h : t.Inv g) (hstack : t.stack = [])
    (hvs : ∀ v ∈ vs, v < g.edges.length) :
    ∃ t', (∀ fuel, t.unvisited g ≤ fuel →
        vs.foldlM (fun t v => if (t.index v).isNone then visit g fuel v t else some t) t =
          some t') ∧
      t'.Inv g ∧ t'.stack = [] ∧ t.Extends t' ∧ ∀ v ∈ vs, t'.Visited v := by
  induction vs generalizing t with
  | nil => exact ⟨t, fun _ _ => rfl, h, hstack, .refl t, by simp⟩
  | cons v vs ih =>
      have hrest : ∀ x ∈ vs, x < g.edges.length := fun x hx => hvs x (List.mem_cons_of_mem v hx)
      cases hindex : t.index v with
      | none =>
          obtain ⟨new, t₁, hrun, hpost⟩ := visit_spec h (not_visited_iff.mpr hindex)
            (hvs v List.mem_cons_self) le_rfl
          have hst := hpost.stack
          rw [hstack, List.append_nil] at hst
          have hnew : new = [] := by
            -- the lowest of what is left would reach something below it
            rw [List.eq_nil_iff_forall_not_mem]
            have hall : ∀ n, ∀ x ∈ new, t₁.num x = n → False := by
              intro n
              induction n using Nat.strong_induction_on with
              | _ n ihn =>
                  intro x hx hn
                  obtain ⟨z, hz, hlt, -⟩ := hpost.down x hx
                  rw [hst] at hz
                  exact ihn (t₁.num z) (by omega) z hz rfl
            intro x hx
            exact hall _ x hx rfl
          rw [hnew] at hst
          obtain ⟨t', hrun', hinv, hstack', hext, hall⟩ := ih hpost.inv hst hrest
          refine ⟨t', ?_, hinv, hstack', hpost.ext.trans hext, ?_⟩
          · intro fuel hfuel
            rw [List.foldlM_cons, hindex, Option.isNone_none, if_pos rfl, visit_mono hrun hfuel]
            exact hrun' fuel (hpost.ext.unvisited_le.trans hfuel)
          · intro x hx
            rcases List.mem_cons.mp hx with rfl | hx
            · exact hext.visited hpost.self
            · exact hall x hx
      | some i =>
          obtain ⟨t', hrun', hinv, hstack', hext, hall⟩ := ih h hstack hrest
          refine ⟨t', ?_, hinv, hstack', hext, ?_⟩
          · intro fuel hfuel
            rw [List.foldlM_cons, hindex]
            exact hrun' fuel hfuel
          · intro x hx
            rcases List.mem_cons.mp hx with rfl | hx
            · exact hext.visited (visited_of_eq hindex)
            · exact hall x hx

end Tarjan

/-- The groups are the strongly connected components, in callees-first order. -/
structure Components (g : IndexGraph) (groups : List (List ℕ)) : Prop where
  once : groups.flatten.Perm (List.range g.edges.length)
  same : ∀ a < g.edges.length, ∀ b < g.edges.length,
    (∃ grp ∈ groups, a ∈ grp ∧ b ∈ grp) ↔ g.Reaches a b ∧ g.Reaches b a
  sorted : ∀ grp ∈ groups, grp.Pairwise (· < ·)
  earlier : ∀ (i j : ℕ) (grp grp' : List ℕ), groups[i]? = some grp → groups[j]? = some grp' →
    ∀ a ∈ grp, ∀ b ∈ grp', g.Edge a b → i ≠ j → j < i

/-- The recursion is never deeper than the graph has indices, and finds the components. -/
theorem dependencyGroups_components (g : IndexGraph) :
    ∃ groups, (∀ fuel, g.edges.length ≤ fuel → dependencyGroups fuel g = some groups) ∧
      Components g groups := by
  obtain ⟨t, hrun, hinv, hstack, -, hall⟩ :=
    Tarjan.roots_spec (List.range g.edges.length) (Tarjan.inv_start g) rfl
      (fun v hv => List.mem_range.mp hv)
  have hmem : ∀ x, x < g.edges.length ↔ x ∈ t.out.flatten := by
    intro x
    constructor
    · intro hx
      have hvis := (hinv.visited x).mp (hall x (List.mem_range.mpr hx))
      rw [hstack] at hvis
      exact hvis.resolve_left List.not_mem_nil
    · intro hx
      exact hinv.inside x ((hinv.visited x).mpr (.inr hx))
  refine ⟨t.out, ?_, ?_, ?_, ?_, ?_⟩
  · intro fuel hfuel
    simp only [dependencyGroups, hrun fuel ((Tarjan.unvisited_start g).trans hfuel),
      Option.bind_eq_bind, Option.bind_some]
  · rw [List.perm_ext_iff_of_nodup hinv.nodup List.nodup_range]
    intro x
    rw [List.mem_range, hmem x]
  · intro a ha b hb
    exact hinv.groups.same_iff ((hmem a).mp ha) ((hmem b).mp hb)
  · intro grp hgrp
    have hnodup : grp.Nodup := (List.nodup_flatten.mp hinv.nodup).1 grp hgrp
    exact ((hinv.each grp hgrp).and hnodup).imp fun h => lt_of_le_of_ne h.1 h.2
  · intro i j grp grp' hi hj a ha b hb hab hne
    have hle := hinv.groups.le_of_edge hi hj ha hb hab
    omega

example : dependencyGroups 6 ⟨[[1], [2, 2], [0, 3], [3], [1, 5], [4, 4]], by decide⟩ =
    some [[3], [0, 1, 2], [4, 5]] := by decide +kernel

end Sky.Infer
