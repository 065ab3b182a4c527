import Sky.Model.Decisions
import Sky.Verification.Migrate.Answers
import Sky.Verification.Migrate.Diff

/-! # What the ops of one table do to its data -/

namespace Sky.Migrate

open Library

variable {D : Type*} {fill : D} {s s' s'' : Option (TableData D)} {t : TableData D}
  {table column : String} {ops ops' : List MigOp} {op : MigOp}

/-- The ops apply one after another. -/
def Leads (fill : D) (s : Option (TableData D)) (ops : List MigOp) (s' : Option (TableData D)) :
    Prop := ops.foldlM (TableData.apply fill) s = some s'

theorem Leads.nil (s : Option (TableData D)) : Leads fill s [] s := rfl

theorem leads_cons : Leads fill s (op :: ops) s'' ↔
    ∃ s', TableData.apply fill s op = some s' ∧ Leads fill s' ops s'' := by
  rw [Leads, List.foldlM_cons, Option.bind_eq_bind, Option.bind_eq_some_iff]
  rfl

theorem leads_append : Leads fill s (ops ++ ops') s'' ↔
    ∃ s', Leads fill s ops s' ∧ Leads fill s' ops' s'' := by
  rw [Leads, List.foldlM_append, Option.bind_eq_bind, Option.bind_eq_some_iff]
  rfl

theorem Leads.unique (h : Leads fill s ops s') (h' : Leads fill s ops s'') : s' = s'' :=
  Option.some.inj (h.symm.trans h')

@[simp] theorem TableData.apply_shape (s : Option (TableData D)) (op : MigOp) :
    TableData.apply fill s op.shape = TableData.apply fill s op := by
  cases op <;> cases s <;> rfl

theorem leads_shape : Leads fill s (ops.map MigOp.shape) s' ↔ Leads fill s ops s' := by
  rw [Leads, Leads, List.foldlM_map]
  simp only [TableData.apply_shape]

@[simp] theorem MigOp.on_shape (op : MigOp) : op.shape.on = op.on := by
  cases op <;> rfl

/-! ## Ops that leave the data alone -/

theorem leads_of_apply_self (h : ∀ op ∈ ops, TableData.apply fill s op = some s) :
    Leads fill s ops s := by
  induction ops with
  | nil => exact .nil s
  | cons op ops ih =>
      exact leads_cons.2 ⟨s, h op (.head _), ih fun op hop => h op (.tail _ hop)⟩

/-! ## Added columns -/

/-- The ops of added columns but for those in `gone`, which have no index of their own. -/
theorem leads_adds {l : List SchemaColumn} (fill : D) (table : String) (gone : String → Bool)
    (hnodup : (l.map SchemaColumn.name).Nodup) (habsent : ∀ c ∈ l, t c.name = none)
    (hgone : ∀ c ∈ l, gone c.name = true → c.unique = false) :
    ∃ t', Leads fill (some t) (((l.flatMap (addColumnOps table)).map MigOp.shape).filter fun op =>
        !(op.added? table).any gone) (some t') ∧
      (∀ c ∈ l, gone c.name = false → t' c.name = some (c.kind, fill)) ∧
      ∀ n, (∀ c ∈ l, c.name = n → gone n = true) → t' n = t n := by
  induction l generalizing t with
  | nil => exact ⟨t, .nil _, by simp, fun _ _ => rfl⟩
  | cons c l ih =>
      rw [List.map_cons, List.nodup_cons] at hnodup
      have hne : ∀ d ∈ l, d.name ≠ c.name := fun d hd heq => hnodup.1 (heq ▸ List.mem_map_of_mem hd)
      by_cases hc : gone c.name = true
      · obtain ⟨t', hrun, hadded, hkept⟩ := ih hnodup.2 (fun d hd => habsent d (.tail _ hd))
          fun d hd => hgone d (.tail _ hd)
        refine ⟨t', ?_, ?_, fun n hn => hkept n fun d hd => hn d (.tail _ hd)⟩
        · have hnone : ((addColumnOps table c).map MigOp.shape).filter
              (fun op => !(op.added? table).any gone) = [] := by
            simp [addColumnOps, hgone c (.head _) hc, MigOp.shape, MigOp.added?, hc]
          rw [List.flatMap_cons, List.map_append, List.filter_append, hnone]
          exact hrun
        · intro d hd hd'
          rcases List.mem_cons.1 hd with rfl | hd
          · simp [hc] at hd'
          · exact hadded d hd hd'
      · have hc' : gone c.name = false := by simpa using hc
        obtain ⟨t', hrun, hadded, hkept⟩ := ih (t := Function.update t c.name (some (c.kind, fill)))
          hnodup.2 (fun d hd => by
            rw [Function.update_of_ne (hne d hd)]
            exact habsent d (.tail _ hd)) fun d hd => hgone d (.tail _ hd)
        refine ⟨t', ?_, ?_, ?_⟩
        · rw [List.flatMap_cons, List.map_append, List.filter_append]
          refine leads_append.2 ⟨_, ?_, hrun⟩
          have hadd : TableData.apply fill (some t)
              (.addColumn table c.name c.kind c.nullable false none) =
                some (some (Function.update t c.name (some (c.kind, fill)))) :=
            if_pos (habsent c (.head _))
          have hfirst : (MigOp.shape (.addColumn table c.name c.kind c.nullable false
              (addedDefault c))) = .addColumn table c.name c.kind c.nullable false none := rfl
          by_cases hunique : c.unique = true
          · simp only [addColumnOps, hunique, if_true, List.map_cons, List.map_nil, hfirst]
            rw [List.filter_cons_of_pos (by simp [MigOp.added?, hc']),
              List.filter_cons_of_pos (by simp [addIndexOp, MigOp.shape, MigOp.added?]), List.filter_nil]
            refine leads_cons.2 ⟨_, hadd, leads_cons.2 ⟨_, if_pos ?_, .nil _⟩⟩
            intro n hn
            obtain rfl := List.mem_singleton.1 hn
            simp
          · simp only [addColumnOps, hunique, List.map_cons, hfirst]
            rw [List.filter_cons_of_pos (by simp [MigOp.added?, hc'])]
            exact leads_cons.2 ⟨_, hadd, .nil _⟩
        · intro d hd hd'
          rcases List.mem_cons.1 hd with rfl | hd
          · rw [hkept d.name fun e he heq => absurd heq (hne e he), Function.update_self]
          · exact hadded d hd hd'
        · intro n hn
          have hnc : n ≠ c.name := by
            rintro rfl
            exact hc (hn c (.head _) rfl)
          rw [hkept n fun d hd => hn d (.tail _ hd), Function.update_of_ne hnc]

/-! ## Moves -/

/-- The column that a rename or a drop takes away. -/
def MigOp.leaves? : MigOp → Option String
  | .renameColumn _ source _ => some source
  | .dropColumn _ column => some column
  | _ => none

/-- The column that a rename makes. -/
def MigOp.makes? : MigOp → Option String
  | .renameColumn _ _ target => some target
  | _ => none

/-- Renames and drops of distinct columns that are there, to distinct columns that are not. -/
structure Movable (t : TableData D) (ops : List MigOp) : Prop where
  moves : ∀ op ∈ ops, op.leaves?.isSome = true
  leaves : (ops.filterMap MigOp.leaves?).Nodup
  present : ∀ n ∈ ops.filterMap MigOp.leaves?, t n ≠ none
  makes : (ops.filterMap MigOp.makes?).Nodup
  absent : ∀ n ∈ ops.filterMap MigOp.makes?, t n = none

/-- What moves lead to. -/
structure Moved (t : TableData D) (ops : List MigOp) (t' : TableData D) : Prop where
  left : ∀ n ∈ ops.filterMap MigOp.leaves?, t' n = none
  made : ∀ table source target, .renameColumn table source target ∈ ops → t' target = t source
  kept : ∀ n, n ∉ ops.filterMap MigOp.leaves? → n ∉ ops.filterMap MigOp.makes? → t' n = t n

theorem mem_filterMap_tail {f : MigOp → Option String} {n : String} (h : n ∈ ops.filterMap f) :
    n ∈ (op :: ops).filterMap f := by
  rw [List.filterMap_cons]
  cases f op with
  | none => exact h
  | some m => exact .tail _ h

theorem nodup_filterMap_cons {f : MigOp → Option String} (h : ((op :: ops).filterMap f).Nodup) :
    (ops.filterMap f).Nodup ∧ ∀ n, f op = some n → n ∉ ops.filterMap f := by
  rw [List.filterMap_cons] at h
  cases hop : f op with
  | none => exact ⟨by simpa [hop] using h, by simp⟩
  | some m =>
      rw [hop] at h
      obtain ⟨hmem, hnodup⟩ := List.nodup_cons.1 h
      exact ⟨hnodup, fun n hn => by rwa [← Option.some.inj hn]⟩

theorem Movable.head_leaves (h : Movable t (op :: ops)) {n : String} (hn : op.leaves? = some n) :
    t n ≠ none ∧ n ∉ ops.filterMap MigOp.leaves? ∧ n ∉ ops.filterMap MigOp.makes? := by
  have hpresent : t n ≠ none := h.present n (List.mem_filterMap.2 ⟨op, .head _, hn⟩)
  exact ⟨hpresent, (nodup_filterMap_cons h.leaves).2 n hn,
    fun hmem => hpresent (h.absent n (mem_filterMap_tail hmem))⟩

theorem Movable.head_makes (h : Movable t (op :: ops)) {n : String} (hn : op.makes? = some n) :
    t n = none ∧ n ∉ ops.filterMap MigOp.leaves? ∧ n ∉ ops.filterMap MigOp.makes? := by
  have habsent : t n = none := h.absent n (List.mem_filterMap.2 ⟨op, .head _, hn⟩)
  exact ⟨habsent, fun hmem => h.present n (mem_filterMap_tail hmem) habsent,
    (nodup_filterMap_cons h.makes).2 n hn⟩

/-- The moves after one that changes no more than its own columns. -/
theorem Movable.tail (h : Movable t (op :: ops)) {t₁ : TableData D}
    (ht₁ : ∀ n, op.leaves? ≠ some n → op.makes? ≠ some n → t₁ n = t n) : Movable t₁ ops where
  moves := fun op hop => h.moves op (.tail _ hop)
  leaves := (nodup_filterMap_cons h.leaves).1
  makes := (nodup_filterMap_cons h.makes).1
  present := by
    intro n hn
    rw [ht₁ n (fun heq => (h.head_leaves heq).2.1 hn) fun heq => (h.head_makes heq).2.1 hn]
    exact h.present n (mem_filterMap_tail hn)
  absent := by
    intro n hn
    rw [ht₁ n (fun heq => (h.head_leaves heq).2.2 hn) fun heq => (h.head_makes heq).2.2 hn]
    exact h.absent n (mem_filterMap_tail hn)

/-- A move before others. -/
theorem Moved.cons (h : Movable t (op :: ops)) {t₁ t' : TableData D}
    (ht₁ : ∀ n, op.leaves? ≠ some n → op.makes? ≠ some n → t₁ n = t n)
    (hleft : ∀ n, op.leaves? = some n → t₁ n = none)
    (hmade : ∀ table source target, .renameColumn table source target = op → t₁ target = t source)
    (hmoved : Moved t₁ ops t') : Moved t (op :: ops) t' := by
  constructor
  · intro n hn
    obtain ⟨o, ho, hleaves⟩ := List.mem_filterMap.1 hn
    rcases List.mem_cons.1 ho with rfl | ho
    · obtain ⟨_, hnot, hnot'⟩ := h.head_leaves hleaves
      exact (hmoved.kept n hnot hnot').trans (hleft n hleaves)
    · exact hmoved.left n (List.mem_filterMap.2 ⟨o, ho, hleaves⟩)
  · intro table source target ho
    rcases List.mem_cons.1 ho with rfl | ho
    · obtain ⟨_, hnot, hnot'⟩ := h.head_makes (n := target) rfl
      exact (hmoved.kept target hnot hnot').trans (hmade table source target rfl)
    · have hsource : source ∈ ops.filterMap MigOp.leaves? := List.mem_filterMap.2 ⟨_, ho, rfl⟩
      rw [hmoved.made table source target ho]
      exact ht₁ source (fun heq => (h.head_leaves heq).2.1 hsource)
        fun heq => (h.head_makes heq).2.1 hsource
  · intro n hn hn'
    have hop : op.leaves? ≠ some n := fun heq => hn (List.mem_filterMap.2 ⟨op, .head _, heq⟩)
    have hop' : op.makes? ≠ some n := fun heq => hn' (List.mem_filterMap.2 ⟨op, .head _, heq⟩)
    exact (hmoved.kept n (fun hmem => hn (mem_filterMap_tail hmem))
      fun hmem => hn' (mem_filterMap_tail hmem)).trans (ht₁ n hop hop')

theorem leads_moves (fill : D) (h : Movable t ops) :
    ∃ t', Leads fill (some t) ops (some t') ∧ Moved t ops t' := by
  induction ops generalizing t with
  | nil => exact ⟨t, .nil _, by simp, by simp, fun _ _ _ => rfl⟩
  | cons op ops ih =>
      have hop := h.moves op (.head _)
      cases op with
      | renameColumn table source target =>
          obtain ⟨hpresent, -, -⟩ := h.head_leaves (n := source) rfl
          obtain ⟨habsent, -, -⟩ := h.head_makes (n := target) rfl
          obtain ⟨v, hv⟩ := Option.ne_none_iff_exists'.1 hpresent
          have hne : source ≠ target := by
            rintro rfl
            exact hpresent habsent
          have hother : ∀ n, some source ≠ some n → some target ≠ some n →
              Function.update (Function.update t source none) target (some v) n = t n := by
            intro n hs ht
            rw [Function.update_of_ne fun heq => ht (congrArg some heq.symm),
              Function.update_of_ne fun heq => hs (congrArg some heq.symm)]
          obtain ⟨t', hrun, hmoved⟩ := ih (h.tail hother)
          refine ⟨t', leads_cons.2 ⟨_, ?_, hrun⟩, .cons h hother ?_ ?_ hmoved⟩
          · simp [TableData.apply, habsent, hv]
          · intro n hn
            obtain rfl := Option.some.inj hn
            rw [Function.update_of_ne hne, Function.update_self]
          · intro _ _ _ heq
            obtain ⟨-, rfl, rfl⟩ := MigOp.renameColumn.inj heq
            rw [Function.update_self, hv]
      | dropColumn table column =>
          obtain ⟨hpresent, -, -⟩ := h.head_leaves (n := column) rfl
          obtain ⟨v, hv⟩ := Option.ne_none_iff_exists'.1 hpresent
          have hother : ∀ n, some column ≠ some n → (none : Option String) ≠ some n →
              Function.update t column none n = t n := by
            intro n hs _
            rw [Function.update_of_ne fun heq => hs (congrArg some heq.symm)]
          obtain ⟨t', hrun, hmoved⟩ := ih (h.tail hother)
          refine ⟨t', leads_cons.2 ⟨_, ?_, hrun⟩, .cons h hother ?_ ?_ hmoved⟩
          · simp [TableData.apply, hv]
          · intro n hn
            obtain rfl := Option.some.inj hn
            exact Function.update_self ..
          · intro _ _ _ heq
            cases heq
      | _ => cases hop

/-! ## Retyped columns -/

theorem leads_retypes {l : List SchemaColumn} (fill : D) (table : String)
    (hnodup : (l.map SchemaColumn.name).Nodup)
    (hpresent : ∀ c ∈ l, t c.name ≠ none) :
    ∃ t', Leads fill (some t) (l.map fun c => .alterColumnType table c.name c.kind) (some t') ∧
      (∀ c ∈ l, t' c.name = (t c.name).map fun v => (c.kind, v.2)) ∧
      ∀ n, n ∉ l.map SchemaColumn.name → t' n = t n := by
  induction l generalizing t with
  | nil => exact ⟨t, .nil _, by simp, fun _ _ => rfl⟩
  | cons c l ih =>
      rw [List.map_cons, List.nodup_cons] at hnodup
      have hne : ∀ d ∈ l, d.name ≠ c.name := fun d hd heq => hnodup.1 (heq ▸ List.mem_map_of_mem hd)
      obtain ⟨v, hv⟩ := Option.ne_none_iff_exists'.1 (hpresent c (.head _))
      obtain ⟨t', hrun, hretyped, hkept⟩ := ih (t := Function.update t c.name (some (c.kind, v.2)))
        hnodup.2 fun d hd => by
          rw [Function.update_of_ne (hne d hd)]
          exact hpresent d (.tail _ hd)
      refine ⟨t', leads_cons.2 ⟨_, by simp [TableData.apply, hv], hrun⟩, ?_, ?_⟩
      · intro d hd
        rcases List.mem_cons.1 hd with rfl | hd
        · rw [hkept d.name hnodup.1, Function.update_self, hv]
          rfl
        · rw [hretyped d hd, Function.update_of_ne (hne d hd)]
      · intro n hn
        rw [List.map_cons, List.mem_cons, not_or] at hn
        rw [hkept n hn.2, Function.update_of_ne hn.1]

end Sky.Migrate
