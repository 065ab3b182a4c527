import Sky.Verification.Migrate.Moves
import Sky.Verification.Migrate.Reach

/-! # Answers keep a migration applicable

Table by table, the ops of an answered diff are those of the diff, its moves, and the quarantined ones
that are left. -/

namespace Sky.Migrate

open Library

variable {target snapshot : Schema} {d : Diff} {as : List Answer} {t prev : SchemaTable}
  {table : String} {op : MigOp}

/-! ## The ops of one table -/

theorem flatMap_on {l : List SchemaTable} {f : SchemaTable → List MigOp}
    (hnodup : (l.map SchemaTable.name).Nodup) (hon : ∀ t ∈ l, ∀ op ∈ f t, op.on = t.name) :
    (l.flatMap f).filter (fun op => op.on = table) =
      ((l.find? fun t => t.name = table).map f).getD [] := by
  induction l with
  | nil => rfl
  | cons t l ih =>
      rw [List.map_cons, List.nodup_cons] at hnodup
      have hrest := ih hnodup.2 fun u hu => hon u (.tail _ hu)
      rw [List.flatMap_cons, List.filter_append, hrest]
      by_cases hname : t.name = table
      · have hself : (f t).filter (fun op => op.on = table) = f t :=
          List.filter_eq_self.2 fun op hop => by simp [hon t (.head _) op hop, hname]
        have hnone : l.find? (fun u => u.name = table) = none := by
          refine List.find?_eq_none.2 fun u hu => ?_
          simp only [decide_eq_true_eq]
          rintro rfl
          exact hnodup.1 (hname ▸ List.mem_map_of_mem hu)
        rw [hself, hnone, List.find?_cons_of_pos (by simpa using hname)]
        simp
      · have hother : (f t).filter (fun op => op.on = table) = [] :=
          List.filter_eq_nil_iff.2 fun op hop => by simp [hon t (.head _) op hop, hname]
        rw [hother, List.find?_cons_of_neg (by simpa using hname)]
        rfl

theorem addColumnOps_on {c : SchemaColumn} (hop : op ∈ addColumnOps table c) : op.on = table := by
  rw [addColumnOps] at hop
  rcases List.mem_cons.1 hop with rfl | hop
  · rfl
  · split at hop
    · obtain rfl := List.mem_singleton.1 hop
      rfl
    · cases hop

theorem changedColumn_on {c : SchemaColumn} (hop : op ∈ (changedColumn t prev c).ops ∨
    op ∈ (changedColumn t prev c).destructive) : op.on = t.name := by
  unfold changedColumn at hop
  split at hop
  · rcases hop with hop | hop
    · exact addColumnOps_on hop
    · cases hop
  · split at hop
    · simp at hop
    · simp only [List.not_mem_nil, List.mem_singleton, false_or] at hop
      rw [hop]
      rfl

theorem diffTable_on (hop : op ∈ (diffTable snapshot t).ops ∨ op ∈ (diffTable snapshot t).destructive) :
    op.on = t.name := by
  unfold diffTable at hop
  split at hop
  · simp only [newTable, List.mem_cons, List.mem_map, List.not_mem_nil, or_false] at hop
    rcases hop with rfl | ⟨ix, _, rfl⟩ <;> rfl
  · simp only [changedTable, List.mem_append, List.mem_flatMap, List.mem_map] at hop
    rcases hop with (((⟨_, ⟨c, _, rfl⟩, hop⟩ | ⟨pi, _, rfl⟩) | ⟨ix, _, rfl⟩) |
      (⟨_, ⟨c, _, rfl⟩, hop⟩ | ⟨pc, _, rfl⟩))
    · exact changedColumn_on (.inl hop)
    · rfl
    · rfl
    · exact changedColumn_on (.inr hop)
    · rfl

theorem diff_ops_on (ht : target.WellFormed) (hs : snapshot.WellFormed) (table : String) :
    (diff target snapshot).ops.filter (fun op => op.on = table) =
      ((target.table table).map fun t => (diffTable snapshot t).ops).getD [] := by
  rw [diff_ops ht hs]
  exact flatMap_on ht.tables fun t _ op hop => diffTable_on (.inl hop)

theorem droppedTables_find (ht : target.table table = none) :
    (droppedTables target snapshot).find? (fun u => u.name = table) = snapshot.table table := by
  rw [droppedTables, List.find?_filter, Schema.table]
  congr 1
  funext u
  by_cases hu : u.name = table
  · simp [hu, ht]
  · simp [hu]

theorem diff_destructive_on (ht : target.WellFormed) (hs : snapshot.WellFormed) (table : String) :
    (diff target snapshot).destructive.filter (fun op => op.on = table) =
      match target.table table with
      | some t => (diffTable snapshot t).destructive
      | none => if (snapshot.table table).isSome then [.dropTable table] else [] := by
  have hdropped : ((droppedTables target snapshot).map fun pt => MigOp.dropTable pt.name) =
      (droppedTables target snapshot).flatMap fun pt => [.dropTable pt.name] :=
    List.map_eq_flatMap
  rw [diff_destructive ht hs, List.filter_append,
    flatMap_on ht.tables fun t _ op hop => diffTable_on (.inr hop), hdropped,
    flatMap_on (l := droppedTables target snapshot)
      (hs.tables.sublist (List.filter_sublist.map _)) fun t _ op hop => by
        obtain rfl := List.mem_singleton.1 hop
        rfl]
  have htable : target.tables.find? (fun t => t.name = table) = target.table table := rfl
  rw [htable]
  cases hfound : target.table table with
  | none =>
      rw [droppedTables_find hfound]
      cases hold : snapshot.table table with
      | none => rfl
      | some prev =>
          obtain rfl := (Schema.mem_of_table hold).2
          rfl
  | some t =>
      have hnone : (droppedTables target snapshot).find? (fun u => u.name = table) = none := by
        refine List.find?_eq_none.2 fun u hu => ?_
        obtain ⟨hmem, rfl⟩ := Schema.mem_of_table hfound
        simpa using (name_ne_of_dropped hmem u hu).symm
      rw [hnone]
      simp

/-! ## The moves of one table -/

/-- The moves of a table, in the order of the answers. -/
def movesOn (table : String) (as : List Answer) : List MigOp :=
  (as.filterMap Answer.move?).filter fun op => op.on = table

/-- The columns of a table among pairs of a table and a column. -/
def columnsOn (table : String) (l : List (String × String)) : List String :=
  l.filterMap fun q => if q.1 = table then some q.2 else none

theorem mem_columnsOn {l : List (String × String)} {n : String} :
    n ∈ columnsOn table l ↔ (table, n) ∈ l := by
  simp only [columnsOn, List.mem_filterMap]
  constructor
  · rintro ⟨⟨t, c⟩, hq, heq⟩
    split at heq
    · next htable =>
        obtain rfl := Option.some.inj heq
        obtain rfl : t = table := htable
        exact hq
    · cases heq
  · exact fun hq => ⟨_, hq, if_pos rfl⟩

theorem columnsOn_nodup {l : List (String × String)} (h : l.Nodup) : (columnsOn table l).Nodup := by
  refine h.filterMap fun q q' n hn hn' => ?_
  simp only [Option.mem_def, Option.ite_none_right_eq_some, Option.some.injEq] at hn hn'
  exact Prod.ext (hn.1.trans hn'.1.symm) (hn.2.trans hn'.2.symm)

theorem movesOn_cons (a : Answer) (as : List Answer) :
    movesOn table (a :: as) =
      (a.move?.toList.filter fun op => op.on = table) ++ movesOn table as := by
  rw [movesOn, List.filterMap_cons]
  cases a.move? with
  | none => rfl
  | some op => exact List.filter_append [op] (as.filterMap Answer.move?)

theorem columnsOn_filterMap_cons (f : Answer → Option (String × String)) (a : Answer)
    (as : List Answer) : columnsOn table ((a :: as).filterMap f) =
      columnsOn table (f a).toList ++ columnsOn table (as.filterMap f) := by
  rw [List.filterMap_cons]
  cases f a with
  | none => rfl
  | some q =>
      change columnsOn table ([q] ++ as.filterMap f) = _
      rw [columnsOn, List.filterMap_append]
      rfl

theorem columnsOn_singleton (t c : String) :
    columnsOn table [(t, c)] = if t = table then [c] else [] := by
  by_cases h : t = table <;> simp [columnsOn, h]

theorem movesOn_leaves (as : List Answer) :
    (movesOn table as).filterMap MigOp.leaves? = columnsOn table (as.filterMap Answer.drop?) := by
  induction as with
  | nil => rfl
  | cons a as ih =>
      rw [movesOn_cons, columnsOn_filterMap_cons, List.filterMap_append, ih]
      congr 1
      cases a with
      | rename t source target =>
          simp only [Answer.move?, Answer.drop?, Option.toList_some, columnsOn_singleton]
          by_cases heq : t = table <;> simp [heq, MigOp.on, MigOp.leaves?]
      | confirmDrop t c =>
          simp only [Answer.move?, Answer.drop?, Option.toList_some, columnsOn_singleton]
          by_cases heq : t = table <;> simp [heq, MigOp.on, MigOp.leaves?]
      | setDefault t c default => rfl

theorem movesOn_makes (as : List Answer) :
    (movesOn table as).filterMap MigOp.makes? = columnsOn table (as.filterMap Answer.target?) := by
  induction as with
  | nil => rfl
  | cons a as ih =>
      rw [movesOn_cons, columnsOn_filterMap_cons, List.filterMap_append, ih]
      congr 1
      cases a with
      | rename t source target =>
          simp only [Answer.move?, Answer.target?, Option.toList_some, columnsOn_singleton]
          by_cases heq : t = table <;> simp [heq, MigOp.on, MigOp.makes?]
      | confirmDrop t c =>
          by_cases heq : t = table <;> simp [heq, MigOp.on, MigOp.makes?, Answer.move?,
            Answer.target?, columnsOn]
      | setDefault t c default => rfl

theorem movesOn_moves (hop : op ∈ movesOn table as) : op.leaves?.isSome = true := by
  obtain ⟨a, _, hmove⟩ := List.mem_filterMap.1 (List.mem_of_mem_filter hop)
  cases a with
  | setDefault t c default => cases hmove
  | _ =>
      obtain rfl := Option.some.inj hmove
      rfl

theorem mem_movesOn {source column : String} :
    .renameColumn table source column ∈ movesOn table as ↔ .rename table source column ∈ as := by
  simp only [movesOn, List.mem_filter, List.mem_filterMap]
  constructor
  · rintro ⟨⟨a, ha, hmove⟩, _⟩
    cases a with
    | rename t f g =>
        obtain ⟨rfl, rfl, rfl⟩ := MigOp.renameColumn.inj (Option.some.inj hmove)
        exact ha
    | confirmDrop t c => cases Option.some.inj hmove
    | setDefault t c default => cases hmove
  · exact fun h => ⟨⟨_, h, rfl⟩, by simp [MigOp.on]⟩

/-! ## The ops of one table, answered -/

/-- The columns of the table that are renamed to. -/
def renamedTo (table : String) (as : List Answer) (column : String) : Bool :=
  (columnsOn table (as.filterMap Answer.target?)).contains column

theorem renamedTo_iff {column : String} :
    renamedTo table as column = true ↔ ∃ source, .rename table source column ∈ as := by
  rw [renamedTo, List.contains_iff_mem, mem_columnsOn, List.mem_filterMap]
  constructor
  · rintro ⟨a, ha, htarget⟩
    cases a with
    | rename t source target =>
        obtain ⟨rfl, rfl⟩ := Prod.mk.inj (Option.some.inj htarget)
        exact ⟨source, ha⟩
    | confirmDrop t c => cases htarget
    | setDefault t c default => cases htarget
  · rintro ⟨source, ha⟩
    exact ⟨_, ha, rfl⟩

theorem replaces_eq (hop : op.on = table) :
    (as.all fun a => !a.replaces op) = !(op.added? table).any (renamedTo table as) := by
  cases op with
  | addColumn t c type nullable unique default =>
      obtain rfl : t = table := hop
      simp only [MigOp.added?, if_true, Option.any_some]
      rw [Bool.eq_iff_iff, List.all_eq_true, Bool.not_eq_true', ← Bool.not_eq_true, renamedTo_iff]
      constructor
      · rintro hall ⟨source, ha⟩
        simpa [Answer.replaces, Answer.target?, MigOp.adds, MigOp.added?] using hall _ ha
      · intro hnone a ha
        cases a with
        | rename t' source target =>
            simp only [Answer.replaces, Answer.target?, MigOp.adds, MigOp.added?, Option.any_some,
              Bool.not_eq_true']
            refine decide_eq_false fun heq => ?_
            split at heq
            · next htable =>
                obtain rfl := Option.some.inj heq
                exact hnone ⟨source, htable ▸ ha⟩
            · cases heq
        | confirmDrop t' c' => rfl
        | setDefault t' c' default => rfl
  | _ =>
      refine List.all_eq_true.2 fun a _ => ?_
      cases a with
      | rename t' source target => rfl
      | confirmDrop t' c' => rfl
      | setDefault t' c' default => rfl

/-- The ops of a table: those of the diff but for the columns that are renamed to, and the moves. -/
theorem Resolved.ops_on {d₀ : Diff} (h : Resolved d₀ as d) (table : String) :
    (d.ops.filter fun op => op.on = table).map MigOp.shape =
      (((d₀.ops.filter fun op => op.on = table).map MigOp.shape).filter fun op =>
        !(op.added? table).any (renamedTo table as)) ++ movesOn table as := by
  have hcomm : ∀ ops : List MigOp, (ops.filter fun op => op.on = table).map MigOp.shape =
      (ops.map MigOp.shape).filter fun op => op.on = table := by
    intro ops
    rw [List.filter_map]
    congr 2
    funext op
    simp
  rw [hcomm, h.ops, List.filter_append, hcomm, List.filter_filter, List.filter_filter]
  congr 1
  refine List.filter_congr fun op _ => ?_
  by_cases hon : op.on = table
  · rw [replaces_eq hon, Bool.and_comm]
  · simp [hon]

/-! ## A table of both schemas -/

/-- The table of a snapshot's table, with some data. -/
def SchemaTable.content {D : Type*} (data : String → D) (t : SchemaTable) : TableData D :=
  fun n => (t.column n).map fun c => (c.kind, data n)

section

variable {D : Type*} {fill : D} {data : String → D} (ht : target.WellFormed)
  (hs : snapshot.WellFormed) (hfound : target.table table = some t)
  (hold : snapshot.table table = some prev) (h : Resolved (diff target snapshot) as d)

include ht hs hfound hold in
theorem changed_ops_on : (diff target snapshot).ops.filter (fun op => op.on = table) =
    (t.columns.filter fun c => (prev.column c.name).isNone).flatMap (addColumnOps table) ++
      (droppedIndexes prev t).map (fun pi => .dropIndex table pi.name) ++
      (newIndexes prev t).map (addIndexOp table) := by
  obtain ⟨hmem, rfl⟩ := Schema.mem_of_table hfound
  rw [diff_ops_on ht hs, hfound, Option.map_some, Option.getD_some, diffTable, hold]
  exact changedTable_ops (ht.own_eq hmem)

include ht hs hfound hold in
theorem changed_destructive_on :
    (diff target snapshot).destructive.filter (fun op => op.on = table) =
      ((retypedColumns prev t).map fun c => .alterColumnType table c.name c.kind) ++
        (droppedColumns prev t).map fun pc => .dropColumn table pc.name := by
  obtain ⟨hmem, rfl⟩ := Schema.mem_of_table hfound
  have hprev := (Schema.mem_of_table hold).1
  rw [diff_destructive_on ht hs, hfound]
  simp only [diffTable, hold]
  exact changedTable_destructive (ht.own_eq hmem) (hs.own_eq hprev) (hs.own prev hprev)

include ht hs hfound hold h in
/-- An answered drop is of a column that the target does not have. -/
theorem drop_old {n : String} (hn : (table, n) ∈ as.filterMap Answer.drop?) :
    (∃ pc ∈ prev.columns, pc.name = n) ∧ t.column n = none := by
  have hmem : MigOp.dropColumn table n ∈
      (diff target snapshot).destructive.filter fun op => op.on = table :=
    List.mem_filter.2 ⟨h.quarantined _ hn, by simp [MigOp.on]⟩
  rw [changed_destructive_on ht hs hfound hold] at hmem
  rcases List.mem_append.1 hmem with hmem | hmem
  · obtain ⟨c, _, heq⟩ := List.mem_map.1 hmem
    cases heq
  · obtain ⟨pc, hpc, heq⟩ := List.mem_map.1 hmem
    obtain ⟨-, rfl⟩ := MigOp.dropColumn.inj heq
    obtain ⟨hpc, hnone⟩ := List.mem_filter.1 hpc
    exact ⟨⟨pc, hpc, rfl⟩, Option.isNone_iff_eq_none.1 hnone⟩

include ht hs hfound hold h in
/-- A column that is renamed to is one that the snapshot does not have. -/
theorem target_new {n : String} (hn : renamedTo table as n = true) :
    (∃ c ∈ t.columns, c.name = n) ∧ prev.column n = none := by
  rw [renamedTo, List.contains_iff_mem, mem_columnsOn] at hn
  obtain ⟨op, hop, hadds⟩ := h.added _ hn
  have hadded : op.added? table = some n := of_decide_eq_true hadds
  have hmem : op ∈ (diff target snapshot).ops.filter fun op => op.on = table := by
    refine List.mem_filter.2 ⟨hop, ?_⟩
    cases op with
    | addColumn t' c type nullable unique default =>
        simp only [MigOp.added?] at hadded
        split at hadded
        · next heq => exact decide_eq_true heq
        · cases hadded
    | _ => cases hadded
  rw [changed_ops_on ht hs hfound hold] at hmem
  rcases List.mem_append.1 hmem with hmem | hmem
  · rcases List.mem_append.1 hmem with hmem | hmem
    · obtain ⟨c, hc, hop⟩ := List.mem_flatMap.1 hmem
      obtain ⟨hc, hnone⟩ := List.mem_filter.1 hc
      rcases List.mem_cons.1 hop with rfl | hop
      · simp only [MigOp.added?, if_true, Option.some.injEq] at hadded
        exact ⟨⟨c, hc, hadded⟩, hadded ▸ Option.isNone_iff_eq_none.1 hnone⟩
      · split at hop
        · obtain rfl := List.mem_singleton.1 hop
          cases hadded
        · cases hop
    · obtain ⟨pi, _, rfl⟩ := List.mem_map.1 hmem
      cases hadded
  · obtain ⟨ix, _, rfl⟩ := List.mem_map.1 hmem
    cases hadded

end

end Sky.Migrate
