import Sky.Verification.Migrate.Diff

/-! # A diff reaches its target -/

namespace Sky.Migrate

open Library

variable {target snapshot : Schema} {t prev : SchemaTable}

/-! ## All the ops -/

theorem diffTable_ops (ht : target.WellFormed) (hs : snapshot.WellFormed)
    (hnames : IndexNames target snapshot) :
    Run Applies (Db.ofSchema snapshot) (target.tables.flatMap fun t => (diffTable snapshot t).ops)
      (opsState snapshot target.tables) := by
  rw [← opsState_nil]
  apply Run.flatMap _ (opsState snapshot)
  intro before t after heq
  cases hold : snapshot.table t.name with
  | none =>
      simp only [diffTable, hold]
      exact newTable_ops ht hnames heq hold
  | some prev =>
      simp only [diffTable, hold]
      exact changedTable_run ht hnames heq hs hold

/-! ## The destructive ops of a table -/

/-- The columns of a table in the end. -/
def settled (snapshot : Schema) (t : SchemaTable) : Set MigColumn :=
  {d | ∃ c ∈ t.columns, d = reachedColumn snapshot t c}

theorem settled_new (hnew : snapshot.table t.name = none) : settled snapshot t = grown snapshot t := by
  simp [settled, grown, reachedColumn, hnew]

section

variable (hcolumns : (t.columns.map SchemaColumn.name).Nodup)
  (hprev : (prev.columns.map SchemaColumn.name).Nodup)
  (hold : snapshot.table t.name = some prev)

include hcolumns in
/-- A column that exists takes the kind that the target declares. -/
theorem retypeAll_created {c pc : SchemaColumn} (hc : c ∈ t.columns)
    (hpc : prev.column c.name = some pc) :
    retypeAll (retypedColumns prev t) (pc.created prev.pk) =
      { pc.created prev.pk with type := c.kind } := by
  obtain ⟨_, hname⟩ := SchemaTable.mem_of_column hpc
  by_cases hkind : pc.kind = c.kind
  · have hrest : ∀ c' ∈ retypedColumns prev t, c'.name ≠ pc.name := by
      intro c' hc' heq
      simp only [retypedColumns, List.mem_filter] at hc'
      obtain rfl : c' = c := List.inj_on_of_nodup_map hcolumns hc'.1 hc (heq.trans hname)
      simp [hpc, hkind] at hc'
    rw [retypeAll_of_forall_ne hrest, ← hkind]
    rfl
  · have hmem : c ∈ retypedColumns prev t := by simp [retypedColumns, hc, hpc, hkind]
    exact retypeAll_of_mem (hcolumns.sublist (List.filter_sublist.map _)) hmem hname.symm

theorem retypeAll_added {c : SchemaColumn} (hc : prev.column c.name = none) :
    retypeAll (retypedColumns prev t) (addedColumn c) = addedColumn c := by
  apply retypeAll_of_forall_ne
  intro c' hc' heq
  have heq : c'.name = c.name := heq
  simp [retypedColumns, heq, hc] at hc'

include hold in
theorem created_mem_grown {pc : SchemaColumn} (hpc : pc ∈ prev.columns) :
    pc.created prev.pk ∈ grown snapshot t := by
  simp only [grown, hold]
  exact .inl ⟨pc, hpc, rfl⟩

include hcolumns hprev hold in
/-- The type changes and the dropped columns take the table where it should be. -/
theorem retyped_kept :
    {d ∈ retypeAll (retypedColumns prev t) '' grown snapshot t |
      ∀ pc ∈ droppedColumns prev t, d.name ≠ pc.name} = settled snapshot t := by
  have hadded := addedColumns_eq hold
  ext d
  constructor
  · rintro ⟨⟨d, hd, rfl⟩, hstays⟩
    simp only [grown, hold, hadded] at hd
    rcases hd with ⟨pc, hpc, rfl⟩ | ⟨c, hc, rfl⟩
    · cases htarget : t.column pc.name with
      | none =>
          have hdropped : pc ∈ droppedColumns prev t := by simp [droppedColumns, hpc, htarget]
          exact absurd (retypeAll_name _ _) (hstays pc hdropped)
      | some c =>
          obtain ⟨hc, hname⟩ := SchemaTable.mem_of_column htarget
          have hcolumn : prev.column c.name = some pc := by
            rw [hname]
            exact SchemaTable.column_of_mem hprev hpc
          refine ⟨c, hc, ?_⟩
          simp only [reachedColumn, hold, hcolumn]
          exact retypeAll_created hcolumns hc hcolumn
    · rw [List.mem_filter, Option.isNone_iff_eq_none] at hc
      refine ⟨c, hc.1, ?_⟩
      simp only [reachedColumn, hold, hc.2]
      exact retypeAll_added hc.2
  · rintro ⟨c, hc, rfl⟩
    cases hcolumn : prev.column c.name with
    | none =>
        simp only [reachedColumn, hold, hcolumn]
        refine ⟨⟨addedColumn c, ?_, retypeAll_added hcolumn⟩, ?_⟩
        · simp only [grown, hold, hadded]
          exact .inr ⟨c, by simp [hc, hcolumn], rfl⟩
        · intro pc hpc
          exact (SchemaTable.column_eq_none hcolumn pc (List.mem_of_mem_filter hpc)).symm
    | some pc =>
        obtain ⟨hpc, hname⟩ := SchemaTable.mem_of_column hcolumn
        simp only [reachedColumn, hold, hcolumn]
        refine ⟨⟨_, created_mem_grown hold hpc, retypeAll_created hcolumns hc hcolumn⟩, ?_⟩
        intro pc' hpc' heq
        have heq : pc.name = pc'.name := heq
        have htarget := SchemaTable.column_of_mem hcolumns hc
        rw [← hname, heq] at htarget
        simp [droppedColumns, htarget] at hpc'

end

/-! ## All the destructive ops of tables -/

/-- Some tables have had their destructive ops. -/
def settledState (target snapshot : Schema) (l : List SchemaTable) : Db :=
  { opsState snapshot target.tables with
    columns := overlay (opsState snapshot target.tables).columns (settled snapshot) l }

theorem settledState_nil : settledState target snapshot [] = opsState snapshot target.tables := rfl

theorem settledState_concat (l : List SchemaTable) :
    (settledState target snapshot l).setColumns t.name (settled snapshot t) =
      settledState target snapshot (l ++ [t]) := by
  simp only [settledState, overlay_concat]
  rfl

theorem settledState_columns (snapshot : Schema) (ht : target.WellFormed) {before after : List SchemaTable}
    (heq : target.tables = before ++ t :: after) :
    (settledState target snapshot before).columns t.name = grown snapshot t := by
  have hbefore : ∀ u ∈ before, u.name ≠ t.name := fun u hu => name_ne_of_append ht.tables heq hu
  have hmem : t ∈ target.tables := by simp [heq]
  exact (overlay_of_forall_ne hbefore).trans (overlay_of_mem ht.tables hmem)

theorem changedTable_settles (ht : target.WellFormed) (hs : snapshot.WellFormed)
    {before after : List SchemaTable} (heq : target.tables = before ++ t :: after)
    (hold : snapshot.table t.name = some prev) :
    Run Applies (settledState target snapshot before) (changedTable t prev).destructive
      (settledState target snapshot (before ++ [t])) := by
  have hmem : t ∈ target.tables := by simp [heq]
  obtain ⟨hprev, hprevName⟩ := Schema.mem_of_table hold
  have hcolumns := settledState_columns snapshot ht heq
  have htable : t.name ∈ (settledState target snapshot before).tables :=
    .inl ⟨prev, hprev, hprevName⟩
  have hhas : ∀ pc ∈ prev.columns, (settledState target snapshot before).HasColumn t.name pc.name := by
    intro pc hpc
    refine ⟨pc.created prev.pk, ?_, rfl⟩
    rw [hcolumns]
    exact created_mem_grown hold hpc
  have hretype := retypeColumns (settledState target snapshot before) t.name (retypedColumns prev t)
    htable (by
      intro c hc
      simp only [retypedColumns, List.mem_filter, Option.any_eq_true] at hc
      obtain ⟨_, pc, hpc, _⟩ := hc
      obtain ⟨hpc, hname⟩ := SchemaTable.mem_of_column hpc
      exact hname ▸ hhas pc hpc)
  rw [hcolumns] at hretype
  have hdrop := dropColumns
    ((settledState target snapshot before).setColumns t.name
      (retypeAll (retypedColumns prev t) '' grown snapshot t))
    t.name (droppedColumns prev t) htable
    ((hs.columns prev hprev).sublist (List.filter_sublist.map _)) (by
      intro pc hpc
      have hpc : pc ∈ prev.columns := List.mem_of_mem_filter hpc
      refine ⟨retypeAll (retypedColumns prev t) (pc.created prev.pk), ?_, retypeAll_name ..⟩
      rw [Db.setColumns_self]
      exact ⟨_, created_mem_grown hold hpc, rfl⟩)
  rw [Db.setColumns_self, Db.setColumns_setColumns,
    retyped_kept (ht.columns t hmem) (hs.columns prev hprev) hold, settledState_concat] at hdrop
  rw [changedTable_destructive (ht.own_eq hmem) (hs.own_eq hprev) (hs.own prev hprev)]
  exact hretype.append hdrop

theorem diffTable_settles (ht : target.WellFormed) (hs : snapshot.WellFormed) :
    Run Applies (opsState snapshot target.tables)
      (target.tables.flatMap fun t => (diffTable snapshot t).destructive)
      (settledState target snapshot target.tables) := by
  rw [← settledState_nil]
  apply Run.flatMap _ (settledState target snapshot)
  intro before t after heq
  cases hold : snapshot.table t.name with
  | none =>
      have hsame := settledState_columns snapshot ht heq
      rw [← settled_new hold] at hsame
      rw [← settledState_concat, Db.setColumns_eq _ hsame]
      simp only [diffTable, hold]
      exact .nil _
  | some prev =>
      simp only [diffTable, hold]
      exact changedTable_settles ht hs heq hold

/-! ## The dropped tables -/

/-- The tables that the target does not have. -/
def droppedTables (target snapshot : Schema) : List SchemaTable :=
  snapshot.tables.filter fun pt => (target.table pt.name).isNone

theorem name_ne_of_dropped (hmem : t ∈ target.tables) :
    ∀ u ∈ droppedTables target snapshot, t.name ≠ u.name := by
  intro u hu
  simp only [droppedTables, List.mem_filter, Option.isNone_iff_eq_none] at hu
  exact Schema.table_eq_none hu.2 t hmem

/-- A table of the snapshot is dropped or one of the target's. -/
theorem dropped_or_mem (target : Schema) {u : SchemaTable} (hu : u ∈ snapshot.tables) :
    u ∈ droppedTables target snapshot ∨ ∃ t ∈ target.tables, t.name = u.name := by
  cases htarget : target.table u.name with
  | none => exact .inl (by simp [droppedTables, hu, htarget])
  | some t => exact .inr ⟨t, Schema.mem_of_table htarget⟩

theorem settledState_without (ht : target.WellFormed) :
    (settledState target snapshot target.tables).without (droppedTables target snapshot) =
      Db.reached target snapshot := by
  apply Db.ext
  · ext n
    constructor
    · rintro ⟨⟨u, hu, rfl⟩ | htarget, hstays⟩
      · rcases dropped_or_mem target hu with hdropped | htarget
        · exact absurd rfl (hstays u hdropped)
        · exact htarget
      · exact htarget
    · rintro ⟨t, hmem, rfl⟩
      exact ⟨.inr ⟨t, hmem, rfl⟩, name_ne_of_dropped hmem⟩
  · funext n
    ext d
    constructor
    · rintro ⟨hd, hstays⟩
      by_cases htarget : ∃ t ∈ target.tables, t.name = n
      · obtain ⟨t, hmem, rfl⟩ := htarget
        have hd : d ∈ overlay _ (settled snapshot) target.tables t.name := hd
        rw [overlay_of_mem ht.tables hmem] at hd
        exact ⟨t, hmem, rfl, hd⟩
      · have hne : ∀ t ∈ target.tables, t.name ≠ n := fun t hmem heq => htarget ⟨t, hmem, heq⟩
        have horig : d ∈ (Db.ofSchema snapshot).columns n := by
          have hd : d ∈ overlay _ (settled snapshot) target.tables n := hd
          rw [overlay_of_forall_ne hne] at hd
          have hd : d ∈ overlay _ (grown snapshot) target.tables n := hd
          rwa [overlay_of_forall_ne hne] at hd
        obtain ⟨u, hu, rfl, _⟩ := horig
        rcases dropped_or_mem target hu with hdropped | htarget'
        · exact absurd rfl (hstays u hdropped)
        · exact absurd htarget' htarget
    · rintro ⟨t, hmem, rfl, hd⟩
      refine ⟨?_, name_ne_of_dropped hmem⟩
      change d ∈ overlay _ (settled snapshot) target.tables t.name
      rwa [overlay_of_mem ht.tables hmem]
  · ext e
    constructor
    · rintro ⟨⟨⟨u, hu, ix, hix, rfl⟩, hkept⟩ | hentries, hstays⟩
      · rcases dropped_or_mem target hu with hdropped | ⟨t, hmem, hname⟩
        · exact absurd rfl (hstays u hdropped)
        · have hix := hkept t hmem hname
          exact ⟨t, hmem, ix, List.mem_append_right _ hix, by rw [hname]⟩
      · exact hentries
    · rintro ⟨t, hmem, ix, hix, rfl⟩
      exact ⟨.inr ⟨t, hmem, ix, hix, rfl⟩, name_ne_of_dropped hmem⟩

/-! ## The whole migration -/

theorem diff_ops (ht : target.WellFormed) (hs : snapshot.WellFormed) :
    (diff target snapshot).ops = target.tables.flatMap fun t => (diffTable snapshot t).ops := by
  simp only [diff, ht.appOnly, hs.appOnly, List.flatMap_map]

theorem diff_destructive (ht : target.WellFormed) (hs : snapshot.WellFormed) :
    (diff target snapshot).destructive =
      (target.tables.flatMap fun t => (diffTable snapshot t).destructive) ++
        (droppedTables target snapshot).map fun pt => .dropTable pt.name := by
  simp only [diff, ht.appOnly, hs.appOnly, List.flatMap_map]
  rfl

/-- Applied in order to the snapshot's database, the ops and then the destructive ones are always
allowed. A column that existed keeps everything but its kind. -/
theorem diff_reaches (ht : target.WellFormed) (hs : snapshot.WellFormed)
    (hnames : IndexNames target snapshot) :
    Run Applies (Db.ofSchema snapshot)
      ((diff target snapshot).ops ++ (diff target snapshot).destructive)
      (Db.reached target snapshot) := by
  rw [diff_ops ht hs, diff_destructive ht hs]
  have hdrop := dropTables (settledState target snapshot target.tables)
    (droppedTables target snapshot) (hs.tables.sublist (List.filter_sublist.map _)) (by
      intro u hu
      exact .inl ⟨u, List.mem_of_mem_filter hu, rfl⟩)
  rw [settledState_without ht] at hdrop
  exact (diffTable_ops ht hs hnames).append ((diffTable_settles ht hs).append hdrop)

/-! ## An example -/

def notes (kind : String) (nullable : Bool) (title : List SchemaColumn) : SchemaTable where
  name := "notes"
  pk := "id"
  columns := { name := "id", kind := "int" } :: { name := "body", kind := kind, nullable := nullable } :: title
  indexes := [{ name := "ix_notes_body", columns := ["body"] }]

/-- A column is added and one retyped, and a table is dropped. -/
theorem notes_reaches :
    Run Applies (Db.ofSchema ⟨[notes "text" false [], { name := "tags" }]⟩)
      ((diff ⟨[notes "blob" false [{ name := "title", kind := "text" }]]⟩
          ⟨[notes "text" false [], { name := "tags" }]⟩).ops ++
        (diff ⟨[notes "blob" false [{ name := "title", kind := "text" }]]⟩
          ⟨[notes "text" false [], { name := "tags" }]⟩).destructive)
      (Db.reached ⟨[notes "blob" false [{ name := "title", kind := "text" }]]⟩
        ⟨[notes "text" false [], { name := "tags" }]⟩) :=
  diff_reaches ⟨by decide, by decide, by decide, by decide, by decide⟩
    ⟨by decide, by decide, by decide, by decide, by decide⟩
    ⟨by decide, by decide, by decide, by decide⟩

/-- A column that becomes nullable gives no op, and stays NOT NULL. -/
theorem nullable_stays :
    Schema.WellFormed ⟨[notes "text" true []]⟩ ∧ Schema.WellFormed ⟨[notes "text" false []]⟩ ∧
      IndexNames ⟨[notes "text" true []]⟩ ⟨[notes "text" false []]⟩ ∧
      ∀ db, Run Applies (Db.ofSchema ⟨[notes "text" false []]⟩)
          ((diff ⟨[notes "text" true []]⟩ ⟨[notes "text" false []]⟩).ops ++
            (diff ⟨[notes "text" true []]⟩ ⟨[notes "text" false []]⟩).destructive) db →
        db.columns "notes" ≠ (Db.ofSchema ⟨[notes "text" true []]⟩).columns "notes" := by
  refine ⟨⟨by decide, by decide, by decide, by decide, by decide⟩,
    ⟨by decide, by decide, by decide, by decide, by decide⟩,
    ⟨by decide, by decide, by decide, by decide⟩, ?_⟩
  intro db hrun heq
  have hnone : (diff ⟨[notes "text" true []]⟩ ⟨[notes "text" false []]⟩).ops ++
      (diff ⟨[notes "text" true []]⟩ ⟨[notes "text" false []]⟩).destructive = [] := by decide
  rw [hnone] at hrun
  cases hrun
  have hmem : { name := "body", type := "text", nullable := true } ∈
      (Db.ofSchema ⟨[notes "text" true []]⟩).columns "notes" :=
    ⟨_, .head _, rfl, { name := "body", kind := "text", nullable := true }, by decide, by decide⟩
  rw [← heq] at hmem
  obtain ⟨t, ht, _, c, hc, hsame⟩ := hmem
  obtain rfl := List.mem_singleton.1 ht
  have hnot : ∀ c ∈ (notes "text" false []).columns, c.nullable = false := by decide
  have hnullable : true = c.nullable := congrArg MigColumn.nullable hsame
  simp [hnot c hc] at hnullable

end Sky.Migrate
