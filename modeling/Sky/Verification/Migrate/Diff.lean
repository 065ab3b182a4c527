import Sky.Verification.Migrate.Apply

/-! # Where a diff leads -/

namespace Sky.Migrate

open Library

variable {target snapshot : Schema} {t prev : SchemaTable}

/-! ## Lists with distinct names -/

section

variable {α β γ : Type*} {l before after : List α} {a b : α}

theorem find?_name {f : α → String} (hnodup : (l.map f).Nodup) (ha : a ∈ l) :
    l.find? (fun b => f b = f a) = some a := by
  induction l with
  | nil => cases ha
  | cons b l ih =>
      rw [List.map_cons, List.nodup_cons] at hnodup
      rcases List.mem_cons.1 ha with rfl | ha
      · simp
      · have hne : f b ≠ f a := fun heq => hnodup.1 (heq ▸ List.mem_map_of_mem ha)
        rw [List.find?_cons_of_neg (by simpa using hne)]
        exact ih hnodup.2 ha

theorem flatMap_unique {f : α → List β} {g : β → γ} {x y : β}
    (hnodup : ((l.flatMap f).map g).Nodup) (ha : a ∈ l) (hb : b ∈ l) (hx : x ∈ f a) (hy : y ∈ f b)
    (heq : g x = g y) : a = b ∧ x = y := by
  have hxy : x = y := List.inj_on_of_nodup_map hnodup (List.mem_flatMap.2 ⟨a, ha, hx⟩)
    (List.mem_flatMap.2 ⟨b, hb, hy⟩) heq
  refine ⟨?_, hxy⟩
  by_contra hne
  obtain ⟨_, hdisjoint⟩ := List.nodup_flatMap.1 hnodup.of_map
  have hsymm : Std.Symm (Function.onFun List.Disjoint f) := ⟨fun _ _ h => h.symm⟩
  exact hdisjoint.forall ha hb hne hx (hxy ▸ hy)

theorem flatMap_nodup {f : α → List β} {g : β → γ} (hnodup : ((l.flatMap f).map g).Nodup)
    (ha : a ∈ l) : ((f a).map g).Nodup := by
  rw [List.map_flatMap] at hnodup
  exact (List.nodup_flatMap.1 hnodup).1 a ha

end

theorem Schema.table_of_mem (hnodup : (snapshot.tables.map SchemaTable.name).Nodup)
    (ht : prev ∈ snapshot.tables) : snapshot.table prev.name = some prev :=
  find?_name hnodup ht

theorem Schema.mem_of_table {n : String} (h : snapshot.table n = some prev) :
    prev ∈ snapshot.tables ∧ prev.name = n :=
  ⟨List.mem_of_find?_eq_some h, by simpa using List.find?_some h⟩

theorem Schema.table_eq_none {n : String} (h : snapshot.table n = none) :
    ∀ t ∈ snapshot.tables, t.name ≠ n := by
  simpa [Schema.table] using h

theorem SchemaTable.column_of_mem {c : SchemaColumn}
    (hnodup : (t.columns.map SchemaColumn.name).Nodup) (hc : c ∈ t.columns) :
    t.column c.name = some c :=
  find?_name hnodup hc

theorem SchemaTable.mem_of_column {c : SchemaColumn} {n : String} (h : t.column n = some c) :
    c ∈ t.columns ∧ c.name = n :=
  ⟨List.mem_of_find?_eq_some h, by simpa using List.find?_some h⟩

theorem SchemaTable.column_eq_none {n : String} (h : t.column n = none) :
    ∀ c ∈ t.columns, c.name ≠ n := by
  simpa [SchemaTable.column] using h

/-! ## The ops of a diff -/

theorem Schema.WellFormed.appOnly (h : target.WellFormed) : target.appOnly = target := by
  have hall : target.tables.filter (fun t => !t.reserved) = target.tables :=
    List.filter_eq_self.2 fun t ht => by simp [h.app t ht]
  simp [Schema.appOnly, hall]

theorem Schema.WellFormed.own_eq (h : target.WellFormed) (ht : t ∈ target.tables) :
    t.own = t.columns :=
  List.filter_eq_self.2 fun c hc => by simp [h.own t ht c hc]

/-- The columns whose kind changes. -/
def retypedColumns (prev t : SchemaTable) : List SchemaColumn :=
  t.columns.filter fun c => (prev.column c.name).any fun pc => pc.kind ≠ c.kind

/-- The columns that the target's table does not have. -/
def droppedColumns (prev t : SchemaTable) : List SchemaColumn :=
  prev.columns.filter fun pc => (t.column pc.name).isNone

def droppedIndexes (prev t : SchemaTable) : List SchemaIndex :=
  prev.indexes.filter fun pi => !t.indexes.contains pi

def newIndexes (prev t : SchemaTable) : List SchemaIndex :=
  t.indexes.filter fun ix => !prev.indexes.contains ix

theorem changedColumn_ops (l : List SchemaColumn) :
    (l.map (changedColumn t prev)).flatMap (·.ops) =
      (l.filter fun c => (prev.column c.name).isNone).flatMap (addColumnOps t.name) := by
  induction l with
  | nil => rfl
  | cons c l ih =>
      simp only [List.map_cons, List.flatMap_cons, ih, changedColumn]
      cases hc : prev.column c.name with
      | none => simp [hc]
      | some pc =>
          simp only [List.filter_cons, hc]
          split <;> rfl

theorem changedColumn_destructive (hexternal : ∀ pc ∈ prev.columns, pc.external = false)
    (l : List SchemaColumn) :
    (l.map (changedColumn t prev)).flatMap (·.destructive) =
      (l.filter fun c => (prev.column c.name).any fun pc => pc.kind ≠ c.kind).map fun c =>
        .alterColumnType t.name c.name c.kind := by
  induction l with
  | nil => rfl
  | cons c l ih =>
      simp only [List.map_cons, List.flatMap_cons, ih, changedColumn]
      cases hc : prev.column c.name with
      | none => simp [hc]
      | some pc =>
          have hown := hexternal pc (SchemaTable.mem_of_column hc).1
          by_cases hkind : pc.kind = c.kind <;> simp [hc, hown, hkind]

theorem changedTable_ops (hown : t.own = t.columns) :
    (changedTable t prev).ops =
      (t.columns.filter fun c => (prev.column c.name).isNone).flatMap (addColumnOps t.name) ++
        (droppedIndexes prev t).map (fun pi => .dropIndex t.name pi.name) ++
        (newIndexes prev t).map (addIndexOp t.name) := by
  simp only [changedTable, hown, changedColumn_ops]
  rfl

theorem changedTable_destructive (hown : t.own = t.columns) (hprev : prev.own = prev.columns)
    (hexternal : ∀ pc ∈ prev.columns, pc.external = false) :
    (changedTable t prev).destructive =
      ((retypedColumns prev t).map fun c => .alterColumnType t.name c.name c.kind) ++
        (droppedColumns prev t).map fun pc => .dropColumn t.name pc.name := by
  simp only [changedTable, hown, hprev, changedColumn_destructive hexternal]
  rfl

/-! ## After the ops of some tables -/

/-- The columns of a table after its ops. -/
def grown (snapshot : Schema) (t : SchemaTable) : Set MigColumn :=
  match snapshot.table t.name with
  | none => {d | ∃ c ∈ t.columns, d = c.created t.pk}
  | some prev => {d | ∃ pc ∈ prev.columns, d = pc.created prev.pk} ∪
      {d | ∃ c ∈ addedColumns snapshot t, d = addedColumn c}

/-- The indexes of the snapshot that the tables have not dropped. -/
def kept (snapshot : Schema) (l : List SchemaTable) : Set (String × SchemaIndex) :=
  {e ∈ (Db.ofSchema snapshot).indexes | ∀ t ∈ l, t.name = e.1 → e.2 ∈ t.indexes}

/-- The indexes of the tables. -/
def entries (snapshot : Schema) (l : List SchemaTable) : Set (String × SchemaIndex) :=
  {e | ∃ t ∈ l, ∃ ix ∈ uniqueIndexes snapshot t ++ t.indexes, e = (t.name, ix)}

def opsState (snapshot : Schema) (l : List SchemaTable) : Db where
  tables := {n | (∃ t ∈ snapshot.tables, t.name = n) ∨ ∃ t ∈ l, t.name = n}
  columns := overlay (Db.ofSchema snapshot).columns (grown snapshot) l
  indexes := kept snapshot l ∪ entries snapshot l

theorem opsState_nil : opsState snapshot [] = Db.ofSchema snapshot := by
  simp [opsState, kept, entries, overlay, Db.ofSchema]

theorem entries_concat (l : List SchemaTable) :
    entries snapshot (l ++ [t]) =
      entries snapshot l ∪ onTable t.name (uniqueIndexes snapshot t ++ t.indexes) := by
  ext e
  simp [entries, onTable, or_and_right, exists_or]

theorem opsState_tables_concat (l : List SchemaTable) :
    (opsState snapshot (l ++ [t])).tables = insert t.name (opsState snapshot l).tables := by
  ext n
  simp only [opsState, List.mem_append, List.mem_singleton, or_and_right, exists_or,
    exists_eq_left, Set.mem_ofPred_eq, Set.mem_insert_iff, eq_comm (a := n)]
  rw [← or_assoc, or_comm]

/-- Every index of a table is on columns that the table has after its ops. -/
theorem grown_hasColumn (snapshot : Schema) (ht : target.WellFormed) (hmem : t ∈ target.tables) {ix : SchemaIndex}
    (hix : ix ∈ t.indexes) {c : String} (hc : c ∈ ix.columns) :
    ∃ d ∈ grown snapshot t, d.name = c := by
  obtain ⟨d, hd, rfl⟩ := ht.indexed t hmem ix hix c hc
  cases hprev : snapshot.table t.name with
  | none => exact ⟨d.created t.pk, by simp only [grown, hprev]; exact ⟨d, hd, rfl⟩, rfl⟩
  | some prev =>
      cases hcolumn : prev.column d.name with
      | none =>
          refine ⟨addedColumn d, ?_, rfl⟩
          simp only [grown, hprev]
          exact .inr ⟨d, by simp [addedColumns, hprev, hd, hcolumn], rfl⟩
      | some pc =>
          obtain ⟨hpc, hname⟩ := SchemaTable.mem_of_column hcolumn
          refine ⟨pc.created prev.pk, ?_, hname⟩
          simp only [grown, hprev]
          exact .inl ⟨pc, hpc, rfl⟩

section

variable (ht : target.WellFormed) (hnames : IndexNames target snapshot)
  {before after : List SchemaTable} (heq : target.tables = before ++ t :: after)
include ht hnames heq

theorem name_ne_of_before {u : SchemaTable} (hu : u ∈ before) : u.name ≠ t.name :=
  name_ne_of_append ht.tables heq hu

/-- The indexes of two tables have different names. -/
theorem index_ne_of_before {e : String × SchemaIndex} (he : e ∈ entries snapshot before)
    {ix : SchemaIndex} (hix : ix ∈ uniqueIndexes snapshot t ++ t.indexes) : e.2.name ≠ ix.name := by
  obtain ⟨u, hu, jx, hjx, rfl⟩ := he
  intro hname
  have hsame := (flatMap_unique hnames.after (by simp [heq, hu]) (by simp [heq]) hjx hix hname).1
  exact name_ne_of_before ht hnames heq hu (congrArg SchemaTable.name hsame)

/-- The indexes of a table have different names. -/
theorem indexes_nodup : ((uniqueIndexes snapshot t ++ t.indexes).map SchemaIndex.name).Nodup :=
  flatMap_nodup (f := fun u : SchemaTable => uniqueIndexes snapshot u ++ u.indexes) hnames.after
    (by simp [heq])

/-- The ops of a table that is new. -/
theorem newTable_ops (hnew : snapshot.table t.name = none) :
    Run Applies (opsState snapshot before) (newTable t).ops (opsState snapshot (before ++ [t])) := by
  have hmem : t ∈ target.tables := by simp [heq]
  have hunique : uniqueIndexes snapshot t = [] := by simp [uniqueIndexes, addedColumns, hnew]
  have habsent := Schema.table_eq_none hnew
  have hgrown : grown snapshot t = {d | d ∈ t.columns.map (SchemaColumn.created t.pk)} := by
    ext d
    simp [grown, hnew, eq_comm]
  have hcreate : Applies (opsState snapshot before)
      (.createTable t.name (t.own.map (SchemaColumn.created t.pk)))
      { (opsState snapshot before).setColumns t.name (grown snapshot t) with
        tables := insert t.name (opsState snapshot before).tables } := by
    rw [ht.own_eq hmem]
    refine ⟨⟨?_, ?_⟩, ?_⟩
    · rintro (⟨u, hu, hname⟩ | ⟨u, hu, hname⟩)
      · exact habsent u hu hname
      · exact name_ne_of_before ht hnames heq hu hname
    · have hnodup := ht.columns t hmem
      rwa [List.map_map]
    · simp only [Db.effect, hgrown]
  refine .cons hcreate ?_
  have hlist := indexes_nodup ht hnames heq
  rw [hunique, List.nil_append] at hlist
  convert addIndexes _ t.name t.indexes ?_ ?_ hlist ?_ using 1
  · apply Db.ext
    · exact opsState_tables_concat before
    · exact overlay_concat t
    · change kept snapshot (before ++ [t]) ∪ entries snapshot (before ++ [t]) =
        kept snapshot before ∪ entries snapshot before ∪ onTable t.name t.indexes
      have hkept : kept snapshot (before ++ [t]) = kept snapshot before := by
        ext e
        simp only [kept, List.forall_mem_append, List.forall_mem_singleton, Set.mem_ofPred_eq]
        refine ⟨fun h => ⟨h.1, h.2.1⟩, fun h => ⟨h.1, h.2, ?_⟩⟩
        obtain ⟨⟨prev, hprev, pi, _, rfl⟩, _⟩ := h
        exact fun hname => absurd hname.symm (habsent prev hprev)
      rw [hkept, entries_concat, hunique, List.nil_append, Set.union_assoc]
  · exact Set.mem_insert ..
  · intro ix hix c hc
    obtain ⟨d, hd, hname⟩ := grown_hasColumn snapshot ht hmem hix hc
    exact ⟨d, by simpa [Db.setColumns] using hd, hname⟩
  · rintro ix hix ⟨e, hkept | hentries, hname⟩
    · obtain ⟨⟨prev, hprev, pi, hpi, rfl⟩, _⟩ := hkept
      exact habsent prev hprev (hnames.moved t hmem ix hix prev hprev pi hpi hname)
    · exact index_ne_of_before ht hnames heq hentries (by simp [hix]) hname

/-! ## A table that exists -/

variable (hs : snapshot.WellFormed) (hold : snapshot.table t.name = some prev)
include hs hold

/-- An index of the snapshot is known by its name. -/
theorem snapshot_index {e : String × SchemaIndex} (he : e ∈ (Db.ofSchema snapshot).indexes)
    {pi : SchemaIndex} (hpi : pi ∈ prev.indexes) (hname : e.2.name = pi.name) :
    e = (t.name, pi) := by
  obtain ⟨hprev, hprevName⟩ := Schema.mem_of_table hold
  obtain ⟨u, hu, ix, hix, rfl⟩ := he
  obtain ⟨rfl, rfl⟩ := flatMap_unique (f := SchemaTable.indexes) hnames.before hu hprev hix hpi hname
  rw [hprevName]

theorem kept_before {pi : SchemaIndex} (hpi : pi ∈ prev.indexes) :
    (t.name, pi) ∈ kept snapshot before := by
  obtain ⟨hprev, hprevName⟩ := Schema.mem_of_table hold
  refine ⟨⟨prev, hprev, pi, hpi, by rw [hprevName]⟩, ?_⟩
  intro u hu hname
  exact absurd hname (name_ne_of_before ht hnames heq hu)

/-- The indexes that are not the table's own stay when it drops some of its own. -/
theorem dropped_ne {pi : SchemaIndex} (hpi : pi ∈ prev.indexes) {e : String × SchemaIndex}
    (he : e ∈ entries snapshot before ∪ onTable t.name (uniqueIndexes snapshot t)) :
    e.2.name ≠ pi.name := by
  obtain ⟨hprev, hprevName⟩ := Schema.mem_of_table hold
  intro hname
  rcases he with ⟨u, hu, jx, hjx, rfl⟩ | ⟨jx, hjx, rfl⟩
  · have humem : u ∈ target.tables := by simp [heq, hu]
    rcases List.mem_append.1 hjx with hunique | hdeclared
    · exact hnames.unique u humem jx hunique prev hprev pi hpi hname.symm
    · have hmoved := hnames.moved u humem jx hdeclared prev hprev pi hpi hname.symm
      exact name_ne_of_before ht hnames heq hu (hmoved.symm.trans hprevName)
  · exact hnames.unique t (by simp [heq]) jx hjx prev hprev pi hpi hname.symm

/-- The indexes after the ops of the table. -/
theorem changed_indexes :
    {e ∈ kept snapshot before ∪ entries snapshot before ∪ onTable t.name (uniqueIndexes snapshot t) |
        ∀ pi ∈ droppedIndexes prev t, e.2.name ≠ pi.name} ∪ onTable t.name (newIndexes prev t) =
      kept snapshot (before ++ [t]) ∪ entries snapshot (before ++ [t]) := by
  have hdropped : ∀ pi ∈ droppedIndexes prev t, pi ∈ prev.indexes ∧ pi ∉ t.indexes := by
    intro pi hpi
    simpa [droppedIndexes] using hpi
  have hstays : ∀ e ∈ entries snapshot before ∪ onTable t.name (uniqueIndexes snapshot t),
      ∀ pi ∈ droppedIndexes prev t, e.2.name ≠ pi.name :=
    fun e he pi hpi => dropped_ne ht hnames heq hs hold (hdropped pi hpi).1 he
  rw [entries_concat]
  ext e
  constructor
  · rintro (⟨(hkept | hentries) | hunique, hne⟩ | hnew)
    · refine .inl ⟨hkept.1, ?_⟩
      simp only [List.forall_mem_append, List.forall_mem_singleton]
      refine ⟨hkept.2, ?_⟩
      intro hname
      obtain ⟨u, hu, ix, hix, rfl⟩ := hkept.1
      have husame : some u = some prev := by
        rw [← hold, hname, Schema.table_of_mem hs.tables hu]
      obtain rfl := Option.some.inj husame
      by_contra hnot
      exact hne ix (by simp [droppedIndexes, hix, hnot]) rfl
    · exact .inr (.inl hentries)
    · obtain ⟨ix, hix, rfl⟩ := hunique
      exact .inr (.inr ⟨ix, by simp [hix], rfl⟩)
    · obtain ⟨ix, hix, rfl⟩ := hnew
      have hix : ix ∈ t.indexes := List.mem_of_mem_filter hix
      exact .inr (.inr ⟨ix, by simp [hix], rfl⟩)
  · rintro (⟨hsnapshot, hkept⟩ | hentries | ⟨ix, hix, rfl⟩)
    · simp only [List.forall_mem_append, List.forall_mem_singleton] at hkept
      refine .inl ⟨.inl (.inl ⟨hsnapshot, hkept.1⟩), ?_⟩
      intro pi hpi hname
      obtain rfl := snapshot_index ht hnames heq hs hold hsnapshot (hdropped pi hpi).1 hname
      exact (hdropped pi hpi).2 (hkept.2 rfl)
    · exact .inl ⟨.inl (.inr hentries), hstays e (.inl hentries)⟩
    · rcases List.mem_append.1 hix with hunique | hdeclared
      · exact .inl ⟨.inr ⟨ix, hunique, rfl⟩, hstays _ (.inr ⟨ix, hunique, rfl⟩)⟩
      · by_cases hprevious : ix ∈ prev.indexes
        · have hbefore := kept_before ht hnames heq hs hold hprevious
          refine .inl ⟨.inl (.inl hbefore), ?_⟩
          intro pi hpi hname
          have hsame := snapshot_index ht hnames heq hs hold hbefore.1 (hdropped pi hpi).1 hname
          obtain rfl : ix = pi := congrArg Prod.snd hsame
          exact (hdropped ix hpi).2 hdeclared
        · exact .inr ⟨ix, by simp [newIndexes, hdeclared, hprevious], rfl⟩

omit ht hnames heq hs in
theorem addedColumns_eq :
    addedColumns snapshot t = t.columns.filter fun c => (prev.column c.name).isNone := by
  simp [addedColumns, hold]

/-- Before its ops the table is as the snapshot has it. -/
theorem opsState_columns :
    (opsState snapshot before).columns t.name =
      {d | ∃ pc ∈ prev.columns, d = pc.created prev.pk} := by
  obtain ⟨hprev, hprevName⟩ := Schema.mem_of_table hold
  have horig : (opsState snapshot before).columns t.name = (Db.ofSchema snapshot).columns t.name :=
    overlay_of_forall_ne fun u hu => name_ne_of_before ht hnames heq hu
  rw [horig]
  ext d
  constructor
  · rintro ⟨u, hu, hname, hd⟩
    have husame : some u = some prev := by
      rw [← hold, ← hname, Schema.table_of_mem hs.tables hu]
    obtain rfl := Option.some.inj husame
    exact hd
  · exact fun hd => ⟨prev, hprev, hprevName, hd⟩

omit ht hnames heq hs in
theorem opsState_table : t.name ∈ (opsState snapshot before).tables :=
  .inl ⟨prev, Schema.mem_of_table hold⟩

/-- The new columns are added, with the indexes of the unique ones. -/
theorem run_addColumns :
    Run Applies (opsState snapshot before) ((addedColumns snapshot t).flatMap (addColumnOps t.name))
      (((opsState snapshot before).setColumns t.name (grown snapshot t)).setIndexes
        ((opsState snapshot before).indexes ∪ onTable t.name (uniqueIndexes snapshot t))) := by
  have hmem : t ∈ target.tables := by simp [heq]
  obtain ⟨hprev, hprevName⟩ := Schema.mem_of_table hold
  have hadded := addedColumns_eq hold
  have hcolumns := opsState_columns ht hnames heq hs hold
  have hgrown : grown snapshot t = (opsState snapshot before).columns t.name ∪
      {d | ∃ c ∈ addedColumns snapshot t, d = addedColumn c} := by
    simp only [grown, hold, hcolumns]
  have hnodup := indexes_nodup ht hnames heq
  rw [List.map_append, List.nodup_append] at hnodup
  rw [hgrown]
  apply addColumns _ _ _ (opsState_table hold)
  · rw [hadded]
    exact (ht.columns t hmem).sublist (List.filter_sublist.map _)
  · rintro c hc ⟨d, hd, hname⟩
    rw [hcolumns] at hd
    obtain ⟨pc, hpc, rfl⟩ := hd
    rw [hadded, List.mem_filter, Option.isNone_iff_eq_none] at hc
    exact SchemaTable.column_eq_none hc.2 pc hpc hname
  · exact hnodup.1
  · rintro ix hix ⟨e, hkept | hentries, hname⟩
    · obtain ⟨⟨u, hu, pi, hpi, rfl⟩, _⟩ := hkept
      exact hnames.unique t hmem ix hix u hu pi hpi hname
    · exact index_ne_of_before ht hnames heq hentries (List.mem_append_left _ hix) hname

/-- The ops of a table that exists. -/
theorem changedTable_run :
    Run Applies (opsState snapshot before) (changedTable t prev).ops
      (opsState snapshot (before ++ [t])) := by
  have hmem : t ∈ target.tables := by simp [heq]
  obtain ⟨hprev, hprevName⟩ := Schema.mem_of_table hold
  have hnodup := indexes_nodup ht hnames heq
  rw [List.map_append, List.nodup_append] at hnodup
  rw [changedTable_ops (ht.own_eq hmem), ← addedColumns_eq hold]
  refine ((run_addColumns ht hnames heq hs hold).append
    (dropIndexes _ t.name (droppedIndexes prev t) ?_ ?_)).append ?_
  · exact (flatMap_nodup (f := SchemaTable.indexes) hnames.before hprev).sublist
      (List.filter_sublist.map _)
  · intro pi hpi
    have hpi : pi ∈ prev.indexes := List.mem_of_mem_filter hpi
    exact ⟨(t.name, pi), .inl (.inl (kept_before ht hnames heq hs hold hpi)), rfl⟩
  · convert addIndexes _ t.name (newIndexes prev t) ?_ ?_ ?_ ?_ using 1
    · apply Db.ext
      · rw [opsState_tables_concat]
        exact Set.insert_eq_of_mem (opsState_table hold)
      · exact overlay_concat t
      · exact (changed_indexes ht hnames heq hs hold).symm
    · exact opsState_table hold
    · intro ix hix c hc
      have hix : ix ∈ t.indexes := List.mem_of_mem_filter hix
      obtain ⟨d, hd, hname⟩ := grown_hasColumn snapshot ht hmem hix hc
      exact ⟨d, by simpa [Db.setIndexes, Db.setColumns] using hd, hname⟩
    · exact hnodup.2.1.sublist (List.filter_sublist.map _)
    · rintro ix hix ⟨e, ⟨(hkept | hentries) | hunique, hne⟩, hname⟩
      · simp only [newIndexes, List.mem_filter] at hix
        obtain ⟨⟨u, hu, pi, hpi, rfl⟩, _⟩ := hkept
        have hmoved := hnames.moved t hmem ix hix.1 u hu pi hpi hname
        have husame : some u = some prev := by
          rw [← hold, ← hmoved, Schema.table_of_mem hs.tables hu]
        obtain rfl := Option.some.inj husame
        by_cases hin : pi ∈ t.indexes
        · obtain rfl := List.inj_on_of_nodup_map hnodup.2.1 hin hix.1 hname
          simp [hpi] at hix
        · exact hne pi (by simp [droppedIndexes, hpi, hin]) rfl
      · have hix : ix ∈ t.indexes := List.mem_of_mem_filter hix
        exact index_ne_of_before ht hnames heq hentries (by simp [hix]) hname
      · obtain ⟨jx, hjx, rfl⟩ := hunique
        have hix : ix ∈ t.indexes := List.mem_of_mem_filter hix
        exact hnodup.2.2 _ (List.mem_map_of_mem hjx) _ (List.mem_map_of_mem hix) hname

end

end Sky.Migrate
