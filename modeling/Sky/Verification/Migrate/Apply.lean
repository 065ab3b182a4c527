import Sky.Library.Run
import Sky.Model.Database

/-! # What lists of ops do to a database -/

namespace Sky.Migrate

open Library

variable {db : Db} {table : String}

/-- Elements before one another in a list with distinct names. -/
theorem name_ne_of_append {α β : Type*} {f : α → β} {l before after : List α} {a b : α}
    (hnodup : (l.map f).Nodup) (hl : l = before ++ a :: after) (hb : b ∈ before) : f b ≠ f a := by
  rw [hl, List.map_append, List.nodup_append] at hnodup
  exact hnodup.2.2 _ (List.mem_map_of_mem hb) _ (List.mem_map_of_mem (.head _))

/-! ## Tables -/

/-- What was there before, but for the tables of the list. -/
def overlay {β : Type*} (orig : String → β) (f : SchemaTable → β) (l : List SchemaTable) :
    String → β :=
  l.foldl (fun g t => Function.update g t.name (f t)) orig

section

variable {β : Type*} {orig : String → β} {f : SchemaTable → β} {l : List SchemaTable}

theorem overlay_concat (t : SchemaTable) :
    overlay orig f (l ++ [t]) = Function.update (overlay orig f l) t.name (f t) := by
  simp [overlay]

theorem overlay_of_forall_ne {n : String} (h : ∀ t ∈ l, t.name ≠ n) : overlay orig f l n = orig n := by
  induction l using List.reverseRecOn with
  | nil => rfl
  | append_singleton l t ih =>
      rw [overlay_concat, Function.update_of_ne (h t (by simp)).symm]
      exact ih fun t ht => h t (by simp [ht])

theorem overlay_of_mem {t : SchemaTable} (hnodup : (l.map SchemaTable.name).Nodup) (ht : t ∈ l) :
    overlay orig f l t.name = f t := by
  induction l using List.reverseRecOn with
  | nil => cases ht
  | append_singleton l u ih =>
      rw [overlay_concat]
      rcases List.mem_append.1 ht with hl | hu
      · have hne : t.name ≠ u.name := name_ne_of_append hnodup rfl hl
        rw [Function.update_of_ne hne]
        rw [List.map_append, List.nodup_append] at hnodup
        exact ih hnodup.1 hl
      · obtain rfl := List.mem_singleton.1 hu
        exact Function.update_self ..

end

/-! ## Columns -/

namespace Db

@[simp] theorem setColumns_tables (columns : Set MigColumn) :
    (db.setColumns table columns).tables = db.tables := rfl

@[simp] theorem setColumns_indexes (columns : Set MigColumn) :
    (db.setColumns table columns).indexes = db.indexes := rfl

@[simp] theorem setColumns_self (columns : Set MigColumn) :
    (db.setColumns table columns).columns table = columns := Function.update_self ..

@[simp] theorem setColumns_setColumns (columns columns' : Set MigColumn) :
    (db.setColumns table columns).setColumns table columns' = db.setColumns table columns' := by
  simp [setColumns]

theorem setColumns_eq (columns : Set MigColumn) (h : db.columns table = columns) :
    db.setColumns table columns = db := by
  subst h
  simp [setColumns]

/-- The database with these indexes. -/
def setIndexes (db : Db) (indexes : Set (String × SchemaIndex)) : Db := { db with indexes := indexes }

end Db

/-- The indexes of a list, on a table. -/
def onTable (table : String) (l : List SchemaIndex) : Set (String × SchemaIndex) :=
  {e | ∃ ix ∈ l, e = (table, ix)}

theorem onTable_concat (l : List SchemaIndex) (ix : SchemaIndex) :
    onTable table (l ++ [ix]) = insert (table, ix) (onTable table l) := by
  ext e
  simp [onTable, or_and_right, exists_or, or_comm]

theorem addIndexes (db : Db) (table : String) (l : List SchemaIndex) (htable : table ∈ db.tables)
    (hcolumns : ∀ ix ∈ l, ∀ c ∈ ix.columns, db.HasColumn table c)
    (hnodup : (l.map SchemaIndex.name).Nodup) (hnew : ∀ ix ∈ l, ¬db.HasIndex ix.name) :
    Run Applies db (l.map (addIndexOp table)) (db.setIndexes (db.indexes ∪ onTable table l)) := by
  have hnil : db = db.setIndexes (db.indexes ∪ onTable table []) := by
    simp [onTable, Db.setIndexes]
  conv => arg 2; rw [hnil]
  apply Run.map _ fun l => db.setIndexes (db.indexes ∪ onTable table l)
  intro before ix after heq
  have hix : ix ∈ l := by simp [heq]
  refine ⟨⟨htable, hcolumns ix hix, ?_⟩, ?_⟩
  · rintro ⟨e, hold | ⟨jx, hjx, rfl⟩, hname⟩
    · exact hnew ix hix ⟨e, hold, hname⟩
    · exact name_ne_of_append hnodup heq hjx hname
  · simp only [addIndexOp, Db.effect, Db.setIndexes, onTable_concat, Set.union_insert]

theorem dropIndexes (db : Db) (table : String) (l : List SchemaIndex) (hnodup : (l.map SchemaIndex.name).Nodup)
    (hold : ∀ ix ∈ l, db.HasIndex ix.name) :
    Run Applies db (l.map fun ix => .dropIndex table ix.name)
      (db.setIndexes {e ∈ db.indexes | ∀ ix ∈ l, e.2.name ≠ ix.name}) := by
  have hnil : db = db.setIndexes
      {e ∈ db.indexes | ∀ ix ∈ ([] : List SchemaIndex), e.2.name ≠ ix.name} := by
    simp [Db.setIndexes]
  conv => arg 2; rw [hnil]
  apply Run.map _ fun l : List SchemaIndex =>
    db.setIndexes {e ∈ db.indexes | ∀ ix ∈ l, e.2.name ≠ ix.name}
  intro before ix after heq
  obtain ⟨e, he, hname⟩ := hold ix (by simp [heq])
  refine ⟨⟨e, ⟨he, ?_⟩, hname⟩, ?_⟩
  · intro jx hjx
    rw [hname]
    exact (name_ne_of_append hnodup heq hjx).symm
  · simp only [Db.effect, Db.setIndexes, Db.mk.injEq, true_and]
    ext e
    simp [or_imp, forall_and, and_assoc]

/-! ## Lists of columns -/

def uniques (table : String) (l : List SchemaColumn) : List SchemaIndex :=
  (l.filter (·.unique)).map fun c => uniqueIndex table c.name

theorem addColumns (db : Db) (table : String) (l : List SchemaColumn) (htable : table ∈ db.tables)
    (hnodup : (l.map SchemaColumn.name).Nodup) (hnew : ∀ c ∈ l, ¬db.HasColumn table c.name)
    (hunique : ((uniques table l).map SchemaIndex.name).Nodup)
    (hfree : ∀ ix ∈ uniques table l, ¬db.HasIndex ix.name) :
    Run Applies db (l.flatMap (addColumnOps table))
      ((db.setColumns table (db.columns table ∪ {d | ∃ c ∈ l, d = addedColumn c})).setIndexes
        (db.indexes ∪ onTable table (uniques table l))) := by
  have hnil : db = (db.setColumns table
      (db.columns table ∪ {d | ∃ c ∈ ([] : List SchemaColumn), d = addedColumn c})).setIndexes
        (db.indexes ∪ onTable table (uniques table [])) := by
    simp [onTable, uniques, Db.setIndexes, Db.setColumns]
  conv => arg 2; rw [hnil]
  apply Run.flatMap _ fun l : List SchemaColumn =>
    (db.setColumns table (db.columns table ∪ {d | ∃ c ∈ l, d = addedColumn c})).setIndexes
      (db.indexes ∪ onTable table (uniques table l))
  intro before c after heq
  have hc : c ∈ l := by simp [heq]
  have hcolumns : {d | ∃ c' ∈ before ++ [c], d = addedColumn c'} =
      insert (addedColumn c) {d | ∃ c' ∈ before, d = addedColumn c'} := by
    ext d
    simp [or_and_right, exists_or, or_comm]
  -- The new column is in the table when its index is added.
  have hadd : Applies
      ((db.setColumns table (db.columns table ∪ {d | ∃ c ∈ before, d = addedColumn c})).setIndexes
        (db.indexes ∪ onTable table (uniques table before)))
      (.addColumn table c.name c.kind c.nullable false (addedDefault c))
      ((db.setColumns table (db.columns table ∪ {d | ∃ c' ∈ before ++ [c], d = addedColumn c'})).setIndexes
        (db.indexes ∪ onTable table (uniques table before))) := by
    refine ⟨⟨htable, ?_⟩, ?_⟩
    · rintro ⟨d, hd, hname⟩
      simp only [Db.setIndexes, Db.setColumns_self] at hd
      rcases hd with hold | ⟨c', hc', rfl⟩
      · exact hnew c hc ⟨d, hold, hname⟩
      · exact name_ne_of_append hnodup heq hc' hname
    · simp only [Db.effect, Db.setIndexes, Db.setColumns, Function.update_self, Function.update_idem,
        hcolumns, Set.union_insert]
      rfl
  cases hu : c.unique with
  | false =>
      have hsame : uniques table (before ++ [c]) = uniques table before := by simp [uniques, hu]
      simp only [addColumnOps, hu, hsame]
      exact .single hadd
  | true =>
      have hmore : uniques table (before ++ [c]) =
          uniques table before ++ [uniqueIndex table c.name] := by simp [uniques, hu]
      have hindex : Applies
          ((db.setColumns table
            (db.columns table ∪ {d | ∃ c' ∈ before ++ [c], d = addedColumn c'})).setIndexes
            (db.indexes ∪ onTable table (uniques table before)))
          (addIndexOp table (uniqueIndex table c.name))
          ((db.setColumns table
            (db.columns table ∪ {d | ∃ c' ∈ before ++ [c], d = addedColumn c'})).setIndexes
            (db.indexes ∪ onTable table (uniques table (before ++ [c])))) := by
        refine ⟨⟨htable, ?_, ?_⟩, ?_⟩
        · intro col hcol
          obtain rfl := List.mem_singleton.1 hcol
          exact ⟨addedColumn c, by simp [Db.setIndexes, Db.setColumns], rfl⟩
        · rintro ⟨e, hold | ⟨ix, hix, rfl⟩, hname⟩
          · exact hfree _ (List.mem_map_of_mem (by simp [hc, hu])) ⟨e, hold, hname⟩
          · have hlist : uniques table l = uniques table before ++
                uniqueIndex table c.name :: uniques table after := by
              simp [heq, uniques, hu]
            exact name_ne_of_append hunique hlist hix hname
        · simp only [addIndexOp, Db.effect, Db.setIndexes, hmore, onTable_concat, Set.union_insert]
      simp only [addColumnOps, hu]
      exact .cons hadd (.single hindex)

/-- All the type changes of a list. -/
def retypeAll (l : List SchemaColumn) (d : MigColumn) : MigColumn :=
  l.foldl (fun d c => retype c.name c.kind d) d

theorem retype_name (column type : String) (d : MigColumn) : (retype column type d).name = d.name := by
  unfold retype
  split <;> rfl

theorem retypeAll_concat (l : List SchemaColumn) (c : SchemaColumn) (d : MigColumn) :
    retypeAll (l ++ [c]) d = retype c.name c.kind (retypeAll l d) := by
  simp [retypeAll]

theorem retypeAll_name (l : List SchemaColumn) (d : MigColumn) : (retypeAll l d).name = d.name := by
  induction l using List.reverseRecOn with
  | nil => rfl
  | append_singleton l c ih => rw [retypeAll_concat, retype_name, ih]

theorem retypeAll_of_forall_ne {l : List SchemaColumn} {d : MigColumn}
    (h : ∀ c ∈ l, c.name ≠ d.name) : retypeAll l d = d := by
  induction l using List.reverseRecOn with
  | nil => rfl
  | append_singleton l c ih =>
      rw [retypeAll_concat, ih fun c hc => h c (by simp [hc]), retype,
        if_neg (h c (by simp)).symm]

theorem retypeAll_of_mem {l : List SchemaColumn} {d : MigColumn} {c : SchemaColumn}
    (hnodup : (l.map SchemaColumn.name).Nodup) (hc : c ∈ l) (hname : c.name = d.name) :
    retypeAll l d = { d with type := c.kind } := by
  induction l using List.reverseRecOn with
  | nil => cases hc
  | append_singleton l c' ih =>
      rw [retypeAll_concat]
      rcases List.mem_append.1 hc with hl | hsame
      · have hne : c.name ≠ c'.name := name_ne_of_append hnodup rfl hl
        rw [List.map_append, List.nodup_append] at hnodup
        rw [ih hnodup.1 hl, retype, if_neg]
        exact fun heq => hne (hname.trans heq)
      · obtain rfl := List.mem_singleton.1 hsame
        have hrest : ∀ c' ∈ l, c'.name ≠ d.name := by
          intro c' hc' heq
          exact name_ne_of_append hnodup rfl hc' (heq.trans hname.symm)
        rw [retypeAll_of_forall_ne hrest, retype, if_pos hname.symm]

theorem retypeColumns (db : Db) (table : String) (l : List SchemaColumn) (htable : table ∈ db.tables)
    (hold : ∀ c ∈ l, db.HasColumn table c.name) :
    Run Applies db (l.map fun c => .alterColumnType table c.name c.kind)
      (db.setColumns table (retypeAll l '' db.columns table)) := by
  have hnil : db = db.setColumns table (retypeAll [] '' db.columns table) := by
    have hid : retypeAll [] = id := rfl
    simp [hid, Db.setColumns]
  conv => arg 2; rw [hnil]
  apply Run.map _ fun l : List SchemaColumn => db.setColumns table (retypeAll l '' db.columns table)
  intro before c after heq
  obtain ⟨d, hd, hname⟩ := hold c (by simp [heq])
  refine ⟨⟨htable, retypeAll before d, ?_, (retypeAll_name ..).trans hname⟩, ?_⟩
  · rw [Db.setColumns_self]
    exact ⟨d, hd, rfl⟩
  · have hcomp : retypeAll (before ++ [c]) = retype c.name c.kind ∘ retypeAll before :=
      funext (retypeAll_concat before c)
    simp only [Db.effect, Db.setColumns_self, Db.setColumns_setColumns, hcomp, Set.image_comp]

theorem dropColumns (db : Db) (table : String) (l : List SchemaColumn) (htable : table ∈ db.tables)
    (hnodup : (l.map SchemaColumn.name).Nodup) (hold : ∀ c ∈ l, db.HasColumn table c.name) :
    Run Applies db (l.map fun c => .dropColumn table c.name)
      (db.setColumns table {d ∈ db.columns table | ∀ c ∈ l, d.name ≠ c.name}) := by
  have hnil : db = db.setColumns table
      {d ∈ db.columns table | ∀ c ∈ ([] : List SchemaColumn), d.name ≠ c.name} := by
    simp [Db.setColumns]
  conv => arg 2; rw [hnil]
  apply Run.map _ fun l : List SchemaColumn =>
    db.setColumns table {d ∈ db.columns table | ∀ c ∈ l, d.name ≠ c.name}
  intro before c after heq
  obtain ⟨d, hd, hname⟩ := hold c (by simp [heq])
  refine ⟨⟨htable, d, ?_, hname⟩, ?_⟩
  · rw [Db.setColumns_self]
    refine ⟨hd, ?_⟩
    intro c' hc'
    rw [hname]
    exact (name_ne_of_append hnodup heq hc').symm
  · simp only [Db.effect, Db.setColumns_self, Db.setColumns_setColumns]
    congr 1
    ext d
    simp [or_imp, forall_and, and_assoc]

/-! ## Lists of tables -/

/-- The database without the tables. -/
def Db.without (db : Db) (l : List SchemaTable) : Db where
  tables := {n ∈ db.tables | ∀ t ∈ l, n ≠ t.name}
  columns n := {d ∈ db.columns n | ∀ t ∈ l, n ≠ t.name}
  indexes := {e ∈ db.indexes | ∀ t ∈ l, e.1 ≠ t.name}

theorem dropTables (db : Db) (l : List SchemaTable) (hnodup : (l.map SchemaTable.name).Nodup)
    (hold : ∀ t ∈ l, t.name ∈ db.tables) :
    Run Applies db (l.map fun t => .dropTable t.name) (db.without l) := by
  have hnil : db = db.without [] := by simp [Db.without]
  conv => arg 2; rw [hnil]
  apply Run.map _ db.without
  intro before t after heq
  refine ⟨⟨hold t (by simp [heq]), fun u hu => (name_ne_of_append hnodup heq hu).symm⟩, ?_⟩
  apply Db.ext
  · ext n
    simp only [Db.without, Db.effect, List.forall_mem_append, List.forall_mem_singleton,
      Set.mem_ofPred_eq, Set.mem_sdiff, Set.mem_singleton_iff, and_assoc, ne_eq]
  · funext n
    by_cases hn : n = t.name
    · subst hn
      simp [Db.without, Db.effect, Db.setColumns, or_imp, forall_and]
    · simp only [Db.without, Db.effect, Db.setColumns, Function.update_of_ne hn,
        List.forall_mem_append, List.forall_mem_singleton, ne_eq, hn, not_false_eq_true, and_true]
  · ext e
    simp [Db.without, Db.effect, or_imp, forall_and, and_assoc]

end Sky.Migrate
