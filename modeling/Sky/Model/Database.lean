import Sky.Model.SchemaDiff

/-! # A database that migration ops are applied to

What the ops are for: a database is a set of tables, their columns and their indexes. -/

namespace Sky.Migrate

/-- `columns`: those of each table. An index comes with its table. -/
@[ext]
structure Db where
  tables : Set String
  columns : String → Set MigColumn
  indexes : Set (String × SchemaIndex)

/-- The table has a column of the name. -/
def Db.HasColumn (db : Db) (table column : String) : Prop := ∃ c ∈ db.columns table, c.name = column

/-- Some index has the name; the names are those of the whole database. -/
def Db.HasIndex (db : Db) (name : String) : Prop := ∃ e ∈ db.indexes, e.2.name = name

/-- What an op refers to exists, and what it creates does not. `renameColumn` and `raw` ops are
written by hand only. -/
def Db.Allows (db : Db) : MigOp → Prop
  | .createTable table columns => table ∉ db.tables ∧ (columns.map MigColumn.name).Nodup
  | .addColumn table column _ _ _ _ => table ∈ db.tables ∧ ¬db.HasColumn table column
  | .dropColumn table column => table ∈ db.tables ∧ db.HasColumn table column
  | .addIndex table ix =>
      table ∈ db.tables ∧ (∀ c ∈ ix.columns, db.HasColumn table c) ∧ ¬db.HasIndex ix.name
  | .dropIndex _ name => db.HasIndex name
  | .alterColumnType table column _ => table ∈ db.tables ∧ db.HasColumn table column
  | .dropTable table => table ∈ db.tables
  | .renameColumn _ _ _ | .raw _ => False

def Db.setColumns (db : Db) (table : String) (columns : Set MigColumn) : Db :=
  { db with columns := Function.update db.columns table columns }

/-- The column with its type changed, if it is the one that an op names. -/
def retype (column type : String) (c : MigColumn) : MigColumn :=
  if c.name = column then { c with type := type } else c

def Db.effect (db : Db) : MigOp → Db
  | .createTable table columns =>
      { db.setColumns table {c | c ∈ columns} with tables := insert table db.tables }
  | .addColumn table column type nullable unique default =>
      db.setColumns table <| insert
        { name := column, type := type, nullable := nullable, unique := unique, default := default }
        (db.columns table)
  | .dropColumn table column => db.setColumns table {c ∈ db.columns table | c.name ≠ column}
  | .addIndex table ix => { db with indexes := insert (table, ix) db.indexes }
  | .dropIndex _ name => { db with indexes := {e ∈ db.indexes | e.2.name ≠ name} }
  | .alterColumnType table column type =>
      db.setColumns table (retype column type '' db.columns table)
  | .dropTable table =>
      { db.setColumns table ∅ with
        tables := db.tables \ {table}
        indexes := {e ∈ db.indexes | e.1 ≠ table} }
  | .renameColumn _ _ _ | .raw _ => db

def Applies (db : Db) (op : MigOp) (db' : Db) : Prop := db.Allows op ∧ db' = db.effect op

/-- The database that has the tables, columns and indexes of a schema. -/
def Db.ofSchema (s : Schema) : Db where
  tables := {n | ∃ t ∈ s.tables, t.name = n}
  columns n := {d | ∃ t ∈ s.tables, t.name = n ∧ ∃ c ∈ t.columns, d = c.created t.pk}
  indexes := {e | ∃ t ∈ s.tables, ∃ ix ∈ t.indexes, e = (t.name, ix)}

/-! ## What a diff is given -/

/-- The columns that the snapshot's table does not have, if it has the table. -/
def addedColumns (snapshot : Schema) (t : SchemaTable) : List SchemaColumn :=
  match snapshot.table t.name with
  | none => []
  | some prev => t.columns.filter fun c => (prev.column c.name).isNone

/-- The indexes of the unique columns that are added. -/
def uniqueIndexes (snapshot : Schema) (t : SchemaTable) : List SchemaIndex :=
  ((addedColumns snapshot t).filter (·.unique)).map fun c => uniqueIndex t.name c.name

/-- Names are distinct, indexes are on columns of their table, and neither external columns nor
tables of the runtime are there. -/
structure Schema.WellFormed (s : Schema) : Prop where
  tables : (s.tables.map SchemaTable.name).Nodup
  columns : ∀ t ∈ s.tables, (t.columns.map SchemaColumn.name).Nodup
  indexed : ∀ t ∈ s.tables, ∀ ix ∈ t.indexes, ∀ c ∈ ix.columns, ∃ d ∈ t.columns, d.name = c
  own : ∀ t ∈ s.tables, ∀ c ∈ t.columns, c.external = false
  app : ∀ t ∈ s.tables, t.reserved = false

/-- Index names are distinct in the snapshot, and among the target's and those of the unique columns
that are added. An index of the snapshot has a name of the target only as an index of its table. -/
structure IndexNames (target snapshot : Schema) : Prop where
  before : ((snapshot.tables.flatMap (·.indexes)).map SchemaIndex.name).Nodup
  after : ((target.tables.flatMap fun t => uniqueIndexes snapshot t ++ t.indexes).map
    SchemaIndex.name).Nodup
  unique : ∀ t ∈ target.tables, ∀ ix ∈ uniqueIndexes snapshot t, ∀ prev ∈ snapshot.tables,
    ∀ pi ∈ prev.indexes, pi.name ≠ ix.name
  moved : ∀ t ∈ target.tables, ∀ ix ∈ t.indexes, ∀ prev ∈ snapshot.tables, ∀ pi ∈ prev.indexes,
    pi.name = ix.name → prev.name = t.name

/-- A column after the migration: as declared, in a new table; as added, in an old one; with its new
kind, but otherwise as it was, where it existed. -/
def reachedColumn (snapshot : Schema) (t : SchemaTable) (c : SchemaColumn) : MigColumn :=
  match snapshot.table t.name with
  | none => c.created t.pk
  | some prev =>
      match prev.column c.name with
      | none => addedColumn c
      | some pc => { pc.created prev.pk with type := c.kind }

/-- The database after a migration. An added unique column has its index. -/
def Db.reached (target snapshot : Schema) : Db where
  tables := {n | ∃ t ∈ target.tables, t.name = n}
  columns n := {d | ∃ t ∈ target.tables, t.name = n ∧ ∃ c ∈ t.columns, d = reachedColumn snapshot t c}
  indexes := {e | ∃ t ∈ target.tables, ∃ ix ∈ uniqueIndexes snapshot t ++ t.indexes,
    e = (t.name, ix)}

end Sky.Migrate
