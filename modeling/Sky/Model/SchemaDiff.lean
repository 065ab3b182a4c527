import Sky.Model.Migrate

/-! # Diffing two schemas

What `sky db migrate --gen` makes of a target schema and a snapshot. -/

namespace Sky.Migrate

structure SchemaColumn where
  name : String
  kind : String
  nullable : Bool := false
  autoinc : Bool := false
  unique : Bool := false
  default : Option Default := none
  zero : Option Default := none
  external : Bool := false
  deriving DecidableEq

structure SchemaTable where
  name : String
  pk : String := ""
  columns : List SchemaColumn := []
  indexes : List SchemaIndex := []
  deriving DecidableEq

structure Schema where
  tables : List SchemaTable := []

def Schema.table (s : Schema) (name : String) : Option SchemaTable :=
  s.tables.find? fun t => t.name = name

def SchemaTable.column (t : SchemaTable) (name : String) : Option SchemaColumn :=
  t.columns.find? fun c => c.name = name

/-- A warning, as the format that makes it and its arguments. -/
inductive Warning where
  | reserved (table : String)
  | external (table column : String) (declaredOnly : Bool)
  | noZero (table column : String)
  | retyped (table column source target : String)
  | removedColumn (table column : String)
  | removedTable (table : String)
  deriving DecidableEq

structure Diff where
  ops : List MigOp
  destructive : List MigOp
  warnings : List Warning

/-! ## Adding a column -/

def zeroDefault (kind : String) : Option Default :=
  match kind with
  | "int" | "bigint" | "real" => some (.int 0)
  | "text" => some (.text "")
  | "decimal" => some (.text "0")
  | "bool" => some (.bool false)
  | _ => none

def indexName (table : String) (cols : List String) (unique : Bool) (predicate : String) : String :=
  let key := table ++ "|" ++ ",".intercalate cols ++ "|" ++ (if unique then "1" else "0") ++ "|" ++
    predicate
  let h := (utf8 key).foldl (fun h b => (h ^^^ b.toUInt32) * 0x01000193) (0x811c9dc5 : UInt32)
  let t := if 51 < (utf8 table).length then String.ofList (table.toList.take 51) else table
  (if unique then "ux_" else "ix_") ++ t ++ "_" ++ hex08 h.toNat

def addIndexOp (table : String) (ix : SchemaIndex) : MigOp := .addIndex table ix

/-- The default that the op declares: `now` is the clock when the op is applied. -/
def declaredDefault : Default → Default
  | .now => .nowAtApply
  | d => d

/-- The index of a unique column that is added. -/
def uniqueIndex (table column : String) : SchemaIndex where
  name := indexName table [column] true ""
  columns := [column]
  unique := true

/-- The DEFAULT of an added column. -/
def addedDefault (c : SchemaColumn) : Option Default :=
  let declared := c.default.map declaredDefault
  if c.nullable then declared else declared <|> c.zero <|> zeroDefault c.kind

/-- The column that its op describes. -/
def addedColumn (c : SchemaColumn) : MigColumn where
  name := c.name
  type := c.kind
  nullable := c.nullable
  default := addedDefault c

def addColumnOps (table : String) (c : SchemaColumn) : List MigOp :=
  .addColumn table c.name c.kind c.nullable false (addedDefault c) ::
    if c.unique then [addIndexOp table (uniqueIndex table c.name)] else []

def addColumnWarnings (table : String) (c : SchemaColumn) : List Warning :=
  if c.nullable = false ∧ addedDefault c = none then [.noZero table c.name] else []

/-! ## The diff -/

def runtimeTablePrefix : String := "sky_"

def SchemaTable.reserved (t : SchemaTable) : Bool := runtimeTablePrefix.toList.isPrefixOf t.name.toList

def Schema.appOnly (s : Schema) : Schema where
  tables := s.tables.filter fun t => !t.reserved

/-- A column of a `createTable` op. -/
def SchemaColumn.created (pk : String) (c : SchemaColumn) : MigColumn where
  name := c.name
  type := c.kind
  nullable := c.nullable
  pk := c.name = pk
  autoinc := c.autoinc
  unique := c.unique
  default := c.default

/-- A declared default that is not the clock. -/
def SchemaColumn.declaredOnly (c : SchemaColumn) : Bool :=
  c.default.any fun d => d ≠ .now && d ≠ .nowAtApply

def SchemaTable.own (t : SchemaTable) : List SchemaColumn := t.columns.filter fun c => !c.external

def newTable (t : SchemaTable) : Diff where
  ops := .createTable t.name (t.own.map (·.created t.pk)) :: t.indexes.map (addIndexOp t.name)
  destructive := []
  warnings := (t.columns.filter (·.external)).map fun c => .external t.name c.name c.declaredOnly

/-- What a column of the target gives when its table exists. -/
def changedColumn (t prev : SchemaTable) (c : SchemaColumn) : Diff :=
  match prev.column c.name with
  | none => ⟨addColumnOps t.name c, [], addColumnWarnings t.name c⟩
  | some pc =>
      if pc.external ∨ pc.kind = c.kind then ⟨[], [], []⟩
      else ⟨[], [.alterColumnType t.name c.name c.kind], [.retyped t.name c.name pc.kind c.kind]⟩

def changedTable (t prev : SchemaTable) : Diff :=
  let columns := t.own.map (changedColumn t prev)
  let dropped := prev.own.filter fun pc => (t.column pc.name).isNone
  { ops := columns.flatMap (·.ops) ++
      (prev.indexes.filter fun pi => !t.indexes.contains pi).map (fun pi => .dropIndex t.name pi.name) ++
      (t.indexes.filter fun ix => !prev.indexes.contains ix).map (addIndexOp t.name)
    destructive := columns.flatMap (·.destructive) ++
      dropped.map fun pc => .dropColumn t.name pc.name
    warnings := columns.flatMap (·.warnings) ++
      dropped.map fun pc => .removedColumn t.name pc.name }

def diffTable (snapshot : Schema) (t : SchemaTable) : Diff :=
  match snapshot.table t.name with
  | none => newTable t
  | some prev => changedTable t prev

def diff (target snapshot : Schema) : Diff :=
  let reserved := target.tables.filter (·.reserved)
  let target := target.appOnly
  let snapshot := snapshot.appOnly
  let tables := target.tables.map (diffTable snapshot)
  let dropped := snapshot.tables.filter fun pt => (target.table pt.name).isNone
  { ops := tables.flatMap (·.ops)
    destructive := tables.flatMap (·.destructive) ++ dropped.map fun pt => .dropTable pt.name
    warnings := reserved.map (fun t => .reserved t.name) ++ tables.flatMap (·.warnings) ++
      dropped.map fun pt => .removedTable pt.name }

end Sky.Migrate
