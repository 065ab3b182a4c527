import Sky.Model.SchemaDiff
import Sky.Library.FiniteMap

/-! # The questions about dropped columns

What the answers of `sky db migrate --gen` make of a diff, and what renames are for: a column has a
kind and its data, and an op that refers to a column that is not there, or creates one that is,
does not apply. -/

namespace Sky.Migrate

open Library

/-! ## The answers -/

/-- A quarantined drop of a column, and the added columns that it may be renamed to. -/
structure DropDecision where
  table : String
  column : String
  renameCandidates : List String
  deriving DecidableEq

/-- The column that an `addColumn` op adds to the table. -/
def MigOp.added? (table : String) : MigOp → Option String
  | .addColumn t column _ _ _ _ => if t = table then some column else none
  | _ => none

def MigOp.adds (table column : String) (op : MigOp) : Bool := op.added? table = some column

/-- The op is the `dropColumn` of the table's column. -/
def MigOp.drops (table column : String) (op : MigOp) : Bool := op = .dropColumn table column

def Warning.text : Warning → String
  | .reserved table =>
      "table " ++ table ++ " is skipped: names starting with `" ++ runtimeTablePrefix ++
        "` are reserved for the Sky runtime's own tables; rename the Store table"
  | .external table column declaredOnly =>
      "column " ++ table ++ "." ++ column ++
        " is not a record field (an external column of a Store builder): the new table is created without it, and " ++
        if declaredOnly then
          "the Store never writes it (a default* builder only declares it), so inserts work, and the column is missing until a migration or a Std.Db.Schema table adds it"
        else
          "an insert that writes it (defaultWith, defaultNow, touchOnUpdate) fails until a migration or a Std.Db.Schema table adds it"
  | .noZero table column =>
      "column " ++ table ++ "." ++ column ++
        " is required and its field's codec has no zero value (a taggedUnion, a result, Codec.error, or an object holding one): it is added NOT NULL with no default, which a table with rows refuses. Make the field a Maybe, derive the record codec with Codec.auto or Codec.autoWith (the blank record's value for the field gives the default), or add a data step"
  | .retyped table column source target =>
      "column " ++ table ++ "." ++ column ++ " type change " ++ source ++ " → " ++ target ++
        " is DESTRUCTIVE (quarantined)"
  | .removedColumn table column =>
      "column " ++ table ++ "." ++ column ++
        " removed — DROP is DESTRUCTIVE (quarantined; edit to a renameColumn if it was renamed)"
  | .removedTable table => "table " ++ table ++ " removed — DROP TABLE is DESTRUCTIVE (quarantined)"

def contains (text part : String) : Bool := decide (part.toList <:+: text.toList)

/-- The warnings but those about the removed column. -/
def clearRemoved (table column : String) (warnings : List Warning) : List Warning :=
  warnings.filter fun w =>
    !(contains w.text (table ++ "." ++ column) && contains w.text "removed")

def MigOp.setDefault (table column : String) (default : Default) : MigOp → MigOp
  | .addColumn t c type nullable unique old =>
      if t = table ∧ c = column then .addColumn t c type nullable unique (some default)
      else .addColumn t c type nullable unique old
  | op => op

namespace Diff

/-- Each quarantined drop, with the columns that are added to its table. -/
def dropDecisions (d : Diff) : List DropDecision :=
  d.destructive.filterMap fun
    | .dropColumn table column =>
        some ⟨table, column, (d.ops.filterMap (MigOp.added? table)).filter (· ≠ column)⟩
    | _ => none

/-- The drop and the added column become one rename, after the other ops. -/
def rename (d : Diff) (table source target : String) : Diff where
  ops := (d.ops.filter fun op => !op.adds table target) ++ [.renameColumn table source target]
  destructive := d.destructive.filter fun op => !op.drops table source
  warnings := clearRemoved table source d.warnings

/-- The drop goes after the other ops. -/
def confirmDrop (d : Diff) (table column : String) : Diff :=
  if d.destructive.any (MigOp.drops table column) then
    { ops := d.ops ++ [.dropColumn table column]
      destructive := d.destructive.filter fun op => !op.drops table column
      warnings := clearRemoved table column d.warnings }
  else { d with destructive := d.destructive.filter fun op => !op.drops table column }

def setDefault (d : Diff) (table column : String) (default : Default) : Diff :=
  { d with ops := d.ops.map (MigOp.setDefault table column default) }

end Diff

/-- What a question is answered with. -/
inductive Answer where
  | rename (table source target : String)
  | confirmDrop (table column : String)
  | setDefault (table column : String) (default : Default)
  deriving DecidableEq

def Diff.answer (d : Diff) : Answer → Diff
  | .rename table source target => d.rename table source target
  | .confirmDrop table column => d.confirmDrop table column
  | .setDefault table column default => d.setDefault table column default

/-- A drop that is still quarantined is renamed to a candidate or confirmed; any default is set. -/
def Diff.Offers (d : Diff) : Answer → Prop
  | .rename table source target =>
      ∃ q ∈ d.dropDecisions, q.table = table ∧ q.column = source ∧ target ∈ q.renameCandidates
  | .confirmDrop table column => ∃ q ∈ d.dropDecisions, q.table = table ∧ q.column = column
  | .setDefault _ _ _ => True

/-- An answer to an offered question. -/
def Answered (d : Diff) (a : Answer) (d' : Diff) : Prop := d.Offers a ∧ d' = d.answer a

/-! ## Tables with data -/

/-- The kind and the data of each column. -/
abbrev TableData (D : Type*) := String → Option (String × D)

/-- The tables. -/
abbrev Content (D : Type*) := String → Option (TableData D)

/-- The table that an op is about. -/
def MigOp.on : MigOp → String
  | .createTable t _ | .addColumn t _ _ _ _ _ | .dropColumn t _ | .renameColumn t _ _
  | .addIndex t _ | .dropIndex t _ | .alterColumnType t _ _ | .dropTable t => t
  | .raw _ => ""

variable {D : Type*}

/-- An op on its table. An added column is filled. -/
def TableData.apply (fill : D) : Option (TableData D) → MigOp → Option (Option (TableData D))
  | none, .createTable _ columns =>
      if (columns.map MigColumn.name).Nodup then
        some (some fun n => (columns.find? fun c => c.name = n).map fun c => (c.type, fill))
      else none
  | some t, .addColumn _ column type _ _ _ =>
      if t column = none then some (some (Function.update t column (some (type, fill)))) else none
  | some t, .dropColumn _ column =>
      (t column).map fun _ => some (Function.update t column none)
  | some t, .renameColumn _ source target =>
      if t target = none then
        (t source).map fun v => some (Function.update (Function.update t source none) target (some v))
      else none
  | some t, .addIndex _ ix => if ∀ c ∈ ix.columns, t c ≠ none then some (some t) else none
  | some t, .dropIndex _ _ => some (some t)
  | some t, .alterColumnType _ column type =>
      (t column).map fun v => some (Function.update t column (some (type, v.2)))
  | some _, .dropTable _ => some none
  | _, _ => none

def Content.apply (fill : D) : Content D → MigOp → Option (Content D) :=
  keyed MigOp.on (TableData.apply fill)

/-- The tables of a schema, with some data in each column. -/
def Content.ofSchema (s : Schema) (data : String → String → D) : Content D :=
  fun table => (s.table table).map fun t n => (t.column n).map fun c => (c.kind, data table n)

/-- The kind of each column of each table. -/
def Content.kinds (c : Content D) : String → Option (String → Option String) :=
  fun table => (c table).map fun t n => (t n).map Prod.fst

def Schema.kinds (s : Schema) : String → Option (String → Option String) :=
  fun table => (s.table table).map fun t n => (t.column n).map SchemaColumn.kind

def Content.data (c : Content D) (table column : String) : Option D :=
  ((c table).bind fun t => t column).map Prod.snd

/-- The ops and then the quarantined ones apply, and lead to the target's columns and kinds; each
renamed column has the data of its source. -/
def Diff.Migrates (d : Diff) (fill : D) (target : Schema) (as : List Answer) (c : Content D) : Prop :=
  ∃ c', (d.ops ++ d.destructive).foldlM (Content.apply fill) c = some c' ∧
    c'.kinds = target.kinds ∧
    ∀ table source column, .rename table source column ∈ as →
      c'.data table column = c.data table source

end Sky.Migrate
