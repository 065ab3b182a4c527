import Sky.Model.JsonScan
import Sky.Model.Snapshots
import Sky.Model.Strconv

/-! # Migration ops and the SQL they render to

Identifiers are ASCII, so a byte of a table name is a character. -/

namespace Sky.Migrate

/-- A column DEFAULT, of one of the kinds that `migDefault` holds. A float is finite. -/
inductive Default where
  | int (n : ℤ)
  | text (s : String)
  | bool (b : Bool)
  | float (f : ℚ)
  | now
  | nowAtApply
  deriving DecidableEq

structure MigColumn where
  name : String
  type : String
  nullable : Bool := false
  pk : Bool := false
  autoinc : Bool := false
  unique : Bool := false
  default : Option Default := none
  zero : Option Default := none
  deriving DecidableEq

/-- A declared index. `predicate`: a partial index's `where`. -/
structure SchemaIndex where
  name : String
  columns : List String
  unique : Bool := false
  predicate : String := ""
  deriving DecidableEq

/-- An op of a migration file, with the keys that its kind has. -/
inductive MigOp where
  | createTable (table : String) (columns : List MigColumn)
  | addColumn (table column type : String) (nullable unique : Bool) (default : Option Default)
  | dropColumn (table column : String)
  | renameColumn (table source target : String)
  | addIndex (table : String) (index : SchemaIndex)
  | dropIndex (table name : String)
  | alterColumnType (table column type : String)
  | dropTable (table : String)
  | raw (sql : String)
  deriving DecidableEq

inductive Driver where
  | sqlite
  | pgx
  deriving DecidableEq

/-- An error, as the format that makes it and its arguments. -/
inductive Error where
  | invalidTable (table : String)
  | invalidColumn (column : String)
  | notDecimal (table column text : String)
  | notJson (table column text : String)
  | defaultDoesNotFit (table column base defKind defVal : String)
  | noZeroAdvice (table column : String)
  | requiredUnique (table column : String)
  | invalidRename
  | invalidIndexName (name : String)
  | noIndexColumns (name : String)
  | invalidIndexColumn (name column : String)
  | unknownKind (kind : String)
  | migration (e : Error)
  deriving DecidableEq

/-! ## Columns -/

def migNowToken : String := "'__sky_now_at_apply__'"

def migNowMsToken : String := "'__sky_now_ms_at_apply__'"

def codecValidIdent (s : String) : Bool :=
  s ≠ "" && s.toList.all fun c => c = '_' || c.isLower || c.isUpper || c.isDigit

/-- The kind without its flags, `!` and `?`, and whether it had a `?`. -/
def codecSplitKind (kind : String) : String × Bool :=
  let base := kind.toList.takeWhile (· ≠ '|')
  let base := if base.getLast? = some '!' then base.dropLast else base
  if base.getLast? = some '?' then (String.ofList base.dropLast, true)
  else (String.ofList base, false)

def codecColKindToSchema (kind : String) : String :=
  match (codecSplitKind kind).1 with
  | "int" => "bigint"
  | "real" => "real"
  | "bool" => "bool"
  | "decimal" => "decimal"
  | _ => "text"

def schemaTypeName (driver : Driver) (kind : String) : String :=
  let pg := driver = .pgx
  match kind with
  | "text" => "TEXT"
  | "int" | "bigint" | "timestamp" => if pg then "BIGINT" else "INTEGER"
  | "real" => if pg then "DOUBLE PRECISION" else "REAL"
  | "bool" => if pg then "BOOLEAN" else "INTEGER"
  | "blob" => if pg then "BYTEA" else "BLOB"
  | "json" => "TEXT"
  | "decimal" => if pg then "NUMERIC" else "TEXT"
  | _ => "TEXT"

/-- The text that `strconv.FormatFloat` writes. -/
def formatFloat (f : ℚ) : String :=
  String.ofList ((Strconv.formatFloat Strconv.float64 f).map fun b => Char.ofNat b.val)

def Default.migDefKind : Default → String
  | .int _ => "int"
  | .text _ => "text"
  | .bool _ => "bool"
  | .float _ => "float"
  | .now | .nowAtApply => "now"

def Default.migDefVal : Default → String
  | .int n => toString n
  | .text s => s
  | .bool b => if b then "true" else "false"
  | .float f => formatFloat f
  | .now | .nowAtApply => ""

/-- `schemaDefault` of `migDefKind` and `migDefVal`: a float's text reads back as the float. -/
def schemaDefault (driver : Driver) : Default → String
  | .int n => toString n
  | .text s => "'" ++ String.ofList (s.toList.flatMap fun c => if c = '\'' then [c, c] else [c]) ++ "'"
  | .float f => formatFloat f
  | .bool b =>
      match driver with
      | .pgx => if b then "TRUE" else "FALSE"
      | .sqlite => if b then "1" else "0"
  | .now | .nowAtApply =>
      match driver with
      | .pgx => "now()"
      | .sqlite => "(datetime('now'))"

def schemaIsIntKind (kind : String) : Bool := kind = "int" || kind = "bigint" || kind = "timestamp"

def schemaNowDefault (driver : Driver) (kind : String) : String :=
  if schemaIsIntKind kind then
    match driver with
    | .pgx => "(CAST(EXTRACT(EPOCH FROM now()) * 1000 AS BIGINT))"
    | .sqlite => "(CAST((julianday('now') - 2440587.5) * 86400000 AS INTEGER))"
  else schemaDefault driver .now

/-- `-?[0-9]+(\.[0-9]+)?` -/
def decimalStrictText (s : String) : Bool :=
  let body := match s.toList with
    | '-' :: rest => rest
    | cs => cs
  let int := body.takeWhile Char.isDigit
  !int.isEmpty &&
    match body.dropWhile Char.isDigit with
    | [] => true
    | '.' :: frac => !frac.isEmpty && frac.all Char.isDigit
    | _ => false

/-- Whether `decimalParseStrict` reads the text. -/
def decimalParseStrict (s : String) : Bool := s.utf8ByteSize ≤ 1000 && decimalStrictText s

def migDefaultFits (table : String) (c : MigColumn) : Except Error Unit :=
  match c.default with
  | none => .ok ()
  | some d =>
      let base := (codecSplitKind c.type).1
      let intLike := base = "int" ∨ base = "bigint" ∨ base = "timestamp"
      let textLike := base = "text" ∨ base = "blob" ∨ base = "json"
      let refused := .error (.defaultDoesNotFit table c.name base d.migDefKind d.migDefVal)
      if ¬(intLike ∨ textLike ∨ base = "real" ∨ base = "bool" ∨ base = "decimal") then .ok ()
      else
        match d with
        | .int _ => if intLike ∨ base = "real" ∨ base = "decimal" then .ok () else refused
        | .float _ => if base = "real" then .ok () else refused
        | .bool _ => if base = "bool" then .ok () else refused
        | .now | .nowAtApply => if intLike ∨ base = "text" then .ok () else refused
        | .text s =>
            if base = "decimal" then
              if decimalParseStrict s then .ok () else .error (.notDecimal table c.name s)
            else if ¬textLike then refused
            else if base ≠ "text" ∧ JsonScan.valid s = false then .error (.notJson table c.name s)
            else .ok ()

def migZeroDefault : String → Option Default
  | "int" | "bigint" | "real" => some (.int 0)
  | "text" => some (.text "")
  | "decimal" => some (.text "0")
  | "bool" => some (.bool false)
  | _ => none

def migAddedDefault (c : MigColumn) : Option Default :=
  if c.default.isSome ∨ c.nullable then c.default
  else if c.zero.isSome then c.zero
  else migZeroDefault c.type

/-- `nowAt` is the clock as SQL text, and `nowMs` its milliseconds. -/
def migAddDefault (driver : Driver) (kind : String) (d : Default) (nowAt nowMs : String) : String :=
  match d with
  | .now | .nowAtApply =>
      match driver with
      | .pgx => schemaNowDefault driver kind
      | .sqlite => if schemaIsIntKind kind then nowMs else nowAt
  | d => schemaDefault driver d

/-! ## Indexes -/

/-- Eight hexadecimal digits. -/
def hex08 (h : ℕ) : String :=
  String.ofList ((List.range 8).reverse.map fun i => Nat.digitChar (h / 16 ^ i % 16))

def utf8 (s : String) : List UInt8 := s.toList.flatMap String.utf8EncodeChar

def codecIndexName (table : String) (cols : List String) (unique : Bool) (predicate : String) :
    String :=
  let (flag, pre) := if unique then ("1", "ux_") else ("0", "ix_")
  let h := Snapshots.fnv32a
    (utf8 (table ++ "|" ++ ",".intercalate cols ++ "|" ++ flag ++ "|" ++ predicate))
  let t := if 51 < (utf8 table).length then String.ofList (table.toList.take 51) else table
  pre ++ t ++ "_" ++ hex08 h

def renderIndexDDL (table name : String) (cols : List String) (unique : Bool) (predicate : String) :
    String :=
  let kw := if unique then "UNIQUE INDEX" else "INDEX"
  "CREATE " ++ kw ++ " IF NOT EXISTS " ++ name ++ " ON " ++ table ++ " (" ++ ", ".intercalate cols ++
    ")" ++ if predicate = "" then "" else " WHERE " ++ predicate

/-! ## Statements -/

def renderAddColumn (driver : Driver) (table : String) (c : MigColumn) (nowAt nowMs : String)
    (rows : ℕ) : Except Error (List String) := do
  if codecValidIdent table = false then throw (.invalidTable table)
  if codecValidIdent c.name = false then throw (.invalidColumn c.name)
  migDefaultFits table c
  let kind := codecColKindToSchema c.type
  let s := "ALTER TABLE " ++ table ++ " ADD COLUMN " ++ c.name ++ " " ++ schemaTypeName driver kind
  let s ← match c.nullable, migAddedDefault c with
    | true, none => pure s
    | true, some d => pure (s ++ " DEFAULT " ++ migAddDefault driver kind d nowAt nowMs)
    | false, some d => pure (s ++ " NOT NULL DEFAULT " ++ migAddDefault driver kind d nowAt nowMs)
    | false, none =>
        if 1 ≤ rows then throw (.noZeroAdvice table c.name) else pure (s ++ " NOT NULL")
  if c.unique = false then pure [s]
  else if c.nullable = false ∧ 2 ≤ rows then throw (.requiredUnique table c.name)
  else
    pure [s, renderIndexDDL table (codecIndexName table [c.name] true "") [c.name] true ""]

/-- `schemaRenderColumn` of a column's `schemaColMap`. -/
def schemaRenderColumn (driver : Driver) (c : MigColumn) : String :=
  let kind := codecColKindToSchema c.type
  if c.pk && c.autoinc then
    c.name ++ match driver with
      | .pgx => " BIGSERIAL PRIMARY KEY"
      | .sqlite => " INTEGER PRIMARY KEY AUTOINCREMENT"
  else
    " ".intercalate ([c.name, schemaTypeName driver kind] ++
      (if c.pk then ["PRIMARY KEY"] else []) ++
      (if !c.nullable || c.pk then ["NOT NULL"] else []) ++
      (if c.unique && !c.pk then ["UNIQUE"] else []) ++
      match c.default with
      | none => []
      | some d =>
          ["DEFAULT " ++
            match d with
            | .now | .nowAtApply => schemaNowDefault driver kind
            | d => schemaDefault driver d])

def renderCreateTable (driver : Driver) (table : String) (columns : List MigColumn) : String :=
  "CREATE TABLE IF NOT EXISTS " ++ table ++ " (\n  " ++
    ",\n  ".intercalate (columns.map (schemaRenderColumn driver)) ++ "\n)"

def MigOp.table? : MigOp → Option String
  | .createTable t _ | .addColumn t _ _ _ _ _ | .dropColumn t _ | .renameColumn t _ _
  | .addIndex t _ | .alterColumnType t _ _ | .dropTable t => some t
  | .dropIndex _ _ | .raw _ => none

def renderMigOp (driver : Driver) (op : MigOp) : Except Error String := do
  if op.table?.any fun t => codecValidIdent t = false then
    throw (.migration (.invalidTable (op.table?.getD "")))
  match op with
  | .createTable table columns => pure (renderCreateTable driver table columns)
  | .addColumn table column type nullable unique default => do
      if codecValidIdent column = false then throw (.migration (.invalidColumn column))
      let c : MigColumn :=
        { name := column, type := type, nullable := nullable, unique := unique, default := default }
      let stmts ← (renderAddColumn driver table c migNowToken migNowMsToken 0).mapError .migration
      pure (";\n".intercalate stmts)
  | .dropColumn table column =>
      if codecValidIdent column = false then throw (.migration (.invalidColumn column))
      else pure ("ALTER TABLE " ++ table ++ " DROP COLUMN " ++ column)
  | .renameColumn table source target =>
      if codecValidIdent source = false ∨ codecValidIdent target = false then
        throw (.migration .invalidRename)
      else pure ("ALTER TABLE " ++ table ++ " RENAME COLUMN " ++ source ++ " TO " ++ target)
  | .addIndex table index => do
      if codecValidIdent index.name = false then throw (.migration (.invalidIndexName index.name))
      if index.columns = [] then throw (.migration (.noIndexColumns index.name))
      match index.columns.find? fun c => codecValidIdent c = false with
      | some c => throw (.migration (.invalidIndexColumn index.name c))
      | none => pure (renderIndexDDL table index.name index.columns index.unique index.predicate)
  | .dropIndex _ name =>
      if codecValidIdent name = false then throw (.migration (.invalidIndexName name))
      else pure ("DROP INDEX IF EXISTS " ++ name)
  | .raw sql => pure sql
  | .alterColumnType _ _ _ => throw (.migration (.unknownKind "alterColumnType"))
  | .dropTable _ => throw (.migration (.unknownKind "dropTable"))

end Sky.Migrate
