import Sky.Model.SchemaDiff

/-! # The two ways to add a column -/

namespace Sky.Migrate

variable {driver : Driver} {table : String}

/-! ## Index names -/

/-- The hash in 32-bit words and the hash in numbers. -/
theorem fold_toNat (bytes : List UInt8) (h : UInt32) :
    (bytes.foldl (fun h b => (h ^^^ b.toUInt32) * 0x01000193) h).toNat =
      bytes.foldl (fun h x => (h ^^^ x.toNat) * 16777619 % 2 ^ 32) h.toNat := by
  induction bytes generalizing h with
  | nil => rfl
  | cons b bytes ih =>
      simp only [List.foldl_cons]
      rw [ih]
      simp [UInt32.toNat_mul, UInt32.toNat_xor]

theorem indexName_eq (table : String) (cols : List String) (unique : Bool) (predicate : String) :
    indexName table cols unique predicate = codecIndexName table cols unique predicate := by
  simp only [indexName, fold_toNat]
  cases unique <;> rfl

/-- A character of an identifier. -/
def identChar (c : Char) : Bool := c = '_' || c.isLower || c.isUpper || c.isDigit

theorem codecValidIdent_iff (s : String) :
    codecValidIdent s = true ↔ s ≠ "" ∧ ∀ c ∈ s.toList, identChar c = true := by
  simp [codecValidIdent, identChar]

theorem identChar_digitChar {n : ℕ} (h : n < 16) : identChar (Nat.digitChar n) = true := by
  interval_cases n <;> decide

theorem hex08_ident (h : ℕ) : ∀ c ∈ (hex08 h).toList, identChar c = true := by
  intro c hc
  simp only [hex08, String.toList_ofList, List.mem_map] at hc
  obtain ⟨i, _, rfl⟩ := hc
  exact identChar_digitChar (Nat.mod_lt _ (by norm_num))

/-- The name of a table's index is an identifier, as the table is. -/
theorem codecValidIdent_indexName (htable : codecValidIdent table = true) (cols : List String)
    (predicate : String) : codecValidIdent (indexName table cols true predicate) = true := by
  obtain ⟨_, hchars⟩ := (codecValidIdent_iff table).1 htable
  rw [codecValidIdent_iff]
  constructor
  · simp only [indexName, if_true]
    intro hempty
    have hlist := congrArg String.toList hempty
    simp at hlist
  · intro c hc
    simp only [indexName, if_true, String.toList_append, List.mem_append] at hc
    rcases hc with ((hpre | ht) | hsep) | hhash
    · fin_cases hpre <;> decide
    · split at ht
      · rw [String.toList_ofList] at ht
        exact hchars c (List.mem_of_mem_take ht)
      · exact hchars c ht
    · fin_cases hsep
      decide
    · exact hex08_ident _ c hhash

/-! ## Statements -/

/-- The `ALTER TABLE` of an added column with the DEFAULT that it gets. -/
def alterStatement (driver : Driver) (table name kind : String) (nullable : Bool)
    (d : Option Default) : String :=
  let schemaKind := codecColKindToSchema kind
  let s := "ALTER TABLE " ++ table ++ " ADD COLUMN " ++ name ++ " " ++ schemaTypeName driver schemaKind
  match nullable, d with
  | true, none => s
  | true, some d => s ++ " DEFAULT " ++ migAddDefault driver schemaKind d migNowToken migNowMsToken
  | false, some d =>
      s ++ " NOT NULL DEFAULT " ++ migAddDefault driver schemaKind d migNowToken migNowMsToken
  | false, none => s ++ " NOT NULL"

/-- The index statement of a unique column. -/
def uniqueStatement (table name : String) : String :=
  renderIndexDDL table (codecIndexName table [name] true "") [name] true ""

theorem renderAddColumn_eq (driver : Driver) {c : MigColumn} (htable : codecValidIdent table = true)
    (hname : codecValidIdent c.name = true) :
    renderAddColumn driver table c migNowToken migNowMsToken 0 =
      (migDefaultFits table c).map fun _ =>
        alterStatement driver table c.name c.type c.nullable (migAddedDefault c) ::
          if c.unique then [uniqueStatement table c.name] else [] := by
  unfold renderAddColumn alterStatement uniqueStatement
  generalize migDefaultFits table c = fits
  generalize codecColKindToSchema c.type = kind
  generalize schemaTypeName driver kind = typeName
  generalize migAddedDefault c = d
  rw [htable, hname]
  generalize "ALTER TABLE " ++ table ++ " ADD COLUMN " ++ c.name ++ " " ++ typeName = s
  cases fits with
  | error e => rfl
  | ok _ => cases c.nullable <;> cases d <;> cases c.unique <;> rfl

theorem renderMigOp_addColumn (driver : Driver) {c : SchemaColumn} (htable : codecValidIdent table = true)
    (hname : codecValidIdent c.name = true) :
    renderMigOp driver (.addColumn table c.name c.kind c.nullable false (addedDefault c)) =
      ((migDefaultFits table (addedColumn c)).mapError .migration).map fun _ =>
        alterStatement driver table c.name c.kind c.nullable (migAddedDefault (addedColumn c)) := by
  have hrender := renderAddColumn_eq driver (c := addedColumn c) htable hname
  simp only [addedColumn] at hrender
  simp only [renderMigOp, MigOp.table?, Option.any_some, htable, hname, hrender, addedColumn]
  cases migDefaultFits table _ with
  | error e => simp [Except.mapError, Except.map, bind, Except.bind]
  | ok _ => simp [Except.mapError, Except.map, bind, Except.bind, pure, Except.pure]

theorem renderMigOp_uniqueIndex (driver : Driver) {name : String} (htable : codecValidIdent table = true)
    (hname : codecValidIdent name = true) :
    renderMigOp driver (addIndexOp table (uniqueIndex table name)) =
      .ok (uniqueStatement table name) := by
  have hindex := codecValidIdent_indexName htable [name] ""
  rw [indexName_eq] at hindex
  simp [renderMigOp, addIndexOp, MigOp.table?, uniqueIndex, htable, hname, hindex,
    uniqueStatement, indexName_eq, pure, Except.pure]

/-! ## Defaults -/

theorem zeroDefault_eq (kind : String) : zeroDefault kind = migZeroDefault kind := by
  unfold zeroDefault migZeroDefault
  rfl

theorem migAddDefault_declared (kind : String) (d : Default) (nowAt nowMs : String) :
    migAddDefault driver kind (declaredDefault d) nowAt nowMs =
      migAddDefault driver kind d nowAt nowMs := by
  cases d <;> rfl

/-- The check of a default reads the name and the type of the column besides. -/
theorem migDefaultFits_congr {c c' : MigColumn} (hname : c.name = c'.name)
    (htype : c.type = c'.type) (hdefault : c.default = c'.default) :
    migDefaultFits table c = migDefaultFits table c' := by
  simp only [migDefaultFits, hname, htype, hdefault]

theorem migDefaultFits_declared (c : MigColumn) (d : Default) :
    migDefaultFits table { c with default := some (declaredDefault d) } =
      migDefaultFits table { c with default := some d } := by
  cases d <;> rfl

/-- A kind that has a zero has no flag. -/
theorem codecSplitKind_plain :
    ∀ kind ∈ ["int", "bigint", "real", "text", "decimal", "bool"], (codecSplitKind kind).1 = kind := by
  decide +kernel

/-- The zero of a kind passes the check of a declared default. -/
theorem migDefaultFits_zeroDefault (c : MigColumn) :
    migDefaultFits table { c with default := zeroDefault c.type } = .ok () := by
  cases hzero : zeroDefault c.type with
  | none => rfl
  | some d =>
      have hdecimal : decimalParseStrict "0" = true := by decide
      unfold zeroDefault at hzero
      split at hzero <;> cases hzero
      all_goals
        next htype =>
          simp [migDefaultFits, htype, hdecimal, codecSplitKind_plain]

/-! ## Agreement -/

/-- The column of the runtime's own `colspec`. -/
def SchemaColumn.migColumn (pk : String) (c : SchemaColumn) : MigColumn :=
  { c.created pk with zero := c.zero }

/-- The zero value, where it is the DEFAULT, passes the check of a declared default. -/
def ZeroFits (table pk : String) (c : SchemaColumn) : Prop :=
  c.nullable = false → c.default = none → ∀ z, c.zero = some z →
    migDefaultFits table { c.migColumn pk with default := some z } = .ok ()

theorem addColumnOps_mapM {c : SchemaColumn} (htable : codecValidIdent table = true)
    (hname : codecValidIdent c.name = true) :
    ((addColumnOps table c).mapM (renderMigOp driver)).toOption =
      (migDefaultFits table (addedColumn c)).toOption.map fun _ =>
        alterStatement driver table c.name c.kind c.nullable (migAddedDefault (addedColumn c)) ::
          if c.unique then [uniqueStatement table c.name] else [] := by
  have hadd := renderMigOp_addColumn driver htable hname
  have hindex := renderMigOp_uniqueIndex driver htable hname
  unfold addColumnOps
  generalize alterStatement driver table c.name c.kind c.nullable _ = s at hadd ⊢
  cases hfits : migDefaultFits table (addedColumn c) with
  | error e =>
      rw [hfits] at hadd
      simp [List.mapM_cons, hadd, Except.mapError, Except.map, bind, Except.bind, Except.toOption]
  | ok _ =>
      rw [hfits] at hadd
      cases c.unique <;>
        simp [List.mapM_cons, hadd, hindex, Except.mapError, Except.map, bind, Except.bind,
          Except.toOption, pure, Except.pure]

theorem alterStatement_declared (name kind : String) (nullable : Bool) (d : Default) :
    alterStatement driver table name kind nullable (some (declaredDefault d)) =
      alterStatement driver table name kind nullable (some d) := by
  unfold alterStatement
  generalize codecColKindToSchema kind = schemaKind
  generalize schemaTypeName driver schemaKind = typeName
  cases nullable <;> simp only [migAddDefault_declared]

/-- The two statements have the same DEFAULT. -/
theorem alterStatement_addedColumn (pk : String) (c : SchemaColumn) :
    alterStatement driver table c.name c.kind c.nullable (migAddedDefault (addedColumn c)) =
      alterStatement driver table c.name c.kind c.nullable (migAddedDefault (c.migColumn pk)) := by
  cases hdefault : c.default with
  | some d =>
      have hop : migAddedDefault (addedColumn c) = some (declaredDefault d) := by
        cases hnullable : c.nullable <;>
          simp [migAddedDefault, addedColumn, addedDefault, hnullable, hdefault]
      have hgo : migAddedDefault (c.migColumn pk) = some d := by
        simp [migAddedDefault, SchemaColumn.migColumn, SchemaColumn.created, hdefault]
      rw [hop, hgo, alterStatement_declared]
  | none =>
      have heq : migAddedDefault (addedColumn c) = migAddedDefault (c.migColumn pk) := by
        cases hnullable : c.nullable <;> cases hzero : c.zero <;>
          simp [migAddedDefault, addedColumn, addedDefault, SchemaColumn.migColumn,
            SchemaColumn.created, hnullable, hdefault, hzero, zeroDefault_eq]
      rw [heq]

/-- The op is checked as the column is, and its zero besides. -/
theorem fits_addedColumn_iff (pk : String) (c : SchemaColumn) :
    (migDefaultFits table (addedColumn c)).toOption = (migDefaultFits table (c.migColumn pk)).toOption ↔
      ZeroFits table pk c := by
  have hcheck : ∀ d, addedDefault c = d →
      migDefaultFits table (addedColumn c) = migDefaultFits table { c.migColumn pk with default := d } :=
    fun d hd => migDefaultFits_congr rfl rfl hd
  cases hdefault : c.default with
  | some d =>
      have hadded : addedDefault c = some (declaredDefault d) := by
        cases hnullable : c.nullable <;> simp [addedDefault, hnullable, hdefault]
      have hsame : migDefaultFits table (addedColumn c) = migDefaultFits table (c.migColumn pk) := by
        rw [hcheck _ hadded, migDefaultFits_declared]
        exact migDefaultFits_congr rfl rfl hdefault.symm
      simp [hsame, ZeroFits, hdefault]
  | none =>
      have hgo : migDefaultFits table (c.migColumn pk) = .ok () := by
        simp [migDefaultFits, SchemaColumn.migColumn, SchemaColumn.created, hdefault]
      cases hnullable : c.nullable with
      | true =>
          have hadded : addedDefault c = none := by simp [addedDefault, hnullable, hdefault]
          rw [hcheck _ hadded, hgo]
          simp [ZeroFits, hnullable, migDefaultFits]
      | false =>
          cases hzero : c.zero with
          | none =>
              have hadded : addedDefault c = zeroDefault (c.migColumn pk).type := by
                simp [addedDefault, hnullable, hdefault, hzero, SchemaColumn.migColumn,
                  SchemaColumn.created]
              rw [hcheck _ hadded, migDefaultFits_zeroDefault, hgo]
              simp [ZeroFits, hzero]
          | some z =>
              have hadded : addedDefault c = some z := by
                simp [addedDefault, hnullable, hdefault, hzero]
              rw [hcheck _ hadded, hgo]
              cases hfits : migDefaultFits table { c.migColumn pk with default := some z } <;>
                simp [ZeroFits, hnullable, hdefault, hzero, hfits, Except.toOption]

/-- The migration file and the runtime add a column with the same statements, or are both refused,
unless a zero value that does not fit the column's kind is its DEFAULT. -/
theorem addColumn_agrees_iff (driver : Driver) (pk : String) {c : SchemaColumn}
    (htable : codecValidIdent table = true) (hname : codecValidIdent c.name = true) :
    ((addColumnOps table c).mapM (renderMigOp driver)).toOption =
        (renderAddColumn driver table (c.migColumn pk) migNowToken migNowMsToken 0).toOption ↔
      ZeroFits table pk c := by
  have hruntime : renderAddColumn driver table (c.migColumn pk) migNowToken migNowMsToken 0 =
      (migDefaultFits table (c.migColumn pk)).map fun _ =>
        alterStatement driver table c.name c.kind c.nullable (migAddedDefault (c.migColumn pk)) ::
          if c.unique then [uniqueStatement table c.name] else [] :=
    renderAddColumn_eq driver (c := c.migColumn pk) htable hname
  rw [addColumnOps_mapM htable hname, hruntime, ← fits_addedColumn_iff pk c,
    alterStatement_addedColumn pk c]
  generalize alterStatement driver table c.name c.kind c.nullable _ :: _ = statements
  cases migDefaultFits table (addedColumn c) <;> cases migDefaultFits table (c.migColumn pk) <;>
    simp [Except.map, Except.toOption]

/-- A unique text column with a zero of its own. -/
theorem status_agrees :
    codecValidIdent "orders" = true ∧ codecValidIdent "status" = true ∧
      ((addColumnOps "orders" ⟨"status", "text", false, false, true, none, some (.text "Open"),
        false⟩).mapM (renderMigOp .pgx)).toOption =
      (renderAddColumn .pgx "orders"
        (SchemaColumn.migColumn "id" ⟨"status", "text", false, false, true, none,
          some (.text "Open"), false⟩) migNowToken migNowMsToken 0).toOption := by
  refine ⟨by decide, by decide, (addColumn_agrees_iff .pgx "id" (by decide) (by decide)).2 ?_⟩
  intro _ _ z hz
  obtain rfl := Option.some.inj hz
  decide

/-- The op of a JSON column whose zero is no JSON is refused, and the runtime adds the column. -/
theorem brokenZero_disagrees :
    ((addColumnOps "orders" ⟨"tags", "blob", false, false, false, none, some (.text "["),
        false⟩).mapM (renderMigOp .sqlite)).toOption = none ∧
      (renderAddColumn .sqlite "orders"
        (SchemaColumn.migColumn "id" ⟨"tags", "blob", false, false, false, none,
          some (.text "["), false⟩) migNowToken migNowMsToken 0).toOption =
        some ["ALTER TABLE orders ADD COLUMN tags TEXT NOT NULL DEFAULT '['"] := by
  decide +kernel

end Sky.Migrate
