import Mathlib.Data.List.Sort
import MagnumDB.Sql.Row
import MagnumDB.Sql.Session

/-!
# The catalog

`CatalogManager` of `src/sql/catalog.rs`. Schemas, users and tables are records of the
database like any others, under keys with a prefix of their own. A table has two: the
one of the catalog, and an older one without the name of the schema, which is read if
the first one is missing and the schema is the default one.
-/

namespace MagnumDB

open Text

/-- The rest of a text after a prefix. -/
def stripPrefix (pre s : Bytes) : Option Bytes :=
  if pre.isPrefixOf s then some (s.drop pre.length) else none

/-- The key of the older record of a table. -/
def schemaKeyOf (tableName : Bytes) : Bytes := "__schema__:" ++ tableName

namespace CatalogManager

variable (h : Host)

/-- `schema_key`. -/
def schemaKey (schemaName : Bytes) : Bytes :=
  "__catalog__:schema:" ++ h.toLowercase schemaName

/-- `table_key`. -/
def tableKey (schemaName tableName : Bytes) : Bytes :=
  "__catalog__:table:" ++ h.toLowercase schemaName ++ ":" ++
    h.toLowercase tableName

/-- `user_key`. -/
def userKey (username : Bytes) : Bytes := "__catalog__:user:" ++ h.toLowercase username

/-- `init_default_schema`. -/
def initDefaultSchema : Sql Unit := do
  let key := schemaKey h defaultSchema
  if (← Db.get key).isNone then
    Db.put key "registered"
  let pgUserKey := userKey h "postgres"
  if (← Db.get pgUserKey).isNone then
    Db.put pgUserKey (h.userToJson { passwordHash := none, isSuperuser := true })

/-- `create_schema`. -/
def createSchema (schemaName : Bytes) : Sql Unit := do
  let key := schemaKey h schemaName
  if (← Db.get key).isSome then
    Sql.fail (.schemaExists schemaName)
  else
    Db.put key "registered"

/-- `create_user`. -/
def createUser (username : Bytes) (passwordHash : Option Bytes) (isSuperuser : Bool) :
    Sql Unit := do
  let key := userKey h username
  if (← Db.get key).isSome then
    Sql.fail (.roleExists username)
  else
    Db.put key (h.userToJson { passwordHash, isSuperuser })

/-- The names that are left of some keys without a prefix. -/
def namesAfter (pre : Bytes) (records : List (Bytes × Bytes)) : List Bytes :=
  records.filterMap fun r => stripPrefix pre (fromUtf8Lossy r.1)

/-- `list_schemas`: without repetition and in order. -/
def listSchemas : Sql (List Bytes) := do
  let pre := "__catalog__:schema:"
  let records ← Db.scanPrefix pre
  let schemas := defaultSchema :: namesAfter pre records
  pure ((SortedMap.ofList (schemas.map fun s => (s, ()))).entries.map Prod.fst)

/-- The older record: the names and the types of the columns. -/
def legacyValue (schema : TableSchema) : Bytes :=
  join "," (schema.columns.map fun c =>
    c.name ++ " " ++ c.dataType.toSqlString)

/-- `save_table_schema`. -/
def saveTableSchema (schema : TableSchema) : Sql Unit := do
  Db.put (tableKey h schema.schemaName schema.tableName) (h.schemaToJson schema)
  Db.put (schemaKeyOf schema.tableName) (legacyValue schema)

/-- A column as the older record has it. -/
def legacyColumn (part : Bytes) : ColumnDef :=
  let tokens := splitWhitespace (trim part)
  let dtype :=
    match tokens[1]? with
    | none => DataType.text
    | some token =>
      match DataType.fromStr h token with
      | .ok dt => dt
      | .error _ => DataType.text
  ColumnDef.new (tokens.head?.getD "col") dtype

/-- The schema that is made from the older record. -/
def legacySchema (tableName rawVal : Bytes) : TableSchema :=
  TableSchema.new defaultSchema tableName ((splitOn 44 rawVal).map (legacyColumn h))

/-- `get_table_schema`. -/
def getTableSchema (schemaName tableName : Bytes) : Sql (Option TableSchema) := do
  match ← Db.get (tableKey h schemaName tableName) with
  | some bytes =>
    match h.schemaFromJson bytes with
    | some schema => pure (some schema)
    | none => Sql.fail .badJson
  | none =>
    if eqIgnoreAsciiCase schemaName defaultSchema then
      match ← Db.get (schemaKeyOf tableName) with
      | some bytes =>
        if isUtf8 bytes then pure (some (legacySchema h tableName bytes))
        else Sql.fail .notUtf8
      | none => pure none
    else pure none

/-- Add the names that are not there yet, up to the case of ASCII letters. -/
def addMissing (tables : List Bytes) : List Bytes → List Bytes
  | [] => tables
  | t :: ts =>
    if tables.any (eqIgnoreAsciiCase t) then addMissing tables ts
    else addMissing (tables ++ [t]) ts

/-- `list_tables`. -/
def listTables (schemaName : Bytes) : Sql (List Bytes) := do
  let pre := "__catalog__:table:" ++ h.toLowercase schemaName ++ ":"
  let records ← Db.scanPrefix pre
  let tables := namesAfter pre records
  if eqIgnoreAsciiCase schemaName defaultSchema then
    let legacyPre := "__schema__:"
    let legacyRecords ← Db.scanPrefix legacyPre
    pure ((addMissing tables (namesAfter legacyPre legacyRecords)).insertionSort (· ≤ ·))
  else
    pure (tables.insertionSort (· ≤ ·))

/-- The rows of `information_schema.tables` for some schemas. -/
def tableRows : List Bytes → Sql (List (List Bytes))
  | [] => pure []
  | s :: schemas => do
    let tables ← listTables h s
    let rest ← tableRows schemas
    pure ((tables.map fun t => [ofString "magnumdb", s, t, "BASE TABLE"]) ++ rest)

/-- `query_information_schema_tables`. -/
def queryInformationSchemaTables : Sql (List (List Bytes)) := do
  tableRows h (← listSchemas)

/-- The rows of `information_schema.columns` for one table. -/
def columnCells (s t : Bytes) (schema : TableSchema) : List (List Bytes) :=
  schema.columns.zipIdx.map fun (col, idx) =>
    ["magnumdb", s, t, col.name, decimal (idx + 1), col.dataType.toSqlString,
      if col.isNullable then "YES" else "NO",
      col.defaultValue.getD "NULL"]

def columnRowsOf (s : Bytes) : List Bytes → Sql (List (List Bytes))
  | [] => pure []
  | t :: tables => do
    let schema ← getTableSchema h s t
    let rest ← columnRowsOf s tables
    pure ((schema.map (columnCells s t)).getD [] ++ rest)

def columnRows : List Bytes → Sql (List (List Bytes))
  | [] => pure []
  | s :: schemas => do
    let tables ← listTables h s
    let rows ← columnRowsOf h s tables
    let rest ← columnRows schemas
    pure (rows ++ rest)

/-- `query_information_schema_columns` for all tables, which is how it is called. -/
def queryInformationSchemaColumns : Sql (List (List Bytes)) := do
  columnRows h (← listSchemas)

end CatalogManager

end MagnumDB
