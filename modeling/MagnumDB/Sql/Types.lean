import MagnumDB.Lib.Text
import MagnumDB.Storage.Page

/-!
# Types, schemas and statements

`src/sql/types.rs` and the `Statement` of `src/sql/parser.rs`. A `String` of the source
is the bytes of its UTF-8 form, so keys and values of the storage engine are made
from texts by concatenation.

What the executor takes from elsewhere is in `Host`: the case tables of Unicode,
floating-point numbers, the JSON form of catalog records, and the MD5 digest.
-/

namespace MagnumDB

open Text

/-- Supported data types. -/
inductive DataType where
  | int
  | bigInt
  | float
  | text
  | boolean
  deriving DecidableEq

/-- Column definition within a table schema. -/
structure ColumnDef where
  name : Bytes
  dataType : DataType
  isNullable : Bool
  isPrimaryKey : Bool
  isUnique : Bool
  defaultValue : Option Bytes
  deriving DecidableEq

/-- Metadata of a table. -/
structure TableSchema where
  schemaName : Bytes
  tableName : Bytes
  columns : List ColumnDef
  primaryKey : Option (List Bytes)
  deriving DecidableEq

/-- Metadata of a user. -/
structure UserInfo where
  passwordHash : Option Bytes
  isSuperuser : Bool
  deriving DecidableEq

/-- What is not part of the repository. -/
structure Host where
  toLowercase : Bytes → Bytes
  toUppercase : Bytes → Bytes
  /-- The MD5 digest in hexadecimal. -/
  md5 : Bytes → Bytes
  /-- `f64`. -/
  F64 : Type
  parseF64 : Bytes → Option F64
  /-- `partial_cmp`: `none` if one of the numbers is not a number. -/
  cmpF64 : F64 → F64 → Option Ordering
  zeroF64 : F64
  addF64 : F64 → F64 → F64
  /-- The quotient by a count. -/
  divF64 : F64 → Nat → F64
  /-- The numbers differ by less than `1e-9`. -/
  nearF64 : F64 → F64 → Bool
  showF64 : F64 → Bytes
  schemaToJson : TableSchema → Bytes
  schemaFromJson : Bytes → Option TableSchema
  userToJson : UserInfo → Bytes

/-! ## Errors -/

/-- The errors of the SQL layer. -/
inductive SqlError where
  | transactionInProgress
  | noTransaction
  | schemaExists (name : Bytes)
  | roleExists (name : Bytes)
  | tableExists (name : Bytes)
  | noTable (name : Bytes)
  | indexExists (name : Bytes)
  | columnNotIn (column table : Bytes)
  | noJoinColumn (column table : Bytes)
  | noColumn (column : Bytes)
  | noOrderColumn (column : Bytes)
  | columnCount (expected got : Nat)
  | notNull (column : Bytes)
  | noValues
  | primaryKeyExists (pk : Bytes)
  | notUnique (value column : Bytes)
  | corruptedRow
  | corruptedLength
  | unsupportedAggregate (func : Bytes)
  | unsupportedType (name : Bytes)
  | cannotParse (raw : Bytes) (type : DataType)
  | notUtf8
  | badJson
  deriving DecidableEq

/-- How a statement can end without a result: with an error of its own, or as a call to the
database ended. A panic is a failure of the second kind. -/
inductive SqlFail where
  | sql (e : SqlError)
  | db (e : Fail)
  deriving DecidableEq

/-- `DataType::to_sql_string`. -/
def DataType.toSqlString : DataType → Bytes
  | .int => "INTEGER"
  | .bigInt => "BIGINT"
  | .float => "FLOAT"
  | .text => "TEXT"
  | .boolean => "BOOLEAN"

/-- A text in single quotes. -/
def quoted (s : Bytes) : Bytes := "'" ++ s ++ "'"

/-! ## Values -/

/-- `DataType::from_str`. -/
def DataType.fromStr (h : Host) (s : Bytes) : Except SqlError DataType :=
  let upper := h.toUppercase s
  if upper ∈ [ofString "INT", "INTEGER", "INT4"] then .ok .int
  else if upper ∈ [ofString "BIGINT", "INT8"] then .ok .bigInt
  else if upper ∈ [ofString "FLOAT", "FLOAT8", "DOUBLE", "REAL"] then
    .ok .float
  else if upper ∈ [ofString "TEXT", "VARCHAR", "STRING", "CHAR"] then
    .ok .text
  else if upper ∈ [ofString "BOOL", "BOOLEAN"] then .ok .boolean
  else .error (.unsupportedType upper)

/-- A runtime value. -/
inductive Value (F64 : Type) where
  | null
  | int (v : Int)
  | bigInt (v : Int)
  | float (v : F64)
  | text (v : Bytes)
  | boolean (v : Bool)

def Value.isNull {F64 : Type} : Value F64 → Bool
  | .null => true
  | _ => false

/-- The text starts and ends with this byte, which may be one and the same. -/
def startsAndEndsWith (b : UInt8) (s : Bytes) : Bool := s.head? == some b && s.getLast? == some b

/-- `Value::parse_str`. A text that is a single quotation mark starts and ends with it, and the
slice between the two is out of range. -/
def Value.parseStr (h : Host) (raw : Bytes) (dataType : DataType) : Except SqlFail (Value h.F64) :=
  let trimmed := trim raw
  let bad : Except SqlFail (Value h.F64) := .error (.sql (.cannotParse raw dataType))
  if eqIgnoreAsciiCase trimmed "NULL" then .ok .null
  else
    match dataType with
    | .int => (parseSigned 32 trimmed).elim bad fun v => .ok (.int v)
    | .bigInt => (parseSigned 64 trimmed).elim bad fun v => .ok (.bigInt v)
    | .float => (h.parseF64 trimmed).elim bad fun v => .ok (.float v)
    | .text =>
      if startsAndEndsWith 39 trimmed || startsAndEndsWith 34 trimmed then
        match slice? trimmed 1 (trimmed.length - 1) with
        | some unquoted => .ok (.text unquoted)
        | none => .error (.db .panic)
      else .ok (.text trimmed)
    | .boolean =>
      let lower := h.toLowercase trimmed
      if lower ∈ [ofString "true", "t", "1"] then .ok (.boolean true)
      else if lower ∈ [ofString "false", "f", "0"] then .ok (.boolean false)
      else bad

/-! ## Schemas -/

/-- `ColumnDef::new`. -/
def ColumnDef.new (name : Bytes) (dataType : DataType) : ColumnDef where
  name := name
  dataType := dataType
  isNullable := true
  isPrimaryKey := false
  isUnique := false
  defaultValue := none

/-- `with_nullable`. -/
def ColumnDef.withNullable (c : ColumnDef) (nullable : Bool) : ColumnDef :=
  { c with isNullable := nullable }

/-- `with_primary_key`. -/
def ColumnDef.withPrimaryKey (c : ColumnDef) (primaryKey : Bool) : ColumnDef :=
  if primaryKey then { c with isPrimaryKey := true, isNullable := false, isUnique := true }
  else { c with isPrimaryKey := false }

/-- `with_unique`. -/
def ColumnDef.withUnique (c : ColumnDef) (unique : Bool) : ColumnDef := { c with isUnique := unique }

/-- `TableSchema::new`. -/
def TableSchema.new (schemaName tableName : Bytes) (columns : List ColumnDef) : TableSchema where
  schemaName := schemaName
  tableName := tableName
  columns := columns
  primaryKey :=
    let pkCols := (columns.filter ColumnDef.isPrimaryKey).map ColumnDef.name
    if pkCols.isEmpty then none else some pkCols

/-- `TableSchema::find_column`, without the position. -/
def TableSchema.findColumn (s : TableSchema) (colName : Bytes) : Option ColumnDef :=
  s.columns.find? fun c => eqIgnoreAsciiCase c.name colName

/-- `DEFAULT_SCHEMA`. -/
def defaultSchema : Bytes := "public"

/-- `parse_qualified_table_name`. -/
def parseQualifiedTableName (raw : Bytes) : Bytes × Bytes :=
  match find "." raw with
  | some dotIdx => (trim (raw.take dotIdx), trim (raw.drop (dotIdx + 1)))
  | none => (defaultSchema, trim raw)

/-- The default value in a column definition. The position of the keyword is found in the text in
upper case and used in the text as it is. -/
def parseDefault (h : Host) (raw : Bytes) : Except SqlFail (Option Bytes) :=
  match find "DEFAULT" (h.toUppercase raw) with
  | none => .ok none
  | some defIdx =>
    match slice? raw (defIdx + 7) raw.length with
    | none => .error (.db .panic)
    | some rest =>
      let rest := trim rest
      if rest.head? = some 39 then
        .ok ((find [39] rest.tail).map fun endQuote => rest.tail.take endQuote)
      else
        let defToken := (splitWhitespace rest).head?.getD []
        .ok (if defToken.isEmpty then none else some defToken)

/-- `parse_column_def`. -/
def parseColumnDef (h : Host) (raw : Bytes) : Except SqlFail ColumnDef := do
  let tokens := splitWhitespace raw
  let colName := tokens.head?.getD "col"
  let upperRaw := h.toUppercase raw
  let isPk := contains "PRIMARY KEY" upperRaw
  let isUnique := isPk || contains "UNIQUE" upperRaw
  let isNullable := !(isPk || contains "NOT NULL" upperRaw)
  let defaultVal ← parseDefault h raw
  let dtype :=
    match tokens[1]? with
    | none => DataType.text
    | some token =>
      -- commas and parentheses around the type do not count
      let typeStr := trimMatches (fun b => b == 44 || b == 40 || b == 41) token
      match DataType.fromStr h typeStr with
      | .ok dt => dt
      | .error _ => DataType.text
  pure { (((ColumnDef.new colName dtype).withNullable isNullable).withPrimaryKey isPk).withUnique
    isUnique with defaultValue := defaultVal }

/-! ## Statements -/

inductive Statement where
  | createUser (username : Bytes) (password : Option Bytes)
  | createSchema (schemaName : Bytes)
  | createTable (tableName : Bytes) (columns : List Bytes)
  | createIndex (indexName tableName : Bytes) (columns : List Bytes)
  | union (left right : Statement) (all : Bool)
  | withQuery (cteName : Bytes) (cteQuery mainQuery : Statement)
  | insert (tableName : Bytes) (valuesList : List (List Bytes))
  | select (tableName : Bytes) (whereClause : Option (Bytes × Bytes))
      (orderBy : Option (Bytes × Bool)) (limitOffset : Option (Nat × Nat))
  | selectInSubquery (tableName column : Bytes) (subquery : Statement)
  | selectWindow (tableName partitionBy orderBy : Bytes)
  | selectRange (tableName column op val : Bytes)
  | selectAggregate (func column tableName : Bytes) (whereClause : Option (Bytes × Bytes))
  | selectGroupAggregate (groupCol func aggCol tableName : Bytes)
      (whereClause havingClause : Option (Bytes × Bytes))
  | selectJoin (leftTable rightTable leftCol rightCol : Bytes) (isLeftJoin : Bool)
  | update (tableName column value : Bytes) (whereClause : Option (Bytes × Bytes))
  | delete (tableName : Bytes) (whereClause : Option (Bytes × Bytes))
  | dropTable (tableName : Bytes)
  | alterTableAddColumn (tableName columnDef : Bytes)
  | showTables
  | showSchemas
  | begin
  | commit
  | rollback
  deriving DecidableEq

end MagnumDB
