import MagnumDB.Lib.Json
import MagnumDB.Sql.Types

/-!
# A host for plain texts

What the executor takes from elsewhere, for texts of ASCII characters and whole
numbers: case by the ASCII table, numbers as integers, catalog records in the JSON form
that `serde_json` gives them.
-/

namespace MagnumDB

open Text Json

/-! ## Catalog records -/

def DataType.json : DataType → Bytes
  | .int => "\"Int\""
  | .bigInt => "\"BigInt\""
  | .float => "\"Float\""
  | .text => "\"Text\""
  | .boolean => "\"Boolean\""

def DataType.readJson : Reader DataType := fun s =>
  [DataType.int, .bigInt, .float, .text, .boolean].findSome? fun t =>
    (literal t.json s).map fun rest => (t, rest)

theorem DataType.reads_json : Reads DataType.readJson DataType.json := by
  intro t rest
  cases t <;> rfl

/-- The texts before the fields of a column. -/
def columnField : Fin 6 → Bytes
  | 0 => "\x7b\"name\":"
  | 1 => ",\"data_type\":"
  | 2 => ",\"is_nullable\":"
  | 3 => ",\"is_primary_key\":"
  | 4 => ",\"is_unique\":"
  | 5 => ",\"default_value\":"

def ColumnDef.json (c : ColumnDef) : Bytes :=
  columnField 0 ++ (writeText c.name ++ (columnField 1 ++ (c.dataType.json ++ (columnField 2 ++
    (writeBool c.isNullable ++ (columnField 3 ++ (writeBool c.isPrimaryKey ++ (columnField 4 ++
      (writeBool c.isUnique ++ (columnField 5 ++ (writeOption writeText c.defaultValue ++
        "\x7d")))))))))))

def ColumnDef.readJson : Reader ColumnDef := fun s => do
  let (name, s) ← readField (columnField 0) readText s
  let (dataType, s) ← readField (columnField 1) DataType.readJson s
  let (isNullable, s) ← readField (columnField 2) readBool s
  let (isPrimaryKey, s) ← readField (columnField 3) readBool s
  let (isUnique, s) ← readField (columnField 4) readBool s
  let (defaultValue, s) ← readField (columnField 5) (readOption readText) s
  let s ← literal "\x7d" s
  some (⟨name, dataType, isNullable, isPrimaryKey, isUnique, defaultValue⟩, s)

theorem ColumnDef.reads_json : Reads ColumnDef.readJson ColumnDef.json := by
  intro c rest
  unfold ColumnDef.readJson ColumnDef.json
  simp only [List.append_assoc, Option.bind_eq_bind, Option.bind_some,
    readField_write reads_text, readField_write DataType.reads_json, readField_write reads_bool,
    readField_write (reads_option reads_text text_not_null), literal_append]

/-- The texts before the fields of a schema. -/
def schemaField : Fin 4 → Bytes
  | 0 => "\x7b\"schema_name\":"
  | 1 => ",\"table_name\":"
  | 2 => ",\"columns\":"
  | 3 => ",\"primary_key\":"

def TableSchema.json (s : TableSchema) : Bytes :=
  schemaField 0 ++ (writeText s.schemaName ++ (schemaField 1 ++ (writeText s.tableName ++
    (schemaField 2 ++ (writeList ColumnDef.json s.columns ++ (schemaField 3 ++
      (writeOption (writeList writeText) s.primaryKey ++ "\x7d")))))))

def TableSchema.readJson : Reader TableSchema := fun s => do
  let (schemaName, s) ← readField (schemaField 0) readText s
  let (tableName, s) ← readField (schemaField 1) readText s
  let (columns, s) ← readField (schemaField 2) (readList ColumnDef.readJson) s
  let (primaryKey, s) ← readField (schemaField 3) (readOption (readList readText)) s
  let s ← literal "\x7d" s
  some (⟨schemaName, tableName, columns, primaryKey⟩, s)

theorem TableSchema.reads_json : Reads TableSchema.readJson TableSchema.json := by
  have hcolumns : Reads (readList ColumnDef.readJson) (writeList ColumnDef.json) :=
    reads_list ColumnDef.reads_json fun _ _ => rfl
  have hkey : Reads (readOption (readList readText)) (writeOption (writeList writeText)) :=
    reads_option (reads_list reads_text text_not_closing) fun _ _ => rfl
  intro s rest
  unfold TableSchema.readJson TableSchema.json
  simp only [List.append_assoc, Option.bind_eq_bind, Option.bind_some,
    readField_write reads_text, readField_write hcolumns, readField_write hkey, literal_append]

/-! ## The host -/

def asciiUpper (b : UInt8) : UInt8 := if 97 ≤ b && b ≤ 122 then b - 32 else b

/-- The host for plain texts. There is no password in what is done with it, so no digest. -/
def asciiHost : Host where
  toLowercase := List.map asciiLower
  toUppercase := List.map asciiUpper
  md5 := fun _ => []
  F64 := Int
  parseF64 := parseSigned 64
  cmpF64 := fun a b => some (compare a b)
  zeroF64 := 0
  addF64 := (· + ·)
  divF64 := fun a n => a / n
  nearF64 := (· == ·)
  showF64 := fun a => ofString (toString a)
  schemaToJson := TableSchema.json
  schemaFromJson := fun s =>
    match TableSchema.readJson s with
    | some (schema, []) => some schema
    | _ => none
  userToJson := fun u => "\x7b\"password_hash\":" ++ writeOption writeText u.passwordHash ++
    ",\"is_superuser\":" ++ writeBool u.isSuperuser ++ "\x7d"

/-- Catalog records are read back as they were written. -/
def Host.RoundTrip (h : Host) : Prop := ∀ s, h.schemaFromJson (h.schemaToJson s) = some s

theorem asciiHost_roundTrip : asciiHost.RoundTrip := by
  intro s
  have hread := TableSchema.reads_json s []
  rw [List.append_nil] at hread
  show (match TableSchema.readJson s.json with
    | some (schema, []) => some schema
    | _ => none) = _
  rw [hread]

end MagnumDB
