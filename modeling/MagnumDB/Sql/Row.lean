import MagnumDB.Sql.Types

/-!
# Rows and their texts

How `src/sql/executor.rs` stores a row, how it shows rows to a client, and how it
reads its own output back when one query is made from others.
-/

namespace MagnumDB

open Text ByteString

/-! ## Stored rows -/

/-- A cell: its length as a `u32`, and its bytes. -/
def encodeCell (v : Bytes) : Bytes := leBytes 4 v.length ++ v

/-- `encode_values_mvcc`. -/
def encodeValuesMvcc (values : List Bytes) (xmin xmax : UInt64) : Bytes :=
  leBytes 8 xmin.toNat ++ (leBytes 8 xmax.toNat ++ values.flatMap encodeCell)

/-- Why the cells of a row cannot be read. -/
inductive CellError where
  /-- There is something left that is shorter than a length. -/
  | short
  | corrupted
  | notUtf8

/-- The loop of `decode_values` over the cells. -/
def decodeCells : Nat → Bytes → Except CellError (List Bytes)
  | 0, _ => .ok []
  | n + 1, data =>
    if data.isEmpty then .ok []
    else if data.length < 4 then .error .short
    else
      let len := leNat (data.take 4)
      let rest := data.drop 4
      if rest.length < len then .error .corrupted
      else if !isUtf8 (rest.take len) then .error .notUtf8
      else (decodeCells n (rest.drop len)).map fun cells => rest.take len :: cells

/-- `decode_values`. Bytes that are left over at the end make it start again without a header. -/
def decodeValues (data : Bytes) : Except SqlFail (List Bytes) :=
  let offset := if 16 ≤ data.length then 16 else 0
  match decodeCells data.length (data.drop offset) with
  | .ok values => .ok values
  | .error .corrupted => .error (.sql .corruptedRow)
  | .error .notUtf8 => .error (.sql .notUtf8)
  | .error .short =>
    match decodeCells data.length data with
    | .ok values => .ok values
    | .error .notUtf8 => .error (.sql .notUtf8)
    | .error _ => .error (.sql .corruptedRow)

example : decodeValues (encodeValuesMvcc ["1", "Ada"] 7 0)
    = .ok ["1", "Ada"] := by decide

/-- Fill a row up to the columns of the schema with their default values. -/
def padRow (schema : Option TableSchema) (row : List Bytes) : List Bytes :=
  match schema with
  | none => row
  | some schema => row ++ (schema.columns.drop row.length).map fun col =>
    col.defaultValue.getD "NULL"

/-- `SEC_IDX_PK_SEP`. -/
def secIdxPkSep : UInt8 := 0x1F

/-- `Executor::extract_col_names`. -/
def extractColNames (schemaVal : Bytes) : List Bytes :=
  (splitOn 44 schemaVal).map fun c => (splitWhitespace c).head?.getD (trim c)

/-! ## Output -/

def rule : Bytes := "+-----------------+\n"

/-- A line of a table. -/
def tableLine (cells : List Bytes) : Bytes :=
  "| " ++ join " | " cells ++ " |\n"

def rowsInSet (n : Nat) : Bytes := decimal n ++ " row(s) in set."

/-- `format_table_output`, and the same loop in the branches of `execute`. -/
def formatTableOutput (headers : List Bytes) (rows : List (List Bytes)) : Bytes :=
  rule ++ tableLine headers ++ rule ++ rows.flatMap tableLine ++ rule ++ rowsInSet rows.length

/-- The output of a query that is made of lines that are there already. -/
def formatLines (header : Bytes) (rows : List Bytes) : Bytes :=
  rule ++ header ++ "\n" ++ rule ++ rows.flatMap (fun row => row ++ ofString "\n") ++
    rule ++ rowsInSet rows.length

/-- `parse_formatted_table`. -/
def parseFormattedTable (table : Bytes) : Bytes × List Bytes :=
  let ls := lines table
  if ls.length < 5 then ([], [])
  else (ls[1]?.getD [], (ls.drop 3).take (ls.length - 2 - 3))

/-- The cells of a line, as the executor reads them back. -/
def lineCells (line : Bytes) : List Bytes :=
  (splitOn 124 (trimMatches (· == 124) line)).map trim

end MagnumDB
