import MagnumDB.Sql.Catalog
import MagnumDB.Sql.Volcano

/-!
# The executor

`Executor::execute` of `src/sql/executor.rs`, with one function for each kind of
statement. In a transaction the rows, the older table records and the index entries
that a statement writes go to the buffer; the records of the catalog, and the
definition and the entries of a new index, go to the database at once. Rows and the
older table records are read through the buffer, everything else from the database.
-/

namespace MagnumDB

open Text CatalogManager

namespace Executor

variable (h : Host)

/-! ## Keys -/

/-- What the keys of the rows of a table begin with. -/
def rowPrefix (tableName : Bytes) : Bytes := tableName ++ ":"

def rowKey (tableName pk : Bytes) : Bytes := rowPrefix tableName ++ pk

/-- What the keys of the index definitions of a table begin with. -/
def indexPrefix (tableName : Bytes) : Bytes := "__index__:" ++ tableName ++ ":"

def indexKey (tableName indexName : Bytes) : Bytes := indexPrefix tableName ++ indexName

/-- The name of the index that a UNIQUE column gets. -/
def implicitIndexName (tableName column : Bytes) : Bytes :=
  "idx_" ++ tableName ++ "_" ++ column

/-- What the keys of the index entries of a table begin with. -/
def secPrefix (tableName : Bytes) : Bytes := "__secidx__:" ++ tableName ++ ":"

def secKey (tableName column colVal : Bytes) : Bytes :=
  secPrefix tableName ++ (column ++ ":" ++ colVal)

/-! ## Reading -/

/-- The position of a column. -/
def position (colNames : List Bytes) (col : Bytes) : Option Nat := colNames.findIdx? (· == col)

/-- Read a key through the buffer of the transaction. -/
def readThrough (key : Bytes) : Sql (Option Bytes) := do
  let self ← Client.get
  match if self.inTransaction then self.writeBuffer.get key else none with
  | some value => pure value
  | none => Db.get key

/-- `get_schema_bytes`. -/
def getSchemaBytes (tableName : Bytes) : Sql (Option Bytes) := readThrough (schemaKeyOf tableName)

/-- The names of the columns of a table, by its older record. -/
def columnNames (tName tableName : Bytes) : Sql (List Bytes) := do
  match ← getSchemaBytes tName with
  | none => Sql.fail (.noTable tableName)
  | some bytes => if isUtf8 bytes then pure (extractColNames bytes) else Sql.fail .notUtf8

/-- The records of a table, with the writes of the transaction over those of the database. -/
def rowMap (self : Executor) (pre : Bytes) (records : List (Bytes × Bytes)) :
    SortedMap Bytes Bytes :=
  let rows := SortedMap.ofList records
  if self.inTransaction then rows.apply (self.writeBuffer.select pre.isPrefixOf) else rows

/-- The rows in some records, filled up to the columns of the schema. -/
def decodeRows (schema : Option TableSchema) : List (Bytes × Bytes) → Except SqlFail (List Row)
  | [] => .ok []
  | r :: records => do
    let row ← decodeValues r.2
    let rest ← decodeRows schema records
    pure (padRow schema row :: rest)

/-- `scan_table_rows`. The schema is looked up by the name without its qualifier. -/
def scanTableRows (tableName : Bytes) : Sql (List Row) := do
  let pre := rowPrefix tableName
  let records ← Db.scanPrefix pre
  let self ← Client.get
  let (schemaName, tNameOnly) := parseQualifiedTableName tableName
  let catalogSchema ← getTableSchema h schemaName tNameOnly
  Sql.lift (decodeRows catalogSchema (rowMap self pre records).entries)

/-! ## Index entries -/

/-- The primary keys in an index entry. -/
def postings (entry : Bytes) : List Bytes := splitOn secIdxPkSep (fromUtf8Lossy entry)

/-- `sec_idx_add`. The entry is read from the database, not through the buffer. -/
def secIdxAdd (table column colVal pk : Bytes) (isUnique : Bool) : Sql Unit := do
  match ← Db.get (secKey table column colVal) with
  | some data =>
    if pk ∈ postings data then pure ()
    else if isUnique then Sql.fail (.notUnique colVal column)
    else
      let newVal := fromUtf8Lossy data ++ [secIdxPkSep] ++ pk
      writeOrBuffer (secKey table column colVal) (some newVal)
  | none => writeOrBuffer (secKey table column colVal) (some pk)

/-- `sec_idx_remove`. -/
def secIdxRemove (table column colVal pk : Bytes) : Sql Unit := do
  match ← Db.get (secKey table column colVal) with
  | some data =>
    let pks := (postings data).filter (· != pk)
    if pks.isEmpty then writeOrBuffer (secKey table column colVal) none
    else writeOrBuffer (secKey table column colVal) (some (join [secIdxPkSep] pks))
  | none => pure ()

/-- The values of some columns in a row, without those that are missing. -/
def project (colNames cols values : List Bytes) : List Bytes :=
  cols.filterMap fun col => (position colNames col).bind fun idx => values[idx]?

/-- The columns of an index, as its definition lists them. -/
def indexColumns (definition : Bytes) : List Bytes := splitOn 44 (fromUtf8Lossy definition)

/-- One of the columns is declared UNIQUE. -/
def anyUnique (schema : Option TableSchema) (cols : List Bytes) : Bool :=
  cols.any fun col => schema.any fun s => (s.findColumn col).any ColumnDef.isUnique

/-- `sync_secondary_indexes_on_insert`. -/
def syncSecondaryIndexesOnInsert (tableName : Bytes) (colNames values : List Bytes) (pk : Bytes)
    (schema : Option TableSchema) : Sql Unit := do
  let indices ← Db.scanPrefix (indexPrefix tableName)
  Client.forEach (fun index => do
    let cols := indexColumns index.2
    let colVals := project colNames cols values
    if colVals.length = cols.length then
      secIdxAdd tableName (join "+" cols) (join "+" colVals) pk
        (anyUnique schema cols)
    else pure ()) indices

/-- `sec_idx_remove_for_column`. -/
def secIdxRemoveForColumn (tableName column colVal pk : Bytes) : Sql Unit := do
  let indices ← Db.scanPrefix (indexPrefix tableName)
  Client.forEach (fun index =>
    if fromUtf8Lossy index.2 = column then secIdxRemove tableName column colVal pk
    else pure ()) indices

/-- `sec_idx_add_for_column`. -/
def secIdxAddForColumn (tableName column colVal pk : Bytes) (isUnique : Bool) : Sql Unit := do
  let indices ← Db.scanPrefix (indexPrefix tableName)
  Client.forEach (fun index =>
    if fromUtf8Lossy index.2 = column then secIdxAdd tableName column colVal pk isUnique
    else pure ()) indices

/-- `remove_all_secondary_indexes`. -/
def removeAllSecondaryIndexes (tableName : Bytes) (colNames rowValues : List Bytes) (pk : Bytes) :
    Sql Unit := do
  let indices ← Db.scanPrefix (indexPrefix tableName)
  Client.forEach (fun index => do
    let cols := indexColumns index.2
    let colVals := project colNames cols rowValues
    if colVals.length = cols.length then
      secIdxRemove tableName (join "+" cols) (join "+" colVals) pk
    else pure ()) indices

/-! ## Transactions -/

/-- The transaction id that goes into the header of a row. -/
def activeTx (self : Executor) : UInt64 := if self.inTransaction then self.currentTxId else 1

/-- `Statement::Begin`. -/
def begin : Sql Bytes := do
  let self ← Client.get
  if self.inTransaction then Sql.fail .transactionInProgress
  else do
    let txId ← Sql.call .fetchTxId
    Client.modify fun _ =>
      { inTransaction := true, currentTxId := txId, writeBuffer := SortedMap.empty }
    Sql.call (.beginTx txId)
    pure "Query OK, transaction started."

/-- One round of the loop of `Statement::Commit`. -/
def commitWrite (txId : UInt64) (write : Bytes × Option Bytes) : Sql Unit :=
  match write.2 with
  | some value => Sql.call (.putWithTx txId write.1 value)
  | none => Sql.call (.deleteWithTx txId write.1)

/-- The state outside a transaction. -/
def idle : Executor where
  inTransaction := false
  currentTxId := 0
  writeBuffer := SortedMap.empty

/-- `Statement::Commit`. A write that fails ends it, with the transaction still open. -/
def commit : Sql Bytes := do
  let self ← Client.get
  if self.inTransaction then do
    Client.forEach (commitWrite self.currentTxId) self.writeBuffer.entries
    Sql.call (.commitTx self.currentTxId)
    Client.modify fun _ => idle
    pure "Query OK, transaction committed."
  else Sql.fail .noTransaction

/-- `Statement::Rollback`. -/
def rollback : Sql Bytes := do
  let self ← Client.get
  if self.inTransaction then do
    Sql.call (.rollbackTx self.currentTxId)
    Client.modify fun _ => idle
    pure "Query OK, transaction rolled back."
  else Sql.fail .noTransaction

/-! ## Definitions of tables and indexes -/

/-- The definitions of some columns. -/
def parseColumnDefs : List Bytes → Except SqlFail (List ColumnDef)
  | [] => .ok []
  | c :: cs => do
    let col ← parseColumnDef h c
    let rest ← parseColumnDefs cs
    pure (col :: rest)

/-- The index definition of a UNIQUE column. -/
def defineUnique (tName : Bytes) (col : ColumnDef) : Sql Unit :=
  if col.isUnique then
    writeOrBuffer (indexKey tName (implicitIndexName tName col.name)) (some col.name)
  else pure ()

/-- The table is there already. -/
def tableExists (schemaName tName : Bytes) : Sql Bool := do
  if (← getSchemaBytes tName).isSome then pure true
  else do
    let schema ← getTableSchema h schemaName tName
    pure schema.isSome

/-- `Statement::CreateTable`. -/
def createTable (tableName : Bytes) (columns : List Bytes) : Sql Bytes := do
  let (schemaName, tName) := parseQualifiedTableName tableName
  if ← tableExists h schemaName tName then Sql.fail (.tableExists tableName)
  else do
    let colDefs ← Sql.lift (parseColumnDefs h columns)
    saveTableSchema h (TableSchema.new schemaName tName colDefs)
    writeOrBuffer (schemaKeyOf tName) (some (join "," columns))
    Client.forEach (defineUnique tName) colDefs
    pure ("Query OK, table " ++
      quoted (if schemaName = defaultSchema then tName else schemaName ++ "." ++ tName) ++
      " created.")

/-- The positions of the columns of a new index. -/
def columnPositions (colNames : List Bytes) (tableName : Bytes) :
    List Bytes → Except SqlFail (List Nat)
  | [] => .ok []
  | col :: cols =>
    match position colNames col with
    | none => .error (.sql (.columnNotIn col tableName))
    | some idx => do
      let rest ← columnPositions colNames tableName cols
      pure (idx :: rest)

/-- The entry of a new index for a row that is there. -/
def indexRecord (tName : Bytes) (columns : List Bytes) (colIndices : List Nat)
    (record : Bytes × Bytes) : Sql Unit := do
  let decoded ← Sql.lift (decodeValues record.2)
  let colVals := colIndices.filterMap fun idx => decoded[idx]?
  if colVals.length = columns.length then
    secIdxAdd tName (join "+" columns) (join "+" colVals)
      (fromUtf8Lossy (record.1.drop (rowPrefix tName).length)) false
  else pure ()

/-- `Statement::CreateIndex`. The definition is stored before the columns are looked up. -/
def createIndex (indexName tableName : Bytes) (columns : List Bytes) : Sql Bytes := do
  let (schemaName, tName) := parseQualifiedTableName tableName
  match ← getSchemaBytes tName with
  | none => Sql.fail (.noTable tableName)
  | some schemaBytes => do
    if (← Db.get (indexKey tName indexName)).isSome then Sql.fail (.indexExists indexName)
    else do
      let colsJoined := join "," columns
      Db.put (indexKey tName indexName) colsJoined
      if !isUtf8 schemaBytes then Sql.fail .notUtf8
      else do
        let colIndices ←
          Sql.lift (columnPositions (extractColNames schemaBytes) tableName columns)
        let records ← Db.scanPrefix (rowPrefix tName)
        Client.forEach (indexRecord tName columns colIndices) records
        pure ("Query OK, index " ++ quoted indexName ++ " created on " ++
          quoted (schemaName ++ "." ++ tName ++ "(" ++ colsJoined ++
            ")") ++ ".")

/-- `Statement::AlterTableAddColumn`. -/
def alterTableAddColumn (tableName columnDef : Bytes) : Sql Bytes := do
  let (schemaName, tName) := parseQualifiedTableName tableName
  let colDef ← Sql.lift (parseColumnDef h columnDef)
  match ← getTableSchema h schemaName tName with
  | none => Sql.fail (.noTable tableName)
  | some schema => do
    let schema := { schema with columns := schema.columns ++ [colDef] }
    saveTableSchema h schema
    writeOrBuffer (schemaKeyOf tName)
      (some (join "," (schema.columns.map ColumnDef.name)))
    defineUnique tName colDef
    pure ("Query OK, 0 rows affected. Added column " ++ quoted colDef.name ++
      " to table " ++ quoted tableName ++ ".")

/-- `Statement::DropTable`. -/
def dropTable (tableName : Bytes) : Sql Bytes := do
  let (schemaName, tName) := parseQualifiedTableName tableName
  if (← getSchemaBytes tName).isNone then Sql.fail (.noTable tableName)
  else do
    let records ← Db.scanPrefix (rowPrefix tName)
    let indices ← Db.scanPrefix (indexPrefix tName)
    Client.forEach (fun index => Db.delete index.1) indices
    let secEntries ← Db.scanPrefix (secPrefix tName)
    Client.forEach (fun entry => Db.delete entry.1) secEntries
    Db.delete (tableKey h schemaName tName)
    writeOrBuffer (schemaKeyOf tName) none
    Client.forEach (fun record => writeOrBuffer record.1 none) records
    pure ("Query OK, table " ++ quoted tableName ++ " dropped.")

/-! ## Changing rows -/

/-- The message after a change of some rows. -/
def changedMessage (count : Nat) (what : Bytes) : Bytes :=
  if count = 1 then "Query OK, 1 row " ++ what ++ "."
  else "Query OK, " ++ decimal count ++ " rows " ++ what ++ "."

/-- A value against its column. -/
def checkCell (col : ColumnDef) (value : Bytes) : Except SqlFail Unit := do
  let parsed ← Value.parseStr h value col.dataType
  if !col.isNullable && parsed.isNull then .error (.sql (.notNull col.name)) else pure ()

def checkCells : List ColumnDef → List Bytes → Except SqlFail Unit
  | col :: cols, value :: values => do
    checkCell h col value
    checkCells cols values
  | _, _ => .ok ()

/-- The checks of a new row before its key is known, and the row filled up. -/
def checkRow (catalogSchema : Option TableSchema) (colNames values : List Bytes) :
    Except SqlFail (List Bytes) :=
  match catalogSchema with
  | some schema =>
    let padded := padRow (some schema) values
    if padded.length ≠ schema.columns.length then
      .error (.sql (.columnCount schema.columns.length padded.length))
    else do
      checkCells h schema.columns padded
      pure padded
  | none =>
    if values.length ≠ colNames.length then
      .error (.sql (.columnCount colNames.length values.length))
    else .ok values

/-- One round of the loop of `Statement::Insert`. The row is stored before the entries of the
indexes are checked. -/
def insertRow (tName : Bytes) (colNames : List Bytes) (catalogSchema : Option TableSchema)
    (activeTx : UInt64) (values : List Bytes) : Sql Unit := do
  match ← Sql.lift (checkRow h catalogSchema colNames values) with
  | [] => Sql.fail .noValues
  | pk :: rest => do
    if (← readThrough (rowKey tName pk)).isSome then Sql.fail (.primaryKeyExists pk)
    else do
      writeOrBuffer (rowKey tName pk) (some (encodeValuesMvcc (pk :: rest) activeTx 0))
      syncSecondaryIndexesOnInsert tName colNames (pk :: rest) pk catalogSchema

/-- `Statement::Insert`. -/
def insert (tableName : Bytes) (valuesList : List (List Bytes)) : Sql Bytes := do
  let (schemaName, tName) := parseQualifiedTableName tableName
  let colNames ← columnNames tName tableName
  let catalogSchema ← getTableSchema h schemaName tName
  let self ← Client.get
  Client.forEach (insertRow h tName colNames catalogSchema self.activeTx) valuesList
  pure (changedMessage valuesList.length "inserted")

/-- The rows with this value in the column. A row that is too short makes the program panic. -/
def rowsMatching (idx : Nat) (value : Bytes) : List Row → Except SqlFail (List Row)
  | [] => .ok []
  | row :: rows =>
    match row[idx]? with
    | none => .error (.db .panic)
    | some cell => do
      let rest ← rowsMatching idx value rows
      pure (if cell = value then row :: rest else rest)

/-- The rows that an UPDATE or DELETE is about. -/
def affectedRows (colNames : List Bytes) (whereClause : Option (Bytes × Bytes)) (rows : List Row) :
    Except SqlFail (List Row) :=
  match whereClause with
  | none => .ok rows
  | some (filterCol, filterVal) =>
    match position colNames filterCol with
    | none => .error (.sql (.noColumn filterCol))
    | some idx => rowsMatching idx filterVal rows

/-- One round of the loop of `Statement::Update`. The key of the row is made from its first
value as it was. -/
def updateRow (tName column : Bytes) (colIdx : Nat) (value : Bytes) (isUnique : Bool)
    (activeTx : UInt64) (row : Row) : Sql Unit := do
  match row[colIdx]? with
  | none => Sql.fail .corruptedLength
  | some oldValue => do
    let pkVal := row.headD []
    secIdxRemoveForColumn tName column oldValue pkVal
    secIdxAddForColumn tName column value pkVal isUnique
    writeOrBuffer (rowKey tName pkVal)
      (some (encodeValuesMvcc (row.set colIdx value) activeTx 0))

/-- The column of an UPDATE in the catalog, with its value checked; whether it is UNIQUE. -/
def checkUpdate (catalogSchema : Option TableSchema) (colIdx : Nat) (value : Bytes) :
    Except SqlFail Bool :=
  match catalogSchema.bind fun schema => schema.columns[colIdx]? with
  | none => .ok false
  | some colDef => do
    checkCell h colDef value
    pure colDef.isUnique

/-- `Statement::Update`. -/
def update (tableName column value : Bytes) (whereClause : Option (Bytes × Bytes)) : Sql Bytes := do
  let (schemaName, tName) := parseQualifiedTableName tableName
  let colNames ← columnNames tName tableName
  match position colNames column with
  | none => Sql.fail (.columnNotIn column tableName)
  | some colIdx => do
    let catalogSchema ← getTableSchema h schemaName tName
    let isUnique ← Sql.lift (checkUpdate h catalogSchema colIdx value)
    let rows ← scanTableRows h tName
    let rowsToUpdate ← Sql.lift (affectedRows colNames whereClause rows)
    let self ← Client.get
    Client.forEach (updateRow tName column colIdx value isUnique self.activeTx) rowsToUpdate
    pure (changedMessage rowsToUpdate.length "updated")

/-- One round of the loop of `Statement::Delete`. -/
def deleteRow (tName : Bytes) (colNames : List Bytes) (row : Row) : Sql Unit := do
  match row with
  | [] => Client.fail (.db .panic)
  | pk :: rest => do
    removeAllSecondaryIndexes tName colNames (pk :: rest) pk
    writeOrBuffer (rowKey tName pk) none

/-- `Statement::Delete`. -/
def delete (tableName : Bytes) (whereClause : Option (Bytes × Bytes)) : Sql Bytes := do
  let (_, tName) := parseQualifiedTableName tableName
  let colNames ← columnNames tName tableName
  let rows ← scanTableRows h tName
  let rowsToDelete ← Sql.lift (affectedRows colNames whereClause rows)
  Client.forEach (deleteRow tName colNames) rowsToDelete
  pure (changedMessage rowsToDelete.length "deleted")

end Executor

end MagnumDB
