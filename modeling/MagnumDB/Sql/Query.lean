import MagnumDB.Sql.Executor

/-!
# Queries

The SELECT statements of `Executor::execute`, and `execute` itself. A statement that is
made from others reads their output back from its text.
-/

namespace MagnumDB

open Text CatalogManager

namespace Executor

variable (h : Host)

/-! ## Plain queries -/

/-- The rows that an index entry lists, without those that are gone. -/
def rowsByKey (tName : Bytes) : List Bytes → Sql (List Row)
  | [] => pure []
  | pk :: pks => do
    match ← readThrough (rowKey tName pk) with
    | none => rowsByKey tName pks
    | some v => do
      let row ← Sql.lift (decodeValues v)
      let rest ← rowsByKey tName pks
      pure (row :: rest)

/-- The rows by the index, if there is an entry for the value of the WHERE clause. -/
def indexRows (tName : Bytes) (whereClause : Option (Bytes × Bytes)) : Sql (Option (List Row)) := do
  match whereClause with
  | none => pure none
  | some (filterCol, filterVal) => do
    match ← Db.get (secKey tName filterCol filterVal) with
    | none => pure none
    | some pksBytes => do
      let rows ← rowsByKey tName (postings pksBytes)
      pure (some rows)

/-- The WHERE clause over rows that were not found by the index. -/
def filterRows (colNames : List Bytes) (whereClause : Option (Bytes × Bytes)) (rows : List Row) :
    Except SqlFail (List Row) :=
  match whereClause with
  | none => .ok rows
  | some (filterCol, filterVal) =>
    match position colNames filterCol with
    | none => .error (.sql (.noColumn filterCol))
    | some idx => .ok (filterExec idx filterVal rows)

/-- The ORDER BY clause. -/
def sortRows (colNames : List Bytes) (orderBy : Option (Bytes × Bool)) (rows : List Row) :
    Except SqlFail (List Row) :=
  match orderBy with
  | none => .ok rows
  | some (sortCol, isDesc) =>
    match position colNames sortCol with
    | none => .error (.sql (.noOrderColumn sortCol))
    | some idx => sortExec h idx isDesc rows

/-- The rows of a query before they are sorted and cut. -/
def selectRows (tName : Bytes) (colNames : List Bytes) (whereClause : Option (Bytes × Bytes)) :
    Sql (List Row) := do
  match ← indexRows tName whereClause with
  | some rows => pure rows
  | none => do
    let rows ← scanTableRows h tName
    Sql.lift (filterRows colNames whereClause rows)

/-- The name of a table of the information schema, with or without its qualifier. -/
def isInformationSchema (schemaName tName name : Bytes) : Bool :=
  eqIgnoreAsciiCase tName ("information_schema." ++ name) ||
    (eqIgnoreAsciiCase schemaName "information_schema" && eqIgnoreAsciiCase tName name)

/-- `Statement::Select`. -/
def select (tableName : Bytes) (whereClause : Option (Bytes × Bytes))
    (orderBy : Option (Bytes × Bool)) (limitOffset : Option (Nat × Nat)) : Sql Bytes := do
  let (schemaName, tName) := parseQualifiedTableName tableName
  if isInformationSchema schemaName tName "tables" then do
    let rows ← queryInformationSchemaTables h
    pure (formatTableOutput ["table_catalog", "table_schema",
      "table_name", "table_type"] rows)
  else if isInformationSchema schemaName tName "columns" then do
    let rows ← queryInformationSchemaColumns h
    pure (formatTableOutput ["table_catalog", "table_schema",
      "table_name", "column_name", "ordinal_position",
      "data_type", "is_nullable", "column_default"] rows)
  else do
    let colNames ← columnNames tName tableName
    let rows ← selectRows h tName colNames whereClause
    let sorted ← Sql.lift (sortRows h colNames orderBy rows)
    let page :=
      match limitOffset with
      | some (limit, offset) => limitOffsetExec (some limit) offset sorted
      | none => sorted
    pure (formatTableOutput colNames page)

/-- `SELECT * FROM table`. -/
def selectAll (tableName : Bytes) : Sql Bytes := select h tableName none none none

/-- The column of a join, in the table as the statement names it. -/
def joinColumn (colNames : List Bytes) (col table : Bytes) : Except SqlFail Nat :=
  match position colNames col with
  | none => .error (.sql (.noJoinColumn col table))
  | some idx => .ok idx

/-- The text of an older table record. -/
def schemaText (bytes : Bytes) : Except SqlFail (List Bytes) :=
  if isUtf8 bytes then .ok (extractColNames bytes) else .error (.sql .notUtf8)

/-- `Statement::SelectJoin`. -/
def selectJoin (leftTable rightTable leftCol rightCol : Bytes) (isLeftJoin : Bool) : Sql Bytes := do
  let (_, lName) := parseQualifiedTableName leftTable
  let (_, rName) := parseQualifiedTableName rightTable
  match ← getSchemaBytes lName with
  | none => Sql.fail (.noTable leftTable)
  | some leftSb => do
    match ← getSchemaBytes rName with
    | none => Sql.fail (.noTable rightTable)
    | some rightSb => do
      let leftCols ← Sql.lift (schemaText leftSb)
      let rightCols ← Sql.lift (schemaText rightSb)
      let leftKeyIdx ← Sql.lift (joinColumn leftCols leftCol leftTable)
      let rightKeyIdx ← Sql.lift (joinColumn rightCols rightCol rightTable)
      let lRows ← scanTableRows h lName
      let rRows ← scanTableRows h rName
      let joinType := if isLeftJoin then JoinType.left else JoinType.inner
      pure (formatTableOutput (leftCols ++ rightCols)
        (hashJoinExec leftKeyIdx rightKeyIdx joinType rightCols.length lRows rRows))

/-- The aggregate function of a query. -/
def aggregateFunc (colNames : List Bytes) (func column : Bytes) : Except SqlFail AggregateFunc :=
  let colIdx (f : Nat → AggregateFunc) : Except SqlFail AggregateFunc :=
    match position colNames column with
    | none => .error (.sql (.noColumn column))
    | some idx => .ok (f idx)
  if func = "COUNT" then .ok .count
  else if func = "SUM" then colIdx .sum
  else if func = "AVG" then colIdx .avg
  else .error (.sql (.unsupportedAggregate func))

/-- The header of an aggregate. -/
def aggregateHeader (func column : Bytes) : Bytes := func ++ "(" ++ column ++ ")"

/-- `Statement::SelectGroupAggregate`. -/
def selectGroupAggregate (groupCol func aggCol tableName : Bytes)
    (whereClause havingClause : Option (Bytes × Bytes)) : Sql Bytes := do
  let (_, tName) := parseQualifiedTableName tableName
  let colNames ← columnNames tName tableName
  match position colNames groupCol with
  | none => Sql.fail (.noColumn groupCol)
  | some groupColIdx => do
    let rows ← scanTableRows h tName
    let filtered ← Sql.lift (filterRows colNames whereClause rows)
    let aggFunc ← Sql.lift (aggregateFunc colNames func aggCol)
    pure (formatTableOutput [groupCol, aggregateHeader func aggCol]
      (hashGroupAggregateExec h groupColIdx aggFunc havingClause filtered))

/-- A row passes the comparison of a range query. -/
def inRange (op val : Bytes) (colIdx : Nat) (row : Row) : Bool :=
  match row[colIdx]? with
  | none => false
  | some rowV =>
    let ord :=
      match h.parseF64 rowV, h.parseF64 val with
      | some r, some t => h.cmpF64 r t
      | _, _ => some (compareOfLessAndEq rowV val)
    (compareByName ord op).getD false

/-- `Statement::SelectRange`. -/
def selectRange (tableName column op val : Bytes) : Sql Bytes := do
  let (_, tName) := parseQualifiedTableName tableName
  let colNames ← columnNames tName tableName
  match position colNames column with
  | none => Sql.fail (.noColumn column)
  | some colIdx => do
    let rows ← scanTableRows h tName
    pure (formatTableOutput colNames (rows.filter (inRange h op val colIdx)))

/-- `Statement::SelectAggregate`. -/
def selectAggregate (func column tableName : Bytes) (whereClause : Option (Bytes × Bytes)) :
    Sql Bytes := do
  let (_, tName) := parseQualifiedTableName tableName
  let colNames ← columnNames tName tableName
  let rows ← scanTableRows h tName
  let filtered ← Sql.lift (filterRows colNames whereClause rows)
  let aggFunc ← Sql.lift (aggregateFunc colNames func column)
  pure (rule ++ tableLine [aggregateHeader func column] ++ rule ++
    (aggregateExec h aggFunc filtered).flatMap tableLine ++ rule ++ "1 row in set.")

/-! ## Queries over the output of others -/

/-- The position of a column in a header, up to the case of ASCII letters. -/
def headerPosition (colNames : List Bytes) (col : Bytes) : Option Nat :=
  colNames.findIdx? fun c => eqIgnoreAsciiCase c col

/-- The lines of two outputs together; without ALL, each line once. -/
def unionOutput (leftRes rightRes : Bytes) (all : Bool) : Bytes :=
  let (header, rows₁) := parseFormattedTable leftRes
  let (_, rows₂) := parseFormattedTable rightRes
  let rows := rows₁ ++ rows₂
  formatLines header (if all then rows else rows.reverse.dedup.reverse)

/-- The lines of the main query whose cell is the first cell of a line of the subquery. -/
def inSubqueryOutput (column subRes mainRes : Bytes) : Except SqlFail Bytes :=
  let allowed := (parseFormattedTable subRes).2.filterMap fun row => (lineCells row).head?
  let (header, mainRows) := parseFormattedTable mainRes
  match headerPosition (lineCells header) column with
  | none => .error (.sql (.noColumn column))
  | some colIdx => .ok (formatLines header (mainRows.filter fun row =>
    match (lineCells row)[colIdx]? with
    | some cell => decide (cell ∈ allowed)
    | none => false))

/-- The order of the window function. Two numbers that cannot be compared make it panic. -/
def windowCompare (partIdx ordIdx : Nat) (a b : Row) : Except SqlFail Ordering :=
  let pa := a[partIdx]?.getD []
  let pb := b[partIdx]?.getD []
  if pa = pb then
    let oa := a[ordIdx]?.getD []
    let ob := b[ordIdx]?.getD []
    match h.parseF64 oa, h.parseF64 ob with
    | some na, some nb => (h.cmpF64 na nb).elim (.error (.db .panic)) .ok
    | _, _ => .ok (compareOfLessAndEq oa ob)
  else .ok (compareOfLessAndEq pa pb)

/-- Number the rows of each partition. -/
def numberRows (partIdx : Nat) (currentPart : Bytes) (rowNum : Nat) : List Row → List Row
  | [] => []
  | row :: rows =>
    let partVal := row[partIdx]?.getD []
    let n := if partVal = currentPart then rowNum else 1
    (row ++ [decimal n]) :: numberRows partIdx partVal (n + 1) rows

/-- The output of the window function, from that of the query. -/
def windowOutput (partitionBy orderBy mainRes : Bytes) : Except SqlFail Bytes := do
  let (header, mainRows) := parseFormattedTable mainRes
  let partIdx := (headerPosition (lineCells header) partitionBy).getD 0
  let ordIdx := (headerPosition (lineCells header) orderBy).getD 0
  let rows ← sortBy (windowCompare h partIdx ordIdx) (mainRows.map lineCells)
  let numbered := numberRows partIdx [] 1 rows
  pure (rule ++ header ++ " | row_number\n" ++ rule ++ numbered.flatMap tableLine ++
    rule ++ rowsInSet numbered.length)

/-- The output of SHOW. -/
def showOutput (header : Bytes) (names : List Bytes) (what : Bytes) : Bytes :=
  rule ++ tableLine [header] ++ rule ++ names.flatMap (fun n => tableLine [n]) ++ rule ++
    decimal names.length ++ what

/-! ## Statements -/

/-- `Executor::execute`. -/
def execute : Statement → Sql Bytes
  | .createUser username password => do
    let pwdHash := password.map fun p => "md5" ++ h.md5 (p ++ username)
    CatalogManager.createUser h username pwdHash false
    pure "CREATE ROLE"
  | .begin => begin
  | .commit => commit
  | .rollback => rollback
  | .createSchema schemaName => do
    CatalogManager.createSchema h schemaName
    pure ("Query OK, schema " ++ quoted schemaName ++ " created.")
  | .showSchemas => do
    let schemas ← listSchemas
    pure (showOutput "Schemas" schemas " schema(s) in set.")
  | .createTable tableName columns => createTable h tableName columns
  | .createIndex indexName tableName columns => createIndex indexName tableName columns
  | .insert tableName valuesList => insert h tableName valuesList
  | .withQuery cteName cteQuery mainQuery => do
    let cteRes ← execute cteQuery
    let (header, rows) := parseFormattedTable cteRes
    -- the result of the query becomes a table of texts
    let _ ← createTable h cteName ((lineCells header).map fun c => c ++ " TEXT")
    Client.forEach (fun row => do
      let _ ← insert h cteName [lineCells row]
      pure ()) rows
    let mainRes ← execute mainQuery
    let _ ← dropTable h cteName
    pure mainRes
  | .union left right all => do
    let leftRes ← execute left
    let rightRes ← execute right
    pure (unionOutput leftRes rightRes all)
  | .selectInSubquery tableName column subquery => do
    let subRes ← execute subquery
    let mainRes ← selectAll h tableName
    Sql.lift (inSubqueryOutput column subRes mainRes)
  | .selectWindow tableName partitionBy orderBy => do
    let mainRes ← selectAll h tableName
    Sql.lift (windowOutput h partitionBy orderBy mainRes)
  | .select tableName whereClause orderBy limitOffset =>
    select h tableName whereClause orderBy limitOffset
  | .selectJoin leftTable rightTable leftCol rightCol isLeftJoin =>
    selectJoin h leftTable rightTable leftCol rightCol isLeftJoin
  | .selectGroupAggregate groupCol func aggCol tableName whereClause havingClause =>
    selectGroupAggregate h groupCol func aggCol tableName whereClause havingClause
  | .selectRange tableName column op val => selectRange h tableName column op val
  | .selectAggregate func column tableName whereClause =>
    selectAggregate h func column tableName whereClause
  | .update tableName column value whereClause => update h tableName column value whereClause
  | .delete tableName whereClause => delete h tableName whereClause
  | .alterTableAddColumn tableName columnDef => alterTableAddColumn h tableName columnDef
  | .dropTable tableName => dropTable h tableName
  | .showTables => do
    let tables ← listTables h defaultSchema
    pure (showOutput "Tables" tables " table(s) in set.")

/-- `Executor::new`: whether the default schema could be registered is not looked at. -/
def new : Client SqlFail Executor Call Call.Answer Unit := fun _ =>
  (initDefaultSchema h idle).bind fun _ => .done (.ok (), idle)

end Executor

end MagnumDB
