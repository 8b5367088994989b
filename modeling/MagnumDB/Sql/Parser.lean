import MagnumDB.Sql.Types

/-!
# The parser

`Parser::parse` of `src/sql/parser.rs`. Keywords are looked for in the text in upper
case, and the positions are used in the text as it is: a slice that is out of range
there, or inside a character, makes the program panic.

The parser calls itself for the parts of WITH, UNION and IN, which are shorter than the
whole text, so its length is enough fuel.
-/

namespace MagnumDB

open Text

/-- The errors of the parser. -/
inductive ParseError where
  | missingAs
  | missingParenInWith
  | unrecognized
  | reservedIdentifier (name : Bytes)
  | emptyIdentifier
  | expectedAlterTable
  | unsupportedAlter
  | createUser
  | createTable
  | missingColumns
  | missingOnInIndex
  | missingOpenInIndex
  | missingCloseInIndex
  | missingValues
  | noTuple
  | missingFrom
  | missingOnInJoin
  | groupByTarget
  | groupByAggregate
  | missingSet
  | onCondition
  | havingCondition (cond : Bytes)
  | unterminated
  | expectedEquals (expr : Bytes)
  deriving DecidableEq

/-- How parsing can end without a statement. -/
inductive ParseFail where
  | error (e : ParseError)
  | panic
  | outOfFuel
  deriving DecidableEq

/-- `RESERVED_PREFIX`. -/
def reservedPrefix : Bytes := "__"

abbrev Parse (α : Type) : Type := Except ParseFail α

namespace Parser

variable (h : Host)

/-! ## Slices -/

def fail {α : Type} (e : ParseError) : Parse α := .error (.error e)

/-- `ok_or_else`. -/
def need {α : Type} (o : Option α) (e : ParseError) : Parse α := o.elim (fail e) .ok

/-- `unwrap`. -/
def unwrap {α : Type} (o : Option α) : Parse α := o.elim (.error .panic) .ok

/-- `s[a..b]`. -/
def cut (s : Bytes) (a b : Nat) : Parse Bytes := unwrap (slice? s a b)

/-- `s[a..]`. -/
def cutFrom (s : Bytes) (a : Nat) : Parse Bytes := cut s a s.length

/-- `s[a..b].trim()`. -/
def cutTrim (s : Bytes) (a b : Nat) : Parse Bytes := (cut s a b).map trim

/-- `s[a..].trim()`. -/
def cutTrimFrom (s : Bytes) (a : Nat) : Parse Bytes := (cutFrom s a).map trim

/-- Without the quotation marks around it. -/
def unquote (s : Bytes) : Bytes := trimMatches (· == 39) s

def startsWith (pre : String) (s : Bytes) : Bool := (ofString pre).isPrefixOf s

def findText (needle : String) (s : Bytes) : Option Nat := find (ofString needle) s

/-! ## Expressions -/

/-- `validate_identifier`. -/
def validateIdentifier (name : Bytes) : Parse Unit :=
  let clean := trim name
  if reservedPrefix.isPrefixOf clean then fail (.reservedIdentifier clean)
  else if clean.isEmpty then fail .emptyIdentifier
  else .ok ()

def validateIdentifiers : List Bytes → Parse Unit
  | [] => .ok ()
  | name :: names => do
    validateIdentifier name
    validateIdentifiers names

/-- `parse_assignment`. -/
def parseAssignment (expr : Bytes) : Parse (Bytes × Bytes) := do
  let eqIdx ← need (findText "=" expr) (.expectedEquals expr)
  let col ← cutTrim expr 0 eqIdx
  let val ← cutTrimFrom expr (eqIdx + 1)
  pure (col, unquote val)

/-- `parse_where_equality`. -/
def parseWhereEquality (cond : Bytes) : Parse (Bytes × Bytes) :=
  match findText " IN " (h.toUppercase cond) with
  | some inIdx => do
    let col ← cutTrim cond 0 inIdx
    let val ← cutTrimFrom cond inIdx
    pure (col, val)
  | none => parseAssignment cond

/-- The first of some operators that occurs, and where. -/
def findOp (ops : List String) (cond : Bytes) : Option (Bytes × Nat) :=
  ops.findSome? fun op => (findText op cond).map fun idx => (ofString op, idx)

/-- `parse_having_condition`. -/
def parseHavingCondition (cond : Bytes) : Parse (Bytes × Bytes) :=
  match findOp [">=", "<=", ">", "<", "="] cond with
  | some (op, opIdx) => do
    let val ← cutTrimFrom cond (opIdx + op.length)
    pure (op, val)
  | none => fail (.havingCondition cond)

/-- `extract_column_name`. -/
def extractColumnName (full : Bytes) : Bytes :=
  match findText "." full with
  | some dotIdx => trim (full.drop (dotIdx + 1))
  | none => trim full

/-- `parse_join_condition`. -/
def parseJoinCondition (cond : Bytes) : Parse (Bytes × Bytes) :=
  match splitOn 61 cond with
  | [left, right] => .ok (extractColumnName (trim left), extractColumnName (trim right))
  | _ => fail .onCondition

/-- The loop of `split_values_respecting_quotes`, with the value read so far backwards. -/
def splitValues : Bool → Bytes → Bytes → Parse (List Bytes)
  | inQuotes, current, [] =>
    if inQuotes then fail .unterminated else .ok [trim current.reverse]
  | true, current, [ch] =>
    if ch = 39 then splitValues false current [] else splitValues true (ch :: current) []
  | true, current, ch :: next :: rest =>
    if ch = 39 then
      if next = 39 then splitValues true (39 :: current) rest
      else splitValues false current (next :: rest)
    else splitValues true (ch :: current) (next :: rest)
  | false, current, ch :: rest =>
    if ch = 39 then splitValues true current rest
    else if ch = 44 then do
      let values ← splitValues false [] rest
      pure (trim current.reverse :: values)
    else splitValues false (ch :: current) rest

/-- `split_values_respecting_quotes`. -/
def splitValuesRespectingQuotes (input : Bytes) : Parse (List Bytes) := splitValues false [] input

/-- The earlier one of two positions. -/
def firstOf : Option Nat → Option Nat → Option Nat
  | some a, some b => some (min a b)
  | some a, none => some a
  | none, o => o

/-- The ORDER BY clause of `parse_order_by_and_limit`. -/
def parseOrderBy (rest : Bytes) (orderIdx limitIdx : Option Nat) :
    Parse (Option (Bytes × Bool)) :=
  match orderIdx with
  | none => .ok none
  | some oIdx => do
    let endIdx := (limitIdx.filter fun l => decide (oIdx < l)).getD rest.length
    let orderStr ← cutTrim rest (oIdx + 8) endIdx
    let parts := splitWhitespace orderStr
    pure (parts.head?.map fun col =>
      (col, (parts[1]?.map fun dir => eqIgnoreAsciiCase dir "DESC").getD false))

/-- The LIMIT clause of `parse_order_by_and_limit`. -/
def parseLimit (rest : Bytes) (limitIdx : Option Nat) : Parse (Option (Nat × Nat)) :=
  match limitIdx with
  | none => .ok none
  | some lIdx => do
    let limitStr ← cutTrimFrom rest (lIdx + 5)
    let (limitVal, offsetVal) ←
      match findText "OFFSET" (h.toUppercase limitStr) with
      | some offIdx => do
        let lPart ← cutTrim limitStr 0 offIdx
        let oPart ← cutTrimFrom limitStr (offIdx + 6)
        pure (lPart, some oPart)
      | none => pure (limitStr, none)
    pure ((parseUnsigned 64 limitVal).map fun limit =>
      (limit, (offsetVal.bind (parseUnsigned 64)).getD 0))

/-- `parse_order_by_and_limit`. -/
def parseOrderByAndLimit (rest : Bytes) :
    Parse (Bytes × Option (Bytes × Bool) × Option (Nat × Nat)) := do
  let upper := h.toUppercase rest
  let limitIdx := findText "LIMIT" upper
  let orderIdx := findText "ORDER BY" upper
  let mainPart ←
    match firstOf orderIdx limitIdx with
    | some idx => cutTrim rest 0 idx
    | none => pure rest
  let orderBy ← parseOrderBy rest orderIdx limitIdx
  let limitOffset ← parseLimit h rest limitIdx
  pure (mainPart, orderBy, limitOffset)

/-- A table and an optional WHERE clause: `rest` up to the keyword, and the condition after it. -/
def parseTableAndWhere (rest : Bytes) : Parse (Bytes × Option (Bytes × Bytes)) :=
  match findText "WHERE" (h.toUppercase rest) with
  | some whereIdx => do
    let tname ← cutTrim rest 0 whereIdx
    let cond ← cutTrimFrom rest (whereIdx + 5)
    let wc ← parseWhereEquality h cond
    pure (tname, some wc)
  | none => .ok (rest, none)

/-! ## Statements -/

/-- `parse_alter_table`. -/
def parseAlterTable (sql : Bytes) : Parse Statement :=
  if !startsWith "ALTER TABLE " (h.toUppercase sql) then fail .expectedAlterTable
  else do
    let rest ← cutTrimFrom sql 12
    let tokens := splitN 32 2 rest
    let tableName := tokens.head?.getD []
    let remaining := trim (tokens[1]?.getD [])
    let upperRemaining := h.toUppercase remaining
    if startsWith "ADD COLUMN " upperRemaining then do
      let columnDef ← cutTrimFrom remaining 11
      pure (.alterTableAddColumn tableName columnDef)
    else if startsWith "ADD " upperRemaining then do
      let columnDef ← cutTrimFrom remaining 4
      pure (.alterTableAddColumn tableName columnDef)
    else fail .unsupportedAlter

/-- `parse_create_user`. -/
def parseCreateUser (sql : Bytes) : Parse Statement := do
  let tokens := splitWhitespace sql
  let username ← need tokens[2]? .createUser
  validateIdentifier username
  let password :=
    if (tokens[3]?.map h.toUppercase) = some "WITH" ∧
        (tokens[4]?.map h.toUppercase) = some "PASSWORD" then tokens[5]?.map unquote
    else none
  pure (.createUser username password)

/-- `parse_create_schema`. -/
def parseCreateSchema (sql : Bytes) : Parse Statement := do
  let schemaName ← cutTrimFrom sql 13
  validateIdentifier schemaName
  pure (.createSchema schemaName)

/-- `parse_create_table`. -/
def parseCreateTable (sql : Bytes) : Parse Statement := do
  let tableAndCols ← need (splitN 32 3 sql)[2]? .createTable
  let parenIdx ← need (findText "(" tableAndCols) .missingColumns
  let tableName ← cutTrim tableAndCols 0 parenIdx
  let endParen := (rfind 41 tableAndCols).getD tableAndCols.length
  let colsStr ← cut tableAndCols (parenIdx + 1) endParen
  validateIdentifier tableName
  let columns := (splitOn 44 colsStr).map trim
  validateIdentifiers (columns.map fun colDef => (splitWhitespace colDef).head?.getD [])
  pure (.createTable tableName columns)

/-- `parse_create_index`. -/
def parseCreateIndex (sql : Bytes) : Parse Statement := do
  let onIdx ← need (findText " ON " (h.toUppercase sql)) .missingOnInIndex
  let indexName ← cutTrim sql 12 onIdx
  let rest ← cutTrimFrom sql (onIdx + 4)
  let parenIdx ← need (findText "(" rest) .missingOpenInIndex
  let endParen ← need (rfind 41 rest) .missingCloseInIndex
  let tableName ← cutTrim rest 0 parenIdx
  let colsRaw ← cutTrim rest (parenIdx + 1) endParen
  let columns := (splitOn 44 colsRaw).map trim
  validateIdentifier tableName
  validateIdentifiers columns
  pure (.createIndex indexName tableName columns)

/-- The loop of `parse_insert`, with the tuple read so far backwards. -/
def parseTuples : Bool → Bytes → Bytes → Parse (List (List Bytes))
  | _, _, [] => .ok []
  | inParens, current, c :: rest =>
    if c = 40 then parseTuples true [] rest
    else if c = 41 && inParens then do
      let vals ← splitValuesRespectingQuotes current.reverse
      let more ← parseTuples false current rest
      pure (vals :: more)
    else if inParens then parseTuples true (c :: current) rest
    else parseTuples false current rest

/-- `parse_insert`. -/
def parseInsert (sql : Bytes) : Parse Statement := do
  let valuesIdx ← need (findText "VALUES" (h.toUppercase sql)) .missingValues
  let tableName ← cutTrim sql 11 valuesIdx
  let valuesPart ← cutTrimFrom sql (valuesIdx + 6)
  let valuesList ← parseTuples false [] valuesPart
  if valuesList.isEmpty then fail .noTuple else pure (.insert tableName valuesList)

/-- The JOIN part of `parse_select`. -/
def parseSelectJoin (rest : Bytes) : Parse Statement := do
  let upperRest := h.toUppercase rest
  let isLeftJoin := contains "LEFT JOIN" upperRest
  let joinKw := if isLeftJoin then "LEFT JOIN" else "JOIN"
  let joinIdx ← unwrap (findText joinKw upperRest)
  let leftTable ← cutTrim rest 0 joinIdx
  let onIdx ← need (findText " ON " upperRest) .missingOnInJoin
  let rightTable ← cutTrim rest (joinIdx + (ofString joinKw).length) onIdx
  let onCond ← cutTrimFrom rest (onIdx + 4)
  let (leftCol, rightCol) ← parseJoinCondition onCond
  pure (.selectJoin leftTable rightTable leftCol rightCol isLeftJoin)

/-- The GROUP BY part of `parse_select`. -/
def parseSelectGroup (target rest : Bytes) (gbIdx : Nat) : Parse Statement := do
  let beforeGb ← cutTrim rest 0 gbIdx
  let afterGb ← cutTrimFrom rest (gbIdx + 8)
  let (groupCol, havingClause) ←
    match findText "HAVING" (h.toUppercase afterGb) with
    | some havingIdx => do
      let gcol ← cutTrim afterGb 0 havingIdx
      let havingCond ← cutTrimFrom afterGb (havingIdx + 6)
      let parsed ← parseHavingCondition havingCond
      pure (gcol, some parsed)
    | none => pure (afterGb, none)
  match (splitOn 44 target).map trim with
  | [_, aggTarget] => do
    let aggPart := h.toUppercase aggTarget
    let funcEnd ← need (findText "(" aggPart) .groupByAggregate
    let func ← cut aggPart 0 funcEnd
    let colEnd := (rfind 41 aggPart).getD aggPart.length
    let aggCol ← cutTrim aggTarget (funcEnd + 1) colEnd
    let (tableName, whereClause) ← parseTableAndWhere h beforeGb
    pure (.selectGroupAggregate groupCol func aggCol tableName whereClause havingClause)
  | _ => fail .groupByTarget

/-- The ROW_NUMBER part of `parse_select`. -/
def parseSelectWindow (upperTarget rest : Bytes) : Parse Statement := do
  let overIdx ← unwrap (findText "OVER" upperTarget)
  let afterOver ← cutFrom upperTarget overIdx
  let parenStart := (← unwrap (findText "(" afterOver)) + overIdx
  let afterParen ← cutFrom upperTarget parenStart
  let parenEnd := (← unwrap (rfind 41 afterParen)) + parenStart
  let overClause ← cutTrim upperTarget (parenStart + 1) parenEnd
  let ordIdx := findText "ORDER BY " overClause
  let partBy ←
    match findText "PARTITION BY " overClause, ordIdx with
    | some partIdx, some ord => cutTrim overClause (partIdx + 13) ord
    | some partIdx, none => cutTrimFrom overClause (partIdx + 13)
    | none, _ => pure []
  let ordBy ←
    match ordIdx with
    | some ord => cutTrimFrom overClause (ord + 9)
    | none => pure []
  pure (.selectWindow (trim rest) partBy ordBy)

/-- The aggregate part of `parse_select`. -/
def parseSelectAggregate (target rest : Bytes) : Parse Statement := do
  let funcEnd ← unwrap (findText "(" target)
  let func ← cut target 0 funcEnd
  let colEnd := (rfind 41 target).getD target.length
  let col ← cutTrim target (funcEnd + 1) colEnd
  let (tableName, whereClause) ← parseTableAndWhere h rest
  pure (.selectAggregate (h.toUppercase func) col tableName whereClause)

/-- The rest of `parse_select`: a table, conditions, an order and a limit. -/
def parseSelectPlain (parse : Bytes → Parse Statement) (rest : Bytes) : Parse Statement := do
  let (tableAndWhere, orderBy, limitOffset) ← parseOrderByAndLimit h rest
  match findText "WHERE" (h.toUppercase tableAndWhere) with
  | none => pure (.select tableAndWhere none orderBy limitOffset)
  | some whereIdx => do
    let tableName ← cutTrim tableAndWhere 0 whereIdx
    let cond ← cutTrimFrom tableAndWhere (whereIdx + 5)
    match findOp [">=", "<=", ">", "<"] cond with
    | some (op, opIdx) => do
      let col ← cutTrim cond 0 opIdx
      let val ← cutTrimFrom cond (opIdx + op.length)
      pure (.selectRange tableName col op (unquote val))
    | none => do
      let (col, val) ← parseWhereEquality h cond
      let upperVal := h.toUppercase val
      if startsWith "IN (SELECT" upperVal && upperVal.getLast? == some 41 then do
        let inner ← cutTrim val 4 (val.length - 1)
        let subquery ← parse inner
        pure (.selectInSubquery tableName col subquery)
      else pure (.select tableName (some (col, val)) orderBy limitOffset)

/-- `parse_select`. -/
def parseSelect (parse : Bytes → Parse Statement) (sql : Bytes) : Parse Statement := do
  let fromIdx ← need (findText "FROM" (h.toUppercase sql)) .missingFrom
  let target ← cutTrim sql 6 fromIdx
  let rest ← cutTrimFrom sql (fromIdx + 4)
  let upperRest := h.toUppercase rest
  if contains " JOIN " upperRest then parseSelectJoin h rest
  else
    match findText "GROUP BY" upperRest with
    | some gbIdx => parseSelectGroup h target rest gbIdx
    | none =>
      let upperTarget := h.toUppercase target
      if startsWith "ROW_NUMBER() OVER" upperTarget then parseSelectWindow upperTarget rest
      else if startsWith "COUNT(" upperTarget || startsWith "SUM(" upperTarget ||
          startsWith "AVG(" upperTarget then parseSelectAggregate h target rest
      else parseSelectPlain h parse rest

/-- `parse_update`. -/
def parseUpdate (sql : Bytes) : Parse Statement := do
  let upperSql := h.toUppercase sql
  let setIdx ← need (findText "SET" upperSql) .missingSet
  let tableName ← cutTrim sql 6 setIdx
  let (setExpr, whereClause) ←
    match findText "WHERE" upperSql with
    | some whereIdx => do
      let sexpr ← cutTrim sql (setIdx + 3) whereIdx
      let cond ← cutTrimFrom sql (whereIdx + 5)
      let wc ← parseWhereEquality h cond
      pure (sexpr, some wc)
    | none => do
      let sexpr ← cutTrimFrom sql (setIdx + 3)
      pure (sexpr, none)
  let (column, value) ← parseAssignment setExpr
  pure (.update tableName column value whereClause)

/-- `parse_delete`. -/
def parseDelete (sql : Bytes) : Parse Statement :=
  match findText "WHERE" (h.toUppercase sql) with
  | some whereIdx => do
    let tname ← cutTrim sql 11 whereIdx
    let cond ← cutTrimFrom sql (whereIdx + 5)
    let wc ← parseWhereEquality h cond
    pure (.delete tname (some wc))
  | none => do
    let tname ← cutTrimFrom sql 11
    pure (.delete tname none)

/-- `parse_drop_table`. -/
def parseDropTable (sql : Bytes) : Parse Statement := do
  let tableName ← cutTrimFrom sql 10
  validateIdentifier tableName
  pure (.dropTable tableName)

/-- Where the parenthesis at the beginning is closed, or 0. -/
def closingParen (parens : Int) (i : Nat) : Bytes → Nat
  | [] => 0
  | c :: rest =>
    let parens := if c = 40 then parens + 1 else if c = 41 then parens - 1 else parens
    if parens = 0 then i else closingParen parens (i + 1) rest

/-- The WITH part of `parse`. -/
def parseWith (parse : Bytes → Parse Statement) (sql upperSql : Bytes) : Parse Statement := do
  let asIdx ← need (findText " AS " upperSql) .missingAs
  let cteName ← cutTrim sql 5 asIdx
  let afterAs ← cutFrom upperSql asIdx
  let parenOpen ← need (findText "(" afterAs) .missingParenInWith
  let parenOpenIdx := asIdx + parenOpen
  let body ← cutFrom sql parenOpenIdx
  let parenCloseIdx := closingParen 0 parenOpenIdx body
  let cteQuery ← cutTrim sql (parenOpenIdx + 1) parenCloseIdx
  let mainQuery ← cutTrimFrom sql (parenCloseIdx + 1)
  let cte ← parse cteQuery
  let main ← parse mainQuery
  pure (.withQuery cteName cte main)

/-- The UNION part of `parse`. -/
def parseUnion (parse : Bytes → Parse Statement) (sql : Bytes) (unionIdx : Nat) :
    Parse Statement := do
  let leftSql ← cutTrim sql 0 unionIdx
  let rightSql ← cutTrimFrom sql (unionIdx + 7)
  let all := startsWith "ALL " (h.toUppercase rightSql)
  let rightSql ← if all then cutTrimFrom rightSql 4 else pure rightSql
  let left ← parse leftSql
  let right ← parse rightSql
  pure (.union left right all)

/-- The statements that are known by how they begin. -/
def parseByKeyword (parse : Bytes → Parse Statement) (sql upperSql : Bytes) : Parse Statement :=
  if startsWith "CREATE USER" upperSql then parseCreateUser h sql
  else if startsWith "CREATE SCHEMA" upperSql then parseCreateSchema sql
  else if startsWith "CREATE INDEX" upperSql then parseCreateIndex h sql
  else if startsWith "CREATE TABLE" upperSql then parseCreateTable sql
  else if startsWith "INSERT INTO" upperSql then parseInsert h sql
  else if startsWith "SELECT" upperSql then parseSelect h parse sql
  else if startsWith "UPDATE" upperSql then parseUpdate h sql
  else if startsWith "DELETE FROM" upperSql then parseDelete h sql
  else if startsWith "ALTER TABLE" upperSql then parseAlterTable h sql
  else if startsWith "DROP TABLE" upperSql then parseDropTable sql
  else if upperSql = "SHOW TABLES" then .ok .showTables
  else if upperSql = "SHOW SCHEMAS" then .ok .showSchemas
  else if upperSql = "BEGIN" then .ok .begin
  else if upperSql = "COMMIT" then .ok .commit
  else if upperSql = "ROLLBACK" then .ok .rollback
  else fail .unrecognized

/-- `Parser::parse`, with a bound on how deep it calls itself. -/
def parseWithin : Nat → Bytes → Parse Statement
  | 0, _ => .error .outOfFuel
  | fuel + 1, sql =>
    let sql := trimEndMatches (· == 59) (trim sql)
    let upperSql := h.toUppercase sql
    if startsWith "WITH " upperSql then parseWith (parseWithin fuel) sql upperSql
    else
      match findText " UNION " upperSql with
      | some unionIdx => parseUnion h (parseWithin fuel) sql unionIdx
      | none => parseByKeyword h (parseWithin fuel) sql upperSql

/-- `Parser::parse`. -/
def parse (sql : Bytes) : Parse Statement := parseWithin h (sql.length + 1) sql

end Parser

end MagnumDB
