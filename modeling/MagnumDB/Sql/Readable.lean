import MagnumDB.Sql.Parser

/-!
# Texts that can be cut up

`Parser::parse` finds the clauses of a statement in the upper-cased copy of its text and cuts the
text itself at these places. Two things can go wrong. A place may not be between characters of the
text (`aligned`): upper case can have another length, but not in a text that is ASCII. And clauses
can be in an order that the parser does not look for: the place where a part ends is before the one
where it starts. The definitions here say, statement by statement, which places and which order
are meant.
-/

namespace MagnumDB

open Text

namespace Parser

variable (h : Host)

/-- The places are between characters. -/
def aligned (s : Bytes) (places : List Nat) : Bool := places.all (isCharBoundary s)

/-- The part between two places. -/
def between (s : Bytes) (a b : Nat) : Bytes := trim ((s.drop a).take (b - a))

/-- The part from a place on. -/
def behind (s : Bytes) (a : Nat) : Bytes := trim (s.drop a)

/-- The first opening parenthesis is before the last closing one. -/
def parensInOrder (s : Bytes) : Bool :=
  (findText "(" s).all fun p => (rfind 41 s).all fun e => decide (p < e)

/-! ## Clauses -/

def readsWhere (cond : Bytes) : Bool := (findText " IN " (h.toUppercase cond)).all fun i => aligned cond [i]

def readsTable (rest : Bytes) : Bool :=
  (findText "WHERE" (h.toUppercase rest)).all fun w =>
    aligned rest [w, w + 5] && readsWhere h (behind rest (w + 5))

def readsOffset (limitStr : Bytes) : Bool :=
  (findText "OFFSET" (h.toUppercase limitStr)).all fun k => aligned limitStr [k, k + 6]

/-- Where ORDER BY or LIMIT begins. -/
def clausesAt (rest : Bytes) : Option Nat :=
  firstOf (findText "ORDER BY" (h.toUppercase rest)) (findText "LIMIT" (h.toUppercase rest))

def readsOrderAndLimit (rest : Bytes) : Bool :=
  ((clausesAt h rest).all fun i => aligned rest [i]) &&
    ((findText "ORDER BY" (h.toUppercase rest)).all fun o => aligned rest [o + 8]) &&
    (findText "LIMIT" (h.toUppercase rest)).all fun l =>
      aligned rest [l, l + 5] && readsOffset h (behind rest (l + 5))

/-! ## SELECT -/

/-- ON is behind JOIN. -/
def readsJoin (rest : Bytes) : Bool :=
  let upperRest := h.toUppercase rest
  let joinKw := if contains "LEFT JOIN" upperRest then "LEFT JOIN" else "JOIN"
  let len := (ofString joinKw).length
  (findText joinKw upperRest).all fun j =>
    aligned rest [j] && (findText " ON " upperRest).all fun on =>
      decide (j + len ≤ on) && aligned rest [j + len, on, on + 4]

/-- The aggregate of a GROUP BY. -/
def readsGroupTarget (target before : Bytes) : Bool :=
  match (splitOn 44 target).map trim with
  | [_, aggTarget] =>
    let aggPart := h.toUppercase aggTarget
    (findText "(" aggPart).all fun f =>
      let colEnd := (rfind 41 aggPart).getD aggPart.length
      decide (f < colEnd) && aligned aggTarget [f + 1, colEnd] && readsTable h before
  | _ => true

/-- Without an operator in HAVING, the aggregate is not looked at. -/
def readsGroup (target rest : Bytes) (gb : Nat) : Bool :=
  aligned rest [gb, gb + 8] &&
    ((findText "HAVING" (h.toUppercase (behind rest (gb + 8)))).all fun k =>
      aligned (behind rest (gb + 8)) [k, k + 6]) &&
    (((findText "HAVING" (h.toUppercase (behind rest (gb + 8)))).any fun k =>
        (findOp [">=", "<=", ">", "<", "="] (behind (behind rest (gb + 8)) (k + 6))).isNone) ||
      readsGroupTarget h target (between rest 0 gb))

/-- ORDER BY is behind PARTITION BY. -/
def overInOrder (clause : Bytes) : Bool :=
  (findText "PARTITION BY " clause).all fun p =>
    (findText "ORDER BY " clause).all fun o => decide (p + 13 ≤ o)

/-- There are parentheses behind OVER. -/
def readsWindow (upperTarget : Bytes) : Bool :=
  (findText "OVER" upperTarget).all fun o =>
    (findText "(" (upperTarget.drop o)).any fun p =>
      (rfind 41 (upperTarget.drop (p + o))).any fun e =>
        overInOrder (between upperTarget (p + o + 1) (e + (p + o)))

def readsAggregate (target rest : Bytes) : Bool :=
  (findText "(" target).isSome && parensInOrder target && readsTable h rest

/-- The query of `IN (SELECT …)`. -/
def readsSubquery (readable : Bytes → Bool) (val : Bytes) : Bool :=
  if startsWith "IN (SELECT" (h.toUppercase val) && (h.toUppercase val).getLast? == some 41 then
    decide (4 ≤ val.length - 1) && aligned val [4, val.length - 1] &&
      readable (between val 4 (val.length - 1))
  else true

def readsCondition (readable : Bytes → Bool) (main : Bytes) : Bool :=
  (findText "WHERE" (h.toUppercase main)).all fun w =>
    aligned main [w, w + 5] &&
      ((findOp [">=", "<=", ">", "<"] (behind main (w + 5))).isSome ||
        (readsWhere h (behind main (w + 5)) &&
          (parseWhereEquality h (behind main (w + 5))).toOption.all fun r => readsSubquery h readable r.2))

def readsPlain (readable : Bytes → Bool) (rest : Bytes) : Bool :=
  readsOrderAndLimit h rest &&
    readsCondition h readable ((clausesAt h rest).elim rest (between rest 0))

def readsSelect (readable : Bytes → Bool) (sql : Bytes) : Bool :=
  (findText "FROM" (h.toUppercase sql)).all fun f =>
    let target := between sql 6 f
    let rest := behind sql (f + 4)
    aligned sql [6, f, f + 4] &&
      (if contains " JOIN " (h.toUppercase rest) then readsJoin h rest
      else
        match findText "GROUP BY" (h.toUppercase rest) with
        | some gb => readsGroup h target rest gb
        | none =>
          if startsWith "ROW_NUMBER() OVER" (h.toUppercase target) then
            readsWindow (h.toUppercase target)
          else if startsWith "COUNT(" (h.toUppercase target) || startsWith "SUM(" (h.toUppercase target) ||
              startsWith "AVG(" (h.toUppercase target) then readsAggregate h target rest
          else readsPlain h readable rest)

/-! ## The other statements -/

def readsAlterTable (sql : Bytes) : Bool :=
  if !startsWith "ALTER TABLE " (h.toUppercase sql) then true
  else
    let remaining := trim ((splitN 32 2 (behind sql 12))[1]?.getD [])
    aligned sql [12] &&
      (if startsWith "ADD COLUMN " (h.toUppercase remaining) then aligned remaining [11]
      else if startsWith "ADD " (h.toUppercase remaining) then aligned remaining [4]
      else true)

def readsCreateTable (sql : Bytes) : Bool := (splitN 32 3 sql)[2]?.all parensInOrder

def readsCreateIndex (sql : Bytes) : Bool :=
  (findText " ON " (h.toUppercase sql)).all fun on =>
    aligned sql [12, on, on + 4] && parensInOrder (behind sql (on + 4))

def readsInsert (sql : Bytes) : Bool :=
  (findText "VALUES" (h.toUppercase sql)).all fun v => aligned sql [11, v, v + 6]

/-- WHERE is behind SET. -/
def readsUpdate (sql : Bytes) : Bool :=
  (findText "SET" (h.toUppercase sql)).all fun s =>
    aligned sql [6, s, s + 3] && (findText "WHERE" (h.toUppercase sql)).all fun w =>
      decide (s + 3 ≤ w) && aligned sql [w, w + 5] && readsWhere h (behind sql (w + 5))

def readsDelete (sql : Bytes) : Bool := aligned sql [11] && readsTable h sql

/-- There is a name before AS, and the parenthesis behind it is closed. The second query is looked at
only if the first one is accepted. -/
def readsWith (readable accepted : Bytes → Bool) (sql : Bytes) : Bool :=
  (findText " AS " (h.toUppercase sql)).all fun a =>
    decide (5 ≤ a) && aligned sql [5, a] && (findText "(" ((h.toUppercase sql).drop a)).all fun p =>
      let close := closingParen 0 (a + p) (sql.drop (a + p))
      aligned sql [a + p] && decide (a + p < close) && readable (between sql (a + p + 1) close) &&
        (!accepted (between sql (a + p + 1) close) || readable (behind sql (close + 1)))

/-- The right side of a UNION. -/
def unionRight (right : Bytes) : Bytes :=
  if startsWith "ALL " (h.toUppercase right) then behind right 4 else right

def readsUnion (readable accepted : Bytes → Bool) (sql : Bytes) (u : Nat) : Bool :=
  aligned sql [u, u + 7] &&
    (!startsWith "ALL " (h.toUppercase (behind sql (u + 7))) || aligned (behind sql (u + 7)) [4]) &&
    readable (between sql 0 u) &&
    (!accepted (between sql 0 u) || readable (unionRight h (behind sql (u + 7))))

def readsByKeyword (readable : Bytes → Bool) (sql upperSql : Bytes) : Bool :=
  if startsWith "CREATE USER" upperSql then true
  else if startsWith "CREATE SCHEMA" upperSql then aligned sql [13]
  else if startsWith "CREATE INDEX" upperSql then readsCreateIndex h sql
  else if startsWith "CREATE TABLE" upperSql then readsCreateTable sql
  else if startsWith "INSERT INTO" upperSql then readsInsert h sql
  else if startsWith "SELECT" upperSql then readsSelect h readable sql
  else if startsWith "UPDATE" upperSql then readsUpdate h sql
  else if startsWith "DELETE FROM" upperSql then readsDelete h sql
  else if startsWith "ALTER TABLE" upperSql then readsAlterTable h sql
  else if startsWith "DROP TABLE" upperSql then aligned sql [10]
  else true

/-- The text can be cut up, and so can its parts down to some depth. -/
def readableWithin : Nat → Bytes → Bool
  | 0, _ => true
  | depth + 1, sql =>
    let sql := trimEndMatches (· == 59) (trim sql)
    let accepted := fun s => (parseWithin h depth s).isOk
    if startsWith "WITH " (h.toUppercase sql) then readsWith h (readableWithin depth) accepted sql
    else
      match findText " UNION " (h.toUppercase sql) with
      | some u => readsUnion h (readableWithin depth) accepted sql u
      | none => readsByKeyword h (readableWithin depth) sql (h.toUppercase sql)

/-- The text can be cut up, and so can the texts of its queries. -/
def readable (sql : Bytes) : Bool := readableWithin h (sql.length + 1) sql

end Parser

end MagnumDB
