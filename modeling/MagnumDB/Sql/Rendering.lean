import MagnumDB.Lib.Words
import MagnumDB.Sql.ParserText

/-!
# Statements as texts

Statements of names and numbers, and the words of their texts with all optional clauses. The
parser finds the clauses by searching for keywords in the whole text, so a name that has a
keyword inside can be taken for it; `apart` says where that does not happen.
-/

namespace MagnumDB

open Text

/-! ## Names and numbers -/

def isLetter (b : UInt8) : Bool := (65 ≤ b && b ≤ 90) || (97 ≤ b && b ≤ 122)

def isDigitByte (b : UInt8) : Bool := 48 ≤ b && b ≤ 57

def isNameByte (b : UInt8) : Bool := isLetter b || isDigitByte b || b == 95

def isNumberByte (b : UInt8) : Bool := isDigitByte b || b == 43 || b == 45 || b == 46

/-- The words that have a meaning in statements. -/
def keywords : List Bytes :=
  ["ADD", "ALL", "ALTER", "AS", "ASC", "AVG", "BEGIN", "BY", "COLUMN", "COMMIT", "COUNT", "CREATE",
    "DEFAULT", "DELETE", "DESC", "DROP", "FROM", "GROUP", "HAVING", "IN", "INDEX", "INSERT", "INTO",
    "JOIN", "KEY", "LEFT", "LIMIT", "NOT", "NULL", "OFFSET", "ON", "ORDER", "OVER", "PARTITION",
    "PASSWORD", "PRIMARY", "ROLLBACK", "SCHEMA", "SCHEMAS", "SELECT", "SET", "SHOW", "SUM", "TABLE",
    "TABLES", "UNION", "UNIQUE", "UPDATE", "USER", "VALUES", "WHERE", "WITH"].map ofString

/-- A text in upper case, as far as it is ASCII. -/
def upper (s : Bytes) : Bytes := s.map asciiUpper

/-- A name: ASCII letters, digits and underscores, a letter first, and not a keyword. -/
def isName (s : Bytes) : Bool :=
  s.head?.any isLetter && s.all isNameByte && !keywords.contains (upper s)

/-- A number: digits, with signs and points. -/
def isNumber (s : Bytes) : Bool := !s.isEmpty && s.all isNumberByte

/-! ## Texts -/

/-- A statement of names and numbers. -/
inductive Rendering where
  | update (t c v : Bytes) (cond : Option (Bytes × Bytes))
  | delete (t : Bytes) (cond : Option (Bytes × Bytes))
  | insert (t v w : Bytes)
  | createIndex (c t d : Bytes)
  | select (t : Bytes) (cond : Option (Bytes × Bytes)) (order : Option (Bytes × Bool))
      (limit : Option (Nat × Option Nat))

/-- The words of `WHERE d = w`. -/
def condWords : Option (Bytes × Bytes) → List Bytes
  | none => []
  | some (d, w) => ["WHERE", d, "=", w]

/-- The words of `ORDER BY c [DESC]`. -/
def orderWords : Option (Bytes × Bool) → List Bytes
  | none => []
  | some (c, isDesc) => [ofString "ORDER", "BY", c] ++ (if isDesc then [ofString "DESC"] else [])

/-- The words of `LIMIT n [OFFSET m]`. -/
def limitWords : Option (Nat × Option Nat) → List Bytes
  | none => []
  | some (n, none) => ["LIMIT", decimal n]
  | some (n, some m) => ["LIMIT", decimal n, "OFFSET", decimal m]

namespace Rendering

def words : Rendering → List Bytes
  | update t c v cond =>
    [ofString "UPDATE", t, "SET", c, "=", v] ++ condWords cond
  | delete t cond => [ofString "DELETE", "FROM", t] ++ condWords cond
  | insert t v w =>
    ["INSERT", "INTO", t, "VALUES", 40 :: (v ++ [44]), w ++ [41]]
  | createIndex c t d =>
    ["CREATE", "INDEX", c, "ON", t, 40 :: (d ++ [41])]
  | select t cond order limit =>
    [ofString "SELECT", "*", "FROM", t] ++ condWords cond ++ orderWords order ++
      limitWords limit

def text (r : Rendering) : Bytes := spaced r.words

/-- The statement that the text stands for. -/
def statement : Rendering → Statement
  | update t c v cond => .update t c v cond
  | delete t cond => .delete t cond
  | insert t v w => .insert t [[v, w]]
  | createIndex c t d => .createIndex c t [d]
  | select t cond order limit => .select t cond order (limit.map fun l => (l.1, l.2.getD 0))

/-- Names are names, and numbers are numbers. -/
def wellFormed : Rendering → Bool
  | update t c v cond =>
    isName t && isName c && isNumber v && cond.all fun p => isName p.1 && isNumber p.2
  | delete t cond => isName t && cond.all fun p => isName p.1 && isNumber p.2
  | insert t v w => isName t && isNumber v && isNumber w
  | createIndex c t d => isName c && isName t && isName d
  | select t cond order _ =>
    isName t && (cond.all fun p => isName p.1 && isNumber p.2) && order.all fun p => isName p.1

/-- The keyword is nowhere inside the name. -/
def lacks (kw : String) (s : Bytes) : Bool := !contains (ofString kw) (upper s)

/-- No name hides a clause, and the numbers of LIMIT and OFFSET are those of the machine. -/
def apart : Rendering → Bool
  | update t c _ _ => lacks "SET" t && lacks "WHERE" t && lacks "WHERE" c
  | delete t _ => lacks "WHERE" t
  | insert t _ _ => lacks "VALUES" t
  | createIndex _ _ _ => true
  | select t cond order limit =>
    lacks "WHERE" t && lacks "LIMIT" t && (cond.all fun p => lacks "LIMIT" p.1) &&
      (order.all fun p => lacks "LIMIT" p.1) &&
      limit.all fun l => decide (l.1 < 2 ^ 64) && l.2.all fun m => decide (m < 2 ^ 64)

end Rendering

end MagnumDB
