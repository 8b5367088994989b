import MagnumDB.Sql.Row

/-!
# The operators

The operators of `src/sql/volcano.rs`, each as the list of rows that it yields when it
is opened and read to its end. Sorting is by insertion, which like the sort of the
source keeps rows that compare equal in their order.
-/

namespace MagnumDB

open Text

/-- A row as the operators see it. -/
abbrev Row := List Bytes

/-- `FilterExec`. -/
def filterExec (colIdx : Nat) (targetVal : Bytes) (rows : List Row) : List Row :=
  rows.filter fun row => row[colIdx]? == some targetVal

/-! ## Sorting -/

/-- Put an element before the first one that is not less. -/
def insertBy {α ε : Type} (cmp : α → α → Except ε Ordering) (x : α) : List α → Except ε (List α)
  | [] => .ok [x]
  | y :: ys => do
    match ← cmp x y with
    | .gt => pure (y :: (← insertBy cmp x ys))
    | _ => pure (x :: y :: ys)

/-- `sort_by`. -/
def sortBy {α ε : Type} (cmp : α → α → Except ε Ordering) : List α → Except ε (List α)
  | [] => .ok []
  | x :: xs => do insertBy cmp x (← sortBy cmp xs)

/-- The comparison of `SortExec`: by number if both cells are numbers, else by bytes. -/
def compareCells (h : Host) (a b : Bytes) : Ordering :=
  match h.parseF64 a, h.parseF64 b with
  | some x, some y => (h.cmpF64 x y).getD .eq
  | _, _ => compareOfLessAndEq a b

/-- `SortExec`. -/
def sortExec (h : Host) (sortColIdx : Nat) (isDesc : Bool) (rows : List Row) :
    Except SqlFail (List Row) :=
  sortBy (fun a b =>
    let ord := compareCells h (a[sortColIdx]?.getD []) (b[sortColIdx]?.getD [])
    .ok (if isDesc then ord.swap else ord)) rows

/-- `LimitOffsetExec`. -/
def limitOffsetExec (limit : Option Nat) (offset : Nat) (rows : List Row) : List Row :=
  match limit with
  | some n => (rows.drop offset).take n
  | none => rows.drop offset

/-! ## Aggregates -/

inductive AggregateFunc where
  | count
  | sum (colIdx : Nat)
  | avg (colIdx : Nat)

/-- The sum of the cells of a column that are numbers. -/
def sumCells (h : Host) (colIdx : Nat) (rows : List Row) : h.F64 :=
  rows.foldl (fun sum row =>
    match row[colIdx]?.bind h.parseF64 with
    | some val => h.addF64 sum val
    | none => sum) h.zeroF64

/-- The result over some rows. -/
def AggregateFunc.result (h : Host) (rows : List Row) : AggregateFunc → Bytes
  | .count => decimal rows.length
  | .sum colIdx => h.showF64 (sumCells h colIdx rows)
  | .avg colIdx =>
    if rows.isEmpty then "0"
    else h.showF64 (h.divF64 (sumCells h colIdx rows) rows.length)

/-- `AggregateExec`. -/
def aggregateExec (h : Host) (func : AggregateFunc) (rows : List Row) : List Row :=
  [[func.result h rows]]

/-- A comparison by its name, on numbers. -/
def compareByName (ord : Option Ordering) (op : Bytes) : Option Bool :=
  if op = ">=" then some (ord == some .gt || ord == some .eq)
  else if op = "<=" then some (ord == some .lt || ord == some .eq)
  else if op = ">" then some (ord == some .gt)
  else if op = "<" then some (ord == some .lt)
  else none

/-- The HAVING clause of `HashGroupAggregateExec`: it passes unless both sides are numbers. -/
def passesHaving (h : Host) (aggVal : Bytes) : Option (Bytes × Bytes) → Bool
  | none => true
  | some (op, targetStr) =>
    match h.parseF64 targetStr, h.parseF64 aggVal with
    | some target, some agg =>
      if op = "=" then h.nearF64 agg target
      else (compareByName (h.cmpF64 agg target) op).getD true
    | _, _ => true

/-- `HashGroupAggregateExec`: one row for each value of the group column, in the order in which
the values come up. -/
def hashGroupAggregateExec (h : Host) (groupColIdx : Nat) (aggFunc : AggregateFunc)
    (havingOpVal : Option (Bytes × Bytes)) (rows : List Row) : List Row :=
  let keys := (rows.filterMap fun row => row[groupColIdx]?).reverse.dedup.reverse
  keys.filterMap fun key =>
    let aggVal := aggFunc.result h (rows.filter fun row => row[groupColIdx]? == some key)
    if passesHaving h aggVal havingOpVal then some [key, aggVal] else none

/-! ## Joins -/

inductive JoinType where
  | inner
  | left
  deriving DecidableEq

/-- `HashJoinExec`. -/
def hashJoinExec (leftKeyIdx rightKeyIdx : Nat) (joinType : JoinType) (rightNumCols : Nat)
    (leftRows rightRows : List Row) : List Row :=
  leftRows.flatMap fun l =>
    match l[leftKeyIdx]? with
    | none => []
    | some key =>
      let matching := rightRows.filter fun r => r[rightKeyIdx]? == some key
      if matching.isEmpty then
        if joinType = .left then [l ++ List.replicate rightNumCols (ofString "NULL")] else []
      else matching.map fun r => l ++ r

end MagnumDB
