import MagnumDB.Lib.Cursor
import MagnumDB.Sql.Volcano

/-!
# The operators as iterators

The trait `ExecutionPlan` of `src/sql/volcano.rs` and the operators that queries nest: each
one keeps its own fields beside the state of its child, and is opened, read and closed
through three calls. The loops over a child have fuel. The sort of the standard library is
a parameter.
-/

namespace MagnumDB

open Text Cursor

/-- The trait `ExecutionPlan`, for operators whose fields are of the type. -/
structure ExecutionPlan (σ : Type) where
  open_ : Nat → Prog Fail σ Unit
  next : Nat → Prog Fail σ (Option Row)
  close : Nat → Prog Fail σ Unit

/-- `rows[cursor]`, and the cursor behind it. -/
def nextRow (rows : List Row) (cursor : Nat) : Option Row × Nat :=
  if cursor < rows.length then (rows[cursor]?, cursor + 1) else (none, cursor)

/-- `SeqScanExec`. Its rows do not change; the state is the cursor. -/
def seqScanExec (rows : List Row) : ExecutionPlan Nat where
  open_ _ := Prog.modify fun _ => 0
  next _ := fun cursor => (.ok (nextRow rows cursor).1, (nextRow rows cursor).2)
  close _ := Prog.modify fun _ => rows.length

/-- The cell that is added to the sum, if it is a number. -/
def AggregateFunc.add (h : Host) (func : AggregateFunc) (row : Row) (sum : h.F64) : h.F64 :=
  match func with
  | .count => sum
  | .sum colIdx | .avg colIdx =>
    match row[colIdx]?.bind h.parseF64 with
    | some val => h.addF64 sum val
    | none => sum

/-- The text of the result. -/
def AggregateFunc.resultStr (h : Host) (func : AggregateFunc) (count : Nat) (sum : h.F64) : Bytes :=
  match func with
  | .count => decimal count
  | .sum _ => h.showF64 sum
  | .avg _ => if 0 < count then h.showF64 (h.divF64 sum count) else "0"

namespace ExecutionPlan

variable {σ : Type} (child : ExecutionPlan σ)

/-- `FilterExec`, which has no fields of its own that change. -/
def filterExec (colIdx : Nat) (targetVal : Bytes) : ExecutionPlan σ where
  open_ := child.open_
  next fuel := whileSome .outOfFuel child.next
    (fun row _ => if row[colIdx]? == some targetVal then (true, some row) else (false, none)) fuel none
  close := child.close

/-- What changes in an `AggregateExec`. -/
structure Aggregate (σ : Type) where
  child : σ
  executed : Bool

/-- A call of the child of an aggregate. -/
def Aggregate.onChild {α : Type} (x : Prog Fail σ α) : Prog Fail (Aggregate σ) α :=
  Prog.zoom Aggregate.child (fun c t => { t with child := c }) x

/-- `AggregateExec`. -/
def aggregateExec (h : Host) (func : AggregateFunc) : ExecutionPlan (Aggregate σ) where
  open_ fuel := do
    Aggregate.onChild (child.open_ fuel)
    Prog.modify fun t => { t with executed := false }
  next fuel := do
    let self ← Prog.get
    if self.executed then pure none
    else do
      Prog.modify fun t => { t with executed := true }
      let (count, sum) ← Aggregate.onChild (whileSome .outOfFuel child.next
        (fun row (count, sum) => (false, count + 1, func.add h row sum)) fuel
        (0, h.zeroF64))
      pure (some [func.resultStr h count sum])
  close fuel := Aggregate.onChild (child.close fuel)

/-- What changes in an operator that keeps its rows, `SortExec` or `LimitOffsetExec`. -/
structure Kept (σ : Type) where
  child : σ
  resultRows : List Row
  cursor : Nat

/-- A call of the child of such an operator. -/
def Kept.onChild {α : Type} (x : Prog Fail σ α) : Prog Fail (Kept σ) α :=
  Prog.zoom Kept.child (fun c t => { t with child := c }) x

/-- `next` of both: the rows are there already. -/
def Kept.next : Prog Fail (Kept σ) (Option Row) := fun t =>
  (.ok (nextRow t.resultRows t.cursor).1, { t with cursor := (nextRow t.resultRows t.cursor).2 })

/-- `close` of both. -/
def Kept.close (fuel : Nat) : Prog Fail (Kept σ) Unit := do
  Kept.onChild (child.close fuel)
  Prog.modify fun t => { t with cursor := t.resultRows.length }

/-- The comparison of `SortExec` on rows. -/
def compareRows (h : Host) (sortColIdx : Nat) (isDesc : Bool) (a b : Row) : Ordering :=
  let ord := compareCells h (a[sortColIdx]?.getD []) (b[sortColIdx]?.getD [])
  if isDesc then ord.swap else ord

/-- `SortExec`, with `sort_by` of the standard library. -/
def sortExec (sort : (Row → Row → Ordering) → List Row → List Row) (h : Host) (sortColIdx : Nat)
    (isDesc : Bool) : ExecutionPlan (Kept σ) where
  open_ fuel := do
    Kept.onChild (child.open_ fuel)
    Prog.modify fun t => { t with resultRows := [], cursor := 0 }
    let rows ← Kept.onChild (whileSome .outOfFuel child.next
      (fun row rows => (false, rows ++ [row])) fuel [])
    Prog.modify fun t => { t with resultRows := sort (compareRows h sortColIdx isDesc) rows }
  next _ := Kept.next
  close := Kept.close child

/-- One round of the loop of `LimitOffsetExec::open`, over `skipped`, `count` and the rows. -/
def limitOffsetRound (limit : Option Nat) (offset : Nat) (row : Row) :
    Nat × Nat × List Row → Bool × Nat × Nat × List Row
  | (skipped, count, rows) =>
    if skipped < offset then (false, skipped + 1, count, rows)
    else if limit.any (· ≤ count) then (true, skipped, count, rows)
    else (false, skipped, count + 1, rows ++ [row])

/-- `LimitOffsetExec`. The loop reads one row more than it keeps before it stops at the limit. -/
def limitOffsetExec (limit : Option Nat) (offset : Nat) : ExecutionPlan (Kept σ) where
  open_ fuel := do
    Kept.onChild (child.open_ fuel)
    Prog.modify fun t => { t with resultRows := [], cursor := 0 }
    let (_, _, rows) ← Kept.onChild (whileSome .outOfFuel child.next
      (limitOffsetRound limit offset) fuel (0, 0, []))
    Prog.modify fun t => { t with resultRows := rows }
  next _ := Kept.next
  close := Kept.close child

end ExecutionPlan

/-- The calls of the trait. -/
inductive PlanCall where
  | open_
  | next
  | close

/-- Make some calls, whatever they give. -/
def ExecutionPlan.callAll {σ : Type} (e : ExecutionPlan σ) (fuel : Nat) :
    List PlanCall → Prog Fail σ Unit
  | [] => pure ()
  | .open_ :: calls => do
    e.open_ fuel
    e.callAll fuel calls
  | .next :: calls => do
    let _ ← e.next fuel
    e.callAll fuel calls
  | .close :: calls => do
    e.close fuel
    e.callAll fuel calls

/-! ## Trees of operators -/

/-- Operators nested over a scan. -/
inductive Plan where
  | seqScan (rows : List Row)
  | filter (child : Plan) (colIdx : Nat) (targetVal : Bytes)
  | aggregate (child : Plan) (func : AggregateFunc)
  | sort (child : Plan) (sortColIdx : Nat) (isDesc : Bool)
  | limitOffset (child : Plan) (limit : Option Nat) (offset : Nat)

namespace Plan

/-- The fields of the operators of a plan that change. -/
def State : Plan → Type
  | .seqScan _ => Nat
  | .filter child _ _ => child.State
  | .aggregate child _ => ExecutionPlan.Aggregate child.State
  | .sort child _ _ => ExecutionPlan.Kept child.State
  | .limitOffset child _ _ => ExecutionPlan.Kept child.State

/-- The fields as the constructors of the operators set them. -/
def new : (p : Plan) → p.State
  | .seqScan _ => (0 : Nat)
  | .filter child _ _ => child.new
  | .aggregate child _ => { child := child.new, executed := false : ExecutionPlan.Aggregate _ }
  | .sort child _ _ => { child := child.new, resultRows := [], cursor := 0 : ExecutionPlan.Kept _ }
  | .limitOffset child _ _ =>
    { child := child.new, resultRows := [], cursor := 0 : ExecutionPlan.Kept _ }

variable (sort : (Row → Row → Ordering) → List Row → List Row) (h : Host)

/-- The operators of a plan, put together. -/
def exec : (p : Plan) → ExecutionPlan p.State
  | .seqScan rows => seqScanExec rows
  | .filter child colIdx targetVal => child.exec.filterExec colIdx targetVal
  | .aggregate child func => child.exec.aggregateExec h func
  | .sort child sortColIdx isDesc => child.exec.sortExec sort h sortColIdx isDesc
  | .limitOffset child limit offset => child.exec.limitOffsetExec limit offset

/-- The rows that a plan is for. -/
def rows : Plan → List Row
  | .seqScan rows => rows
  | .filter child colIdx targetVal => filterExec colIdx targetVal child.rows
  | .aggregate child func => aggregateExec h func child.rows
  | .sort child sortColIdx isDesc => sort (ExecutionPlan.compareRows h sortColIdx isDesc) child.rows
  | .limitOffset child limit offset => limitOffsetExec limit offset child.rows

end Plan

end MagnumDB
