import MagnumDB.Sql.Iterators

/-!
# The hash operators as iterators

`HashJoinExec` and `HashGroupAggregateExec` of `src/sql/volcano.rs`. A `HashMap` is the function
that says what it has under a key; nothing goes through one in its own order.
-/

namespace MagnumDB

open Text Cursor

namespace ExecutionPlan

variable {σ τ : Type}

/-! ## Joins -/

/-- `hash_table.entry(key).or_default().push(right_row)`. -/
def buildRound (rightKeyIdx : Nat) (row : Row) (table : Bytes → Option (List Row)) :
    Bytes → Option (List Row) :=
  match row[rightKeyIdx]? with
  | some key => Function.update table key (some ((table key).getD [] ++ [row]))
  | none => table

/-- One left row is joined. -/
def probeRound (leftKeyIdx : Nat) (joinType : JoinType) (rightNumCols : Nat)
    (table : Bytes → Option (List Row)) (row : Row) (rows : List Row) : List Row :=
  match row[leftKeyIdx]? with
  | some key =>
    match table key with
    | some matching => matching.foldl (fun rows r => rows ++ [row ++ r]) rows
    | none =>
      if joinType = .left then rows ++ [row ++ List.replicate rightNumCols (ofString "NULL")]
      else rows
  | none => rows

/-- A call of the left child of a join. -/
def Kept.onLeft {α : Type} (x : Prog Fail σ α) : Prog Fail (Kept (σ × τ)) α :=
  Kept.onChild (Prog.zoom Prod.fst (fun c t => (c, t.2)) x)

/-- A call of the right child of a join. -/
def Kept.onRight {α : Type} (x : Prog Fail τ α) : Prog Fail (Kept (σ × τ)) α :=
  Kept.onChild (Prog.zoom Prod.snd (fun c t => (t.1, c)) x)

/-- `HashJoinExec`. -/
def hashJoinExec (left : ExecutionPlan σ) (right : ExecutionPlan τ) (leftKeyIdx rightKeyIdx : Nat)
    (joinType : JoinType) (rightNumCols : Nat) : ExecutionPlan (Kept (σ × τ)) where
  open_ fuel := do
    Kept.onLeft (left.open_ fuel)
    Kept.onRight (right.open_ fuel)
    Prog.modify fun t => { t with resultRows := [], cursor := 0 }
    let table ← Kept.onRight (whileSome .outOfFuel right.next
      (fun row table => (false, buildRound rightKeyIdx row table)) fuel fun _ => none)
    let rows ← Kept.onLeft (whileSome .outOfFuel left.next
      (fun row rows => (false, probeRound leftKeyIdx joinType rightNumCols table row rows)) fuel [])
    Prog.modify fun t => { t with resultRows := rows }
  next _ := Kept.next
  close fuel := do
    Kept.onLeft (left.close fuel)
    Kept.onRight (right.close fuel)
    Prog.modify fun t => { t with cursor := t.resultRows.length }

/-! ## Groups -/

/-- `groups` and `group_keys`. -/
structure Groups (F : Type) where
  groups : Bytes → Option (Nat × F)
  groupKeys : List Bytes

/-- One row is counted. A key that is not in the map yet is pushed by `or_insert_with`. -/
def groupRound (h : Host) (groupColIdx : Nat) (aggFunc : AggregateFunc) (row : Row)
    (g : Groups h.F64) : Groups h.F64 :=
  match row[groupColIdx]? with
  | some key =>
    let entry := (g.groups key).getD (0, h.zeroF64)
    { groups := Function.update g.groups key (some (entry.1 + 1, aggFunc.add h row entry.2))
      groupKeys := if (g.groups key).isNone then g.groupKeys ++ [key] else g.groupKeys }
  | none => g

/-- The loop over the keys at the end of `open`. -/
def groupRows (h : Host) (aggFunc : AggregateFunc) (havingOpVal : Option (Bytes × Bytes))
    (g : Groups h.F64) : List Row :=
  g.groupKeys.foldl (fun rows key =>
    match g.groups key with
    | some (count, sum) =>
      let aggVal := aggFunc.resultStr h count sum
      if passesHaving h aggVal havingOpVal then rows ++ [[key, aggVal]] else rows
    | none => rows) []

/-- `HashGroupAggregateExec`. -/
def hashGroupAggregateExec (child : ExecutionPlan σ) (h : Host) (groupColIdx : Nat)
    (aggFunc : AggregateFunc) (havingOpVal : Option (Bytes × Bytes)) : ExecutionPlan (Kept σ) where
  open_ fuel := do
    Kept.onChild (child.open_ fuel)
    Prog.modify fun t => { t with resultRows := [], cursor := 0 }
    let g ← Kept.onChild (whileSome .outOfFuel child.next
      (fun row g => (false, groupRound h groupColIdx aggFunc row g)) fuel ⟨fun _ => none, []⟩)
    Prog.modify fun t => { t with resultRows := groupRows h aggFunc havingOpVal g }
  next _ := Kept.next
  close := Kept.close child

end ExecutionPlan

end MagnumDB
