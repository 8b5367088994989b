import MagnumDB.Sql.Ddl

/-!
# Changes of rows on a map

INSERT, UPDATE and DELETE each read first, then write row by row. What they read is
gathered here in a plan, a function of the map and of the executor: the rows that are
concerned, or the error with which the statement ends before it writes anything. The
rest is a loop (`onMap_insert`, `onMap_update`, `onMap_delete`).
-/

namespace MagnumDB

open Text Prog CatalogManager

namespace Executor

variable (h : Host) {self : Executor} {d : MapDb}

/-! ## Plans -/

/-- What INSERT finds out about the table: the names of its columns and its schema. -/
def insertPlan (self : Executor) (m : Contents) (tableName : Bytes) :
    Except SqlFail (List Bytes × Option TableSchema) := do
  let colNames ← columnNamesIn self m (parseQualifiedTableName tableName).2 tableName
  let schema ← tableSchemaIn h m (parseQualifiedTableName tableName).1
    (parseQualifiedTableName tableName).2
  pure (colNames, schema)

/-- What an UPDATE is going to change. -/
structure UpdatePlan where
  colIdx : Nat
  isUnique : Bool
  rows : List Row

def updatePlan (self : Executor) (m : Contents) (tableName column value : Bytes)
    (whereClause : Option (Bytes × Bytes)) : Except SqlFail UpdatePlan := do
  let colNames ← columnNamesIn self m (parseQualifiedTableName tableName).2 tableName
  let colIdx ← (position colNames column).elim (.error (.sql (.columnNotIn column tableName))) .ok
  let schema ← tableSchemaIn h m (parseQualifiedTableName tableName).1
    (parseQualifiedTableName tableName).2
  let isUnique ← checkUpdate h schema colIdx value
  let all ← self.rowsIn h m (parseQualifiedTableName tableName).2
  let rows ← affectedRows colNames whereClause all
  pure ⟨colIdx, isUnique, rows⟩

/-- What a DELETE is going to remove, and the names of the columns. -/
def deletePlan (self : Executor) (m : Contents) (tableName : Bytes)
    (whereClause : Option (Bytes × Bytes)) : Except SqlFail (List Bytes × List Row) := do
  let colNames ← columnNamesIn self m (parseQualifiedTableName tableName).2 tableName
  let all ← self.rowsIn h m (parseQualifiedTableName tableName).2
  let rows ← affectedRows colNames whereClause all
  pure (colNames, rows)

/-! ## The statements -/

/-- The loop of INSERT. -/
def insertLoop (self : Executor) (tableName : Bytes) (plan : List Bytes × Option TableSchema)
    (valuesList : List (List Bytes)) : Sql Unit :=
  Client.forEach (insertRow h (parseQualifiedTableName tableName).2 plan.1 plan.2 self.activeTx)
    valuesList

/-- The loop of UPDATE. -/
def updateLoop (self : Executor) (tableName column value : Bytes) (plan : UpdatePlan) : Sql Unit :=
  Client.forEach (updateRow (parseQualifiedTableName tableName).2 column plan.colIdx value
    plan.isUnique self.activeTx) plan.rows

/-- The loop of DELETE. -/
def deleteLoop (tableName : Bytes) (plan : List Bytes × List Row) : Sql Unit :=
  Client.forEach (deleteRow (parseQualifiedTableName tableName).2 plan.1) plan.2

theorem onMap_insert (tableName : Bytes) (valuesList : List (List Bytes)) :
    (insert h tableName valuesList).onMap (self, d)
      = Sql.resume (self, d) (fun plan => Sql.onMap (insertLoop h self tableName plan valuesList >>=
          fun _ => pure (changedMessage valuesList.length "inserted")) (self, d))
        (insertPlan h self d.contents tableName) := by
  refine Sql.onMap_read (onMap_columnNames _ _ (self, d)) fun colNames => ?_
  exact Sql.onMap_read (onMap_getTableSchema h _ _ (self, d)) fun schema => rfl

theorem onMap_update (tableName column value : Bytes) (whereClause : Option (Bytes × Bytes)) :
    (update h tableName column value whereClause).onMap (self, d)
      = Sql.resume (self, d) (fun plan => Sql.onMap (updateLoop self tableName column value plan >>=
          fun _ => pure (changedMessage plan.rows.length "updated")) (self, d))
        (updatePlan h self d.contents tableName column value whereClause) := by
  refine Sql.onMap_read (onMap_columnNames _ _ (self, d)) fun colNames => ?_
  cases position colNames column with
  | none => rfl
  | some colIdx =>
    refine Sql.onMap_read (onMap_getTableSchema h _ _ (self, d)) fun schema => ?_
    refine Sql.onMap_read (Sql.onMap_lift _ (self, d)) fun isUnique => ?_
    refine Sql.onMap_read (onMap_scanTableRows h _ (self, d)) fun all => ?_
    exact Sql.onMap_read (Sql.onMap_lift _ (self, d)) fun rows => rfl

theorem onMap_delete (tableName : Bytes) (whereClause : Option (Bytes × Bytes)) :
    (delete h tableName whereClause).onMap (self, d)
      = Sql.resume (self, d) (fun plan => Sql.onMap (deleteLoop tableName plan >>=
          fun _ => pure (changedMessage plan.2.length "deleted")) (self, d))
        (deletePlan h self d.contents tableName whereClause) := by
  refine Sql.onMap_read (onMap_columnNames _ _ (self, d)) fun colNames => ?_
  refine Sql.onMap_read (onMap_scanTableRows h _ (self, d)) fun all => ?_
  exact Sql.onMap_read (Sql.onMap_lift _ (self, d)) fun rows => rfl

/-! ## Statements that stop before their first write

Outside a transaction. For each statement, what has to be the case for it to end, with
an error or without, before it has written anything. -/

/-- A row that INSERT does not get to store. -/
def insertRowStops (m : Contents) (tName : Bytes) (plan : List Bytes × Option TableSchema)
    (values : List Bytes) : Bool :=
  match checkRow h plan.2 plan.1 values with
  | .error _ => true
  | .ok [] => true
  | .ok (pk :: _) =>
    (m.get (rowKey tName pk)).isSome || decide (maxKeySize < (rowKey tName pk).length)

def insertStops (m : Contents) (tableName : Bytes) (valuesList : List (List Bytes)) : Bool :=
  match insertPlan h idle m tableName, valuesList with
  | .error _, _ => true
  | .ok _, [] => true
  | .ok plan, values :: _ => insertRowStops h m (parseQualifiedTableName tableName).2 plan values

/-- The column has an index of its own. -/
def indexed (m : Contents) (tName column : Bytes) : Bool :=
  (m.select (indexPrefix tName).isPrefixOf).any fun index => fromUtf8Lossy index.2 == column

/-- A row that UPDATE does not get to change, nor any index entry because of it. -/
def updateRowStops (m : Contents) (tName column : Bytes) (value : Bytes) (plan : UpdatePlan)
    (row : Row) : Bool :=
  match row[plan.colIdx]? with
  | none => true
  | some oldValue =>
    let pk := row.headD []
    if indexed m tName column then
      (m.get (secKey tName column oldValue)).isNone &&
        match m.get (secKey tName column value) with
        | some data => if pk ∈ postings data then decide (maxKeySize < (rowKey tName pk).length)
            else plan.isUnique
        | none => decide (maxKeySize < (secKey tName column value).length)
    else decide (maxKeySize < (rowKey tName pk).length)

def updateStops (m : Contents) (tableName column value : Bytes)
    (whereClause : Option (Bytes × Bytes)) : Bool :=
  match updatePlan h idle m tableName column value whereClause with
  | .error _ => true
  | .ok plan =>
    match plan.rows with
    | [] => true
    | row :: _ => updateRowStops m (parseQualifiedTableName tableName).2 column value plan row

def deleteStops (m : Contents) (tableName : Bytes) (whereClause : Option (Bytes × Bytes)) : Bool :=
  match deletePlan h idle m tableName whereClause with
  | .error _ => true
  | .ok plan =>
    match plan.2 with
    | [] => true
    | row :: _ => row.isEmpty

variable {h}

/-- A loop whose first round fails without a trace leaves no trace. -/
theorem onMap_loop_stops {α : Type} {f : α → Sql Unit} {a : α} {as : List α} {msg : Bytes}
    {st : Executor × MapDb} {e : SqlFail} (hfirst : (f a).onMap st = (.error e, st)) :
    Sql.onMap (Client.forEach f (a :: as) >>= fun _ => pure msg) st = (.error e, st) := by
  refine Sql.onMap_bind_error ?_
  rw [Sql.onMap_forEach_cons]
  exact Sql.onMap_bind_error hfirst

theorem seen_idle (m : Contents) (key : Bytes) : idle.seen m key = m.get key := rfl

variable {tName tableName column : Bytes}

theorem insertRow_stops {plan : List Bytes × Option TableSchema} {values : List Bytes} {tx : UInt64}
    (hstop : insertRowStops h d.contents tName plan values) :
    ∃ e, (insertRow h tName plan.1 plan.2 tx values).onMap (idle, d) = (.error e, (idle, d)) := by
  unfold insertRowStops at hstop
  unfold insertRow
  rw [Sql.onMap_reads (Sql.onMap_lift _ (idle, d))]
  cases hrow : checkRow h plan.2 plan.1 values with
  | error e => exact ⟨e, rfl⟩
  | ok padded =>
    cases padded with
    | nil => exact ⟨_, rfl⟩
    | cons pk rest =>
      rw [hrow] at hstop
      show ∃ e, Sql.onMap (readThrough _ >>= _) (idle, d) = _
      rw [Sql.onMap_bind_ok (onMap_readThrough _ (idle, d))]
      show ∃ e, Sql.onMap (if Option.isSome (d.contents.get _) then _ else _) _ = _
      by_cases hthere : (d.contents.get (rowKey tName pk)).isSome
      · rw [if_pos hthere]
        exact ⟨_, rfl⟩
      · rw [if_neg hthere]
        have hlong : maxKeySize < (rowKey tName pk).length := by simpa [hthere] using hstop
        refine ⟨tooLong (rowKey tName pk), Sql.onMap_bind_error ?_⟩
        rw [onMap_writeOrBuffer rfl, if_pos]
        simpa [refused] using hlong

theorem insert_stops {valuesList : List (List Bytes)}
    (hstop : insertStops h d.contents tableName valuesList) :
    ((insert h tableName valuesList).onMap (idle, d)).2 = (idle, d) := by
  rw [onMap_insert]
  unfold insertStops at hstop
  cases hplan : insertPlan h idle d.contents tableName with
  | error e => rfl
  | ok plan =>
    cases valuesList with
    | nil => rfl
    | cons values rest =>
      rw [hplan] at hstop
      obtain ⟨e, he⟩ : ∃ e, (insertRow h _ plan.1 plan.2 idle.activeTx values).onMap (idle, d) = _ :=
        insertRow_stops hstop
      show (Sql.onMap (Client.forEach _ (values :: rest) >>= _) (idle, d)).2 = _
      rw [onMap_loop_stops he]

section Indices

variable {indices : List (Bytes × Bytes)} {body : Sql Unit} {st : Executor × MapDb}

/-- If there is nothing to do for any index on the column, nothing is done. -/
theorem onMap_forIndices_same
    (hbody : (indices.any fun index => fromUtf8Lossy index.2 == column) → body.onMap st = (.ok (), st)) :
    Sql.onMap (Client.forEach (fun index => if fromUtf8Lossy index.2 = column then body else pure ()) indices) st
      = (.ok (), st) := by
  induction indices with
  | nil => rfl
  | cons index indices ih =>
    rw [Sql.onMap_forEach_cons]
    by_cases hcol : fromUtf8Lossy index.2 = column
    · rw [if_pos hcol, Sql.onMap_bind_ok (hbody (by simp [hcol]))]
      exact ih fun hany => hbody (by simp [hany])
    · rw [if_neg hcol, Sql.onMap_bind_ok (Sql.onMap_pure () _)]
      exact ih fun hany => hbody (by simp [hany])

/-- If it cannot be done, the first index on the column is where it stops. -/
theorem onMap_forIndices_error {e : SqlFail} (hbody : body.onMap st = (.error e, st))
    (hindex : indices.any fun index => fromUtf8Lossy index.2 == column) :
    Sql.onMap (Client.forEach (fun index => if fromUtf8Lossy index.2 = column then body else pure ()) indices) st
      = (.error e, st) := by
  induction indices with
  | nil => exact nomatch hindex
  | cons index indices ih =>
    rw [Sql.onMap_forEach_cons]
    by_cases hcol : fromUtf8Lossy index.2 = column
    · rw [if_pos hcol]
      exact Sql.onMap_bind_error hbody
    · rw [if_neg hcol, Sql.onMap_bind_ok (Sql.onMap_pure () _)]
      exact ih (by simpa [hcol] using hindex)

end Indices

variable {colVal pk : Bytes} {isUnique : Bool} {e : SqlFail}

theorem onMap_secIdxRemoveForColumn_same (hremove : indexed d.contents tName column →
      (secIdxRemove tName column colVal pk).onMap (self, d) = (.ok (), (self, d))) :
    (secIdxRemoveForColumn tName column colVal pk).onMap (self, d) = (.ok (), (self, d)) := by
  unfold secIdxRemoveForColumn
  rw [Sql.onMap_bind_ok (Sql.onMap_scanPrefix _ (self, d))]
  exact onMap_forIndices_same hremove

theorem onMap_secIdxAddForColumn_error
    (hadd : (secIdxAdd tName column colVal pk isUnique).onMap (self, d) = (.error e, (self, d)))
    (hindex : indexed d.contents tName column) :
    (secIdxAddForColumn tName column colVal pk isUnique).onMap (self, d) = (.error e, (self, d)) := by
  unfold secIdxAddForColumn
  rw [Sql.onMap_bind_ok (Sql.onMap_scanPrefix _ (self, d))]
  exact onMap_forIndices_error hadd hindex

theorem onMap_secIdxAddForColumn_same (hadd : indexed d.contents tName column →
      (secIdxAdd tName column colVal pk isUnique).onMap (self, d) = (.ok (), (self, d))) :
    (secIdxAddForColumn tName column colVal pk isUnique).onMap (self, d) = (.ok (), (self, d)) := by
  unfold secIdxAddForColumn
  rw [Sql.onMap_bind_ok (Sql.onMap_scanPrefix _ (self, d))]
  exact onMap_forIndices_same hadd

theorem onMap_secIdxRemove_none (hnone : d.contents.get (secKey tName column colVal) = none) :
    (secIdxRemove tName column colVal pk).onMap (self, d) = (.ok (), (self, d)) := by
  unfold secIdxRemove
  rw [Sql.onMap_bind_ok (Sql.onMap_get _ (self, d))]
  rw [hnone]
  rfl

theorem onMap_writeOrBuffer_tooLong {key value : Bytes} (hlong : maxKeySize < key.length) :
    (writeOrBuffer key (some value)).onMap (idle, d) = (.error (tooLong key), (idle, d)) := by
  rw [onMap_writeOrBuffer rfl, if_pos]
  simpa [refused] using hlong

theorem updateRow_stops {value : Bytes} {plan : UpdatePlan} {tx : UInt64} {row : Row}
    (hstop : updateRowStops d.contents tName column value plan row) :
    ∃ e, (updateRow tName column plan.colIdx value plan.isUnique tx row).onMap (idle, d)
      = (.error e, (idle, d)) := by
  unfold updateRowStops at hstop
  unfold updateRow
  cases hold : row[plan.colIdx]? with
  | none => exact ⟨_, rfl⟩
  | some oldValue =>
    rw [hold] at hstop
    dsimp only at hstop ⊢
    by_cases hindex : indexed d.contents tName column
    · rw [if_pos hindex, Bool.and_eq_true, Option.isNone_iff_eq_none] at hstop
      obtain ⟨hgone, hnew⟩ := hstop
      rw [Sql.onMap_bind_ok (onMap_secIdxRemoveForColumn_same fun _ => onMap_secIdxRemove_none hgone)]
      -- what is added for the new value decides where it stops
      have hadd : (secIdxAdd tName column value (row.headD []) plan.isUnique).onMap (idle, d)
          = Sql.onMap (match d.contents.get (secKey tName column value) with
            | some data =>
              if row.headD [] ∈ postings data then pure ()
              else if plan.isUnique then Sql.fail (.notUnique value column)
              else
                let newVal := fromUtf8Lossy data ++ [secIdxPkSep] ++ row.headD []
                writeOrBuffer (secKey tName column value) (some newVal)
            | none => writeOrBuffer (secKey tName column value) (some (row.headD []))) (idle, d) :=
        Sql.onMap_bind_ok (Sql.onMap_get _ (idle, d))
      cases hentry : d.contents.get (secKey tName column value) with
      | none =>
        rw [hentry] at hadd hnew
        have hfail := hadd.trans (onMap_writeOrBuffer_tooLong (of_decide_eq_true hnew))
        exact ⟨_, Sql.onMap_bind_error (onMap_secIdxAddForColumn_error hfail hindex)⟩
      | some data =>
        rw [hentry] at hadd hnew
        dsimp only at hadd hnew
        by_cases hmem : row.headD [] ∈ postings data
        · rw [if_pos hmem] at hadd hnew
          rw [Sql.onMap_bind_ok (onMap_secIdxAddForColumn_same fun _ => hadd)]
          exact ⟨_, onMap_writeOrBuffer_tooLong (of_decide_eq_true hnew)⟩
        · rw [if_neg hmem] at hadd hnew
          rw [if_pos hnew] at hadd
          exact ⟨_, Sql.onMap_bind_error (onMap_secIdxAddForColumn_error hadd hindex)⟩
    · rw [if_neg hindex] at hstop
      rw [Sql.onMap_bind_ok (onMap_secIdxRemoveForColumn_same fun hi => absurd hi hindex),
        Sql.onMap_bind_ok (onMap_secIdxAddForColumn_same fun hi => absurd hi hindex)]
      exact ⟨_, onMap_writeOrBuffer_tooLong (of_decide_eq_true hstop)⟩

theorem update_stops {value : Bytes} {whereClause : Option (Bytes × Bytes)}
    (hstop : updateStops h d.contents tableName column value whereClause) :
    ((update h tableName column value whereClause).onMap (idle, d)).2 = (idle, d) := by
  rw [onMap_update]
  unfold updateStops at hstop
  cases hplan : updatePlan h idle d.contents tableName column value whereClause with
  | error e => rfl
  | ok plan =>
    rw [hplan] at hstop
    show (Sql.onMap (Client.forEach _ plan.rows >>= _) (idle, d)).2 = _
    dsimp only at hstop
    cases hrows : plan.rows with
    | nil => rfl
    | cons row rows =>
      rw [hrows] at hstop
      obtain ⟨e, he⟩ : ∃ e, (updateRow _ column plan.colIdx value plan.isUnique idle.activeTx
        row).onMap (idle, d) = _ := updateRow_stops hstop
      rw [onMap_loop_stops he]

theorem delete_stops {whereClause : Option (Bytes × Bytes)}
    (hstop : deleteStops h d.contents tableName whereClause) :
    ((delete h tableName whereClause).onMap (idle, d)).2 = (idle, d) := by
  rw [onMap_delete]
  unfold deleteStops at hstop
  cases hplan : deletePlan h idle d.contents tableName whereClause with
  | error e => rfl
  | ok plan =>
    rw [hplan] at hstop
    show (Sql.onMap (Client.forEach _ plan.2 >>= _) (idle, d)).2 = _
    dsimp only at hstop
    cases hrows : plan.2 with
    | nil => rfl
    | cons row rows =>
      rw [hrows] at hstop
      obtain rfl : row = [] := List.isEmpty_iff.mp hstop
      have he : (deleteRow (parseQualifiedTableName tableName).2 plan.1 []).onMap (idle, d)
          = (.error (.db .panic), (idle, d)) := rfl
      rw [onMap_loop_stops he]

end Executor

end MagnumDB
