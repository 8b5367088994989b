import MagnumDB.Sql.Query

/-!
# Contracts of the executor

What is said of every program of the executor is said piece by piece: of the calls, of
the writes, and of programs put together. A `Contract` is a property with these rules,
and each function of the executor is taken apart once here, for all such properties.
Steps without calls end with a result or an error.
-/

namespace MagnumDB

open Text Client CatalogManager List

namespace Executor

/-! ## Steps without calls -/

/-- A result or an error. -/
def NoPanic {α : Type} (x : Except SqlFail α) : Prop := x ≠ .error (.db .panic)

section

variable {α β : Type}

theorem NoPanic.ok (a : α) : NoPanic (.ok a) := fun he => nomatch he

theorem NoPanic.sql (e : SqlError) : NoPanic (.error (.sql e) : Except SqlFail α) :=
  fun he => SqlFail.noConfusion (Except.error.inj he)

theorem NoPanic.bind {x : Except SqlFail α} {f : α → Except SqlFail β} (hx : NoPanic x)
    (hf : ∀ a, x = .ok a → NoPanic (f a)) : NoPanic (x >>= f) := by
  cases x with
  | ok a => exact hf a rfl
  | error e => exact fun he => hx (congrArg Except.error (Except.error.inj he))

end

theorem noPanic_decodeValues (data : Bytes) : NoPanic (decodeValues data) := by
  unfold decodeValues
  dsimp only
  split
  · exact .ok _
  · exact .sql _
  · exact .sql _
  · split
    · exact .ok _
    · exact .sql _
    · exact .sql _

theorem noPanic_decodeRows (schema : Option TableSchema) (records : List (Bytes × Bytes)) :
    NoPanic (decodeRows schema records) := by
  induction records with
  | nil => exact .ok _
  | cons r records ih =>
    exact (noPanic_decodeValues r.2).bind fun _ _ => ih.bind fun _ _ => .ok _

theorem noPanic_filterRows (colNames : List Bytes) (whereClause : Option (Bytes × Bytes))
    (rows : List Row) : NoPanic (filterRows colNames whereClause rows) := by
  unfold filterRows
  split
  · exact .ok _
  · split
    · exact .sql _
    · exact .ok _

variable {α : Type}

/-- Sorting compares elements that come first with later ones. -/
theorem noPanic_insertBy {cmp : α → α → Except SqlFail Ordering} {x : α} {ys : List α}
    (hcmp : ∀ y ∈ ys, NoPanic (cmp x y)) : NoPanic (insertBy cmp x ys) := by
  induction ys with
  | nil => exact .ok _
  | cons y ys ih =>
    refine (hcmp y mem_cons_self).bind fun ord _ => ?_
    have hrest : NoPanic (insertBy cmp x ys) := ih fun z hz => hcmp z (mem_cons_of_mem y hz)
    cases ord with
    | gt => exact hrest.bind fun _ _ => .ok _
    | lt => exact .ok _
    | eq => exact .ok _

theorem mem_insertBy {ε : Type} {cmp : α → α → Except ε Ordering} {x z : α} {ys zs : List α}
    (hzs : insertBy cmp x ys = .ok zs) (hz : z ∈ zs) : z = x ∨ z ∈ ys := by
  induction ys generalizing zs with
  | nil =>
    obtain rfl := Except.ok.inj hzs
    exact .inl (mem_singleton.mp hz)
  | cons y ys ih =>
    obtain ⟨ord, _, hrest⟩ := Except.of_bind_eq_ok hzs
    have hfront (he : (Except.ok (x :: y :: ys) : Except ε (List α)) = .ok zs) : z = x ∨ z ∈ y :: ys := by
      obtain rfl := Except.ok.inj he
      exact mem_cons.mp hz
    cases ord with
    | gt =>
      obtain ⟨zs', hzs', he⟩ := Except.of_bind_eq_ok hrest
      obtain rfl := Except.ok.inj he
      rcases mem_cons.mp hz with rfl | hz
      · exact .inr mem_cons_self
      · exact (ih hzs' hz).imp_right (mem_cons_of_mem y)
    | lt => exact hfront hrest
    | eq => exact hfront hrest

theorem mem_sortBy {ε : Type} {cmp : α → α → Except ε Ordering} {z : α} {xs zs : List α}
    (hzs : sortBy cmp xs = .ok zs) (hz : z ∈ zs) : z ∈ xs := by
  induction xs generalizing zs with
  | nil =>
    obtain rfl := Except.ok.inj hzs
    exact hz
  | cons x xs ih =>
    obtain ⟨ys, hys, hzs⟩ := Except.of_bind_eq_ok hzs
    rcases mem_insertBy hzs hz with rfl | hz
    · exact mem_cons_self
    · exact mem_cons_of_mem x (ih hys hz)

theorem noPanic_sortBy {cmp : α → α → Except SqlFail Ordering} {xs : List α}
    (hcmp : xs.Pairwise fun a b => NoPanic (cmp a b)) : NoPanic (sortBy cmp xs) := by
  induction xs with
  | nil => exact .ok _
  | cons x xs ih =>
    obtain ⟨hx, hxs⟩ := pairwise_cons.mp hcmp
    exact (ih hxs).bind fun ys hys => noPanic_insertBy fun y hy => hx y (mem_sortBy hys hy)

theorem noPanic_sortRows (h : Host) (colNames : List Bytes) (orderBy : Option (Bytes × Bool))
    (rows : List Row) : NoPanic (sortRows h colNames orderBy rows) := by
  unfold sortRows
  split
  · exact .ok _
  · split
    · exact .sql _
    · exact noPanic_sortBy (pairwise_of_forall fun _ _ => .ok _)

theorem noPanic_schemaText (bytes : Bytes) : NoPanic (schemaText bytes) := by
  unfold schemaText
  split
  · exact .ok _
  · exact .sql _

theorem noPanic_joinColumn (colNames : List Bytes) (col table : Bytes) :
    NoPanic (joinColumn colNames col table) := by
  unfold joinColumn
  split
  · exact .sql _
  · exact .ok _

theorem noPanic_aggregateFunc (colNames : List Bytes) (func column : Bytes) :
    NoPanic (aggregateFunc colNames func column) := by
  unfold aggregateFunc
  dsimp only
  split
  · exact .ok _
  · split
    · split
      · exact .sql _
      · exact .ok _
    · split
      · split
        · exact .sql _
        · exact .ok _
      · exact .sql _

/-! ## Contracts -/

/-- A property of programs that call the database to read, or to write one of the keys. -/
structure Contract (W : Bytes → Prop) (C : ∀ {α : Type}, Sql α → Prop) : Prop where
  pure {α : Type} (a : α) : C (pure a : Sql α)
  fail {α : Type} (e : SqlError) : C (Sql.fail e : Sql α)
  lift {α : Type} {x : Except SqlFail α} (hx : NoPanic x) : C (Sql.lift x)
  bind {α β : Type} {x : Sql α} {f : α → Sql β} (hx : C x) (hf : ∀ a, C (f a)) : C (x >>= f)
  self : C (Client.get : Sql Executor)
  get (key : Bytes) : C (Db.get key)
  scanPrefix (pre : Bytes) : C (Db.scanPrefix pre)
  write {key : Bytes} (hkey : W key) (value : Option Bytes) : C (writeOrBuffer key value)

/-- The key of a row or of an index entry of a table. -/
def TableKey (tName key : Bytes) : Prop := rowPrefix tName <+: key ∨ secPrefix tName <+: key

theorem tableKey_rowKey (tName pk : Bytes) : TableKey tName (rowKey tName pk) :=
  .inl (prefix_append _ _)

theorem tableKey_secKey (tName column colVal : Bytes) :
    TableKey tName (secKey tName column colVal) := .inr (prefix_append _ _)

namespace Contract

variable {W : Bytes → Prop} {C : ∀ {α : Type}, Sql α → Prop} (hC : Contract W C) {α : Type} (h : Host)

include hC

theorem forEach {f : α → Sql Unit} {as : List α} (hf : ∀ a ∈ as, C (f a)) : C (Client.forEach f as) := by
  induction as with
  | nil => exact hC.pure ()
  | cons a as ih =>
    exact hC.bind (hf a mem_cons_self) fun _ => ih fun b hb => hf b (mem_cons_of_mem a hb)

omit hC in
theorem ite {p : Prop} [Decidable p] {x y : Sql α} (hx : p → C x) (hy : ¬ p → C y) :
    C (if p then x else y) := by
  split
  · exact hx ‹_›
  · exact hy ‹_›

/-! ## Reading -/

theorem readThrough (key : Bytes) : C (readThrough key) := by
  refine hC.bind hC.self fun self => ?_
  split
  · exact hC.pure _
  · exact hC.get key

theorem columnNames (tName tableName : Bytes) : C (columnNames tName tableName) := by
  refine hC.bind (hC.readThrough _) fun found => ?_
  cases found with
  | none => exact hC.fail _
  | some bytes => exact ite (fun _ => hC.pure _) fun _ => hC.fail _

theorem getTableSchema (schemaName tableName : Bytes) : C (getTableSchema h schemaName tableName) := by
  refine hC.bind (hC.get _) fun record => ?_
  cases record with
  | some bytes =>
    dsimp only
    split
    · exact hC.pure _
    · exact hC.fail _
  | none =>
    refine ite (fun _ => hC.bind (hC.get _) fun older => ?_) fun _ => hC.pure _
    cases older with
    | none => exact hC.pure _
    | some bytes => exact ite (fun _ => hC.pure _) fun _ => hC.fail _

theorem tableExists (schemaName tName : Bytes) : C (tableExists h schemaName tName) :=
  hC.bind (hC.readThrough _) fun _ => ite (fun _ => hC.pure _) fun _ =>
    hC.bind (hC.getTableSchema h _ _) fun _ => hC.pure _

theorem scanTableRows (tableName : Bytes) : C (scanTableRows h tableName) :=
  hC.bind (hC.scanPrefix _) fun _ => hC.bind hC.self fun _ =>
    hC.bind (hC.getTableSchema h _ _) fun _ => hC.lift (noPanic_decodeRows _ _)

theorem listSchemas : C listSchemas := hC.bind (hC.scanPrefix _) fun _ => hC.pure _

theorem listTables (schemaName : Bytes) : C (listTables h schemaName) :=
  hC.bind (hC.scanPrefix _) fun _ =>
    ite (fun _ => hC.bind (hC.scanPrefix _) fun _ => hC.pure _) fun _ => hC.pure _

theorem tableRows (schemas : List Bytes) : C (tableRows h schemas) := by
  induction schemas with
  | nil => exact hC.pure _
  | cons s schemas ih =>
    exact hC.bind (hC.listTables h s) fun _ => hC.bind ih fun _ => hC.pure _

theorem columnRowsOf (s : Bytes) (tables : List Bytes) : C (columnRowsOf h s tables) := by
  induction tables with
  | nil => exact hC.pure _
  | cons t tables ih =>
    exact hC.bind (hC.getTableSchema h s t) fun _ => hC.bind ih fun _ => hC.pure _

theorem columnRows (schemas : List Bytes) : C (columnRows h schemas) := by
  induction schemas with
  | nil => exact hC.pure _
  | cons s schemas ih =>
    exact hC.bind (hC.listTables h s) fun tables =>
      hC.bind (hC.columnRowsOf h s tables) fun _ => hC.bind ih fun _ => hC.pure _

/-! ## Queries -/

theorem rowsByKey (tName : Bytes) (pks : List Bytes) : C (rowsByKey tName pks) := by
  induction pks with
  | nil => exact hC.pure _
  | cons pk pks ih =>
    refine hC.bind (hC.readThrough _) fun found => ?_
    cases found with
    | none => exact ih
    | some v => exact hC.bind (hC.lift (noPanic_decodeValues v)) fun _ => hC.bind ih fun _ => hC.pure _

theorem indexRows (tName : Bytes) (whereClause : Option (Bytes × Bytes)) :
    C (indexRows tName whereClause) := by
  cases whereClause with
  | none => exact hC.pure _
  | some clause =>
    refine hC.bind (hC.get _) fun entry => ?_
    cases entry with
    | none => exact hC.pure _
    | some pks => exact hC.bind (hC.rowsByKey _ _) fun _ => hC.pure _

theorem selectRows (tName : Bytes) (colNames : List Bytes) (whereClause : Option (Bytes × Bytes)) :
    C (selectRows h tName colNames whereClause) := by
  refine hC.bind (hC.indexRows _ _) fun found => ?_
  cases found with
  | some rows => exact hC.pure _
  | none => exact hC.bind (hC.scanTableRows h _) fun _ => hC.lift (noPanic_filterRows _ _ _)

theorem select (tableName : Bytes) (whereClause : Option (Bytes × Bytes))
    (orderBy : Option (Bytes × Bool)) (limitOffset : Option (Nat × Nat)) :
    C (select h tableName whereClause orderBy limitOffset) :=
  ite (fun _ => hC.bind (hC.bind hC.listSchemas fun _ => hC.tableRows h _) fun _ => hC.pure _) fun _ =>
    ite (fun _ => hC.bind (hC.bind hC.listSchemas fun _ => hC.columnRows h _) fun _ => hC.pure _) fun _ =>
      hC.bind (hC.columnNames _ _) fun _ => hC.bind (hC.selectRows h _ _ _) fun _ =>
        hC.bind (hC.lift (noPanic_sortRows h _ _ _)) fun _ => hC.pure _

theorem selectJoin (leftTable rightTable leftCol rightCol : Bytes) (isLeftJoin : Bool) :
    C (selectJoin h leftTable rightTable leftCol rightCol isLeftJoin) := by
  refine hC.bind (hC.readThrough _) fun left => ?_
  cases left with
  | none => exact hC.fail _
  | some leftSb =>
    refine hC.bind (hC.readThrough _) fun right => ?_
    cases right with
    | none => exact hC.fail _
    | some rightSb =>
      exact hC.bind (hC.lift (noPanic_schemaText _)) fun _ => hC.bind (hC.lift (noPanic_schemaText _)) fun _ =>
        hC.bind (hC.lift (noPanic_joinColumn _ _ _)) fun _ =>
          hC.bind (hC.lift (noPanic_joinColumn _ _ _)) fun _ =>
            hC.bind (hC.scanTableRows h _) fun _ => hC.bind (hC.scanTableRows h _) fun _ => hC.pure _

theorem selectGroupAggregate (groupCol func aggCol tableName : Bytes)
    (whereClause havingClause : Option (Bytes × Bytes)) :
    C (selectGroupAggregate h groupCol func aggCol tableName whereClause havingClause) := by
  refine hC.bind (hC.columnNames _ _) fun colNames => ?_
  split
  · exact hC.fail _
  · exact hC.bind (hC.scanTableRows h _) fun _ => hC.bind (hC.lift (noPanic_filterRows _ _ _)) fun _ =>
      hC.bind (hC.lift (noPanic_aggregateFunc _ _ _)) fun _ => hC.pure _

theorem selectRange (tableName column op val : Bytes) : C (selectRange h tableName column op val) := by
  refine hC.bind (hC.columnNames _ _) fun colNames => ?_
  split
  · exact hC.fail _
  · exact hC.bind (hC.scanTableRows h _) fun _ => hC.pure _

theorem selectAggregate (func column tableName : Bytes) (whereClause : Option (Bytes × Bytes)) :
    C (selectAggregate h func column tableName whereClause) :=
  hC.bind (hC.columnNames _ _) fun _ => hC.bind (hC.scanTableRows h _) fun _ =>
    hC.bind (hC.lift (noPanic_filterRows _ _ _)) fun _ =>
      hC.bind (hC.lift (noPanic_aggregateFunc _ _ _)) fun _ => hC.pure _

/-! ## Index entries and rows -/

theorem defineUnique {tName : Bytes} (hW : ∀ k, indexPrefix tName <+: k → W k) (col : ColumnDef) :
    C (defineUnique tName col) :=
  ite (fun _ => hC.write (hW _ (prefix_append _ _)) _) fun _ => hC.pure _

variable {tName : Bytes}

theorem secIdxAdd {column colVal : Bytes} (hkey : W (secKey tName column colVal)) (pk : Bytes)
    (isUnique : Bool) : C (secIdxAdd tName column colVal pk isUnique) := by
  refine hC.bind (hC.get _) fun entry => ?_
  cases entry with
  | none => exact hC.write hkey _
  | some data =>
    exact ite (fun _ => hC.pure _) fun _ => ite (fun _ => hC.fail _) fun _ => hC.write hkey _

theorem secIdxRemove {column colVal : Bytes} (hkey : W (secKey tName column colVal)) (pk : Bytes) :
    C (secIdxRemove tName column colVal pk) := by
  refine hC.bind (hC.get _) fun entry => ?_
  cases entry with
  | none => exact hC.pure _
  | some data => exact ite (fun _ => hC.write hkey _) fun _ => hC.write hkey _

section

variable (hW : ∀ column colVal, W (secKey tName column colVal))

include hW

/-- The functions that keep the index entries write index entries only. -/
theorem syncSecondaryIndexesOnInsert (colNames values : List Bytes) (pk : Bytes)
    (schema : Option TableSchema) : C (syncSecondaryIndexesOnInsert tName colNames values pk schema) :=
  hC.bind (hC.scanPrefix _) fun _ => hC.forEach fun _ _ =>
    ite (fun _ => hC.secIdxAdd (hW _ _) _ _) fun _ => hC.pure _

theorem secIdxRemoveForColumn (column colVal pk : Bytes) :
    C (secIdxRemoveForColumn tName column colVal pk) :=
  hC.bind (hC.scanPrefix _) fun _ => hC.forEach fun _ _ =>
    ite (fun _ => hC.secIdxRemove (hW _ _) _) fun _ => hC.pure _

theorem secIdxAddForColumn (column colVal pk : Bytes) (isUnique : Bool) :
    C (secIdxAddForColumn tName column colVal pk isUnique) :=
  hC.bind (hC.scanPrefix _) fun _ => hC.forEach fun _ _ =>
    ite (fun _ => hC.secIdxAdd (hW _ _) _ _) fun _ => hC.pure _

theorem removeAllSecondaryIndexes (colNames rowValues : List Bytes) (pk : Bytes) :
    C (removeAllSecondaryIndexes tName colNames rowValues pk) :=
  hC.bind (hC.scanPrefix _) fun _ => hC.forEach fun _ _ =>
    ite (fun _ => hC.secIdxRemove (hW _ _) _) fun _ => hC.pure _

end

variable (hW : ∀ k, TableKey tName k → W k)

include hW

theorem updateRow (column : Bytes) (colIdx : Nat) (value : Bytes) (isUnique : Bool) (activeTx : UInt64)
    (row : Row) : C (updateRow tName column colIdx value isUnique activeTx row) := by
  have hsec : ∀ column colVal, W (secKey tName column colVal) := fun _ _ => hW _ (tableKey_secKey _ _ _)
  unfold Executor.updateRow
  split
  · exact hC.fail _
  · exact hC.bind (hC.secIdxRemoveForColumn hsec _ _ _) fun _ =>
      hC.bind (hC.secIdxAddForColumn hsec _ _ _ _) fun _ => hC.write (hW _ (tableKey_rowKey tName _)) _

theorem insertRow {colNames : List Bytes} {schema : Option TableSchema} {activeTx : UInt64}
    {values : List Bytes} (hlift : C (Sql.lift (checkRow h schema colNames values))) :
    C (insertRow h tName colNames schema activeTx values) := by
  refine hC.bind hlift fun padded => ?_
  cases padded with
  | nil => exact hC.fail _
  | cons pk rest =>
    refine hC.bind (hC.readThrough _) fun found => ite (fun _ => hC.fail _) fun _ => ?_
    refine hC.bind (hC.write (hW _ (tableKey_rowKey tName pk)) _) fun _ => ?_
    exact hC.syncSecondaryIndexesOnInsert (fun _ _ => hW _ (tableKey_secKey _ _ _)) _ _ _ _

theorem deleteRow_cons (colNames : List Bytes) (pk : Bytes) (rest : Row) :
    C (deleteRow tName colNames (pk :: rest)) :=
  hC.bind (hC.removeAllSecondaryIndexes (fun _ _ => hW _ (tableKey_secKey _ _ _)) _ _ _) fun _ =>
    hC.write (hW _ (tableKey_rowKey tName pk)) _

end Contract

end Executor

end MagnumDB
