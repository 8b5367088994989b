import MagnumDB.Sql.Contract

/-!
# What a statement writes

Which keys the statements that change rows can write, and where to: inside a
transaction to the buffer, outside to the database. A query writes nothing. This is
one of the contracts of the executor, for a set of keys.
-/

namespace MagnumDB

open Text Client CatalogManager

/-- The call writes nothing, or writes one of the keys outside a transaction. -/
def Call.Writes (inTransaction : Bool) (W : Bytes → Prop) : Call → Prop
  | .putWithTx _ key _ => inTransaction = false ∧ W key
  | .deleteWithTx _ key => inTransaction = false ∧ W key
  | .commitTx _ => False
  | _ => True

theorem Call.Writes.anywhere {b : Bool} {W : Bytes → Prop} {c : Call} (hc : c.Writes b W) :
    c.Writes false W := by
  cases c with
  | putWithTx txId key value => exact ⟨rfl, hc.2⟩
  | deleteWithTx txId key => exact ⟨rfl, hc.2⟩
  | _ => exact hc

/-- What a scan returns begins with the prefix. -/
def Call.Scanned : (c : Call) → c.Answer → Prop
  | .scanPrefix pre, r => ∀ records : List (Bytes × Bytes), r = .ok records →
      ∀ e ∈ records, pre <+: e.1
  | _, _ => True

namespace Executor

/-- The state of the executor differs from an earlier one by buffered writes of some keys; outside a
transaction it does not differ. -/
def Differs (W : Bytes → Prop) (self₀ self : Executor) : Prop :=
  self.inTransaction = self₀.inTransaction ∧ self.currentTxId = self₀.currentTxId ∧
    ∀ k, (W k → self₀.inTransaction = false) → self.writeBuffer.get k = self₀.writeBuffer.get k

variable {self₀ : Executor} {key : Bytes}

theorem Differs.buffer {W : Bytes → Prop} {self : Executor} (hd : Differs W self₀ self) {k : Bytes}
    (hk : ¬ W k) : self.writeBuffer.get k = self₀.writeBuffer.get k :=
  hd.2.2 k fun hw => absurd hw hk

theorem Differs.eq {W : Bytes → Prop} {self : Executor} (hd : Differs W self₀ self)
    (hout : self₀.inTransaction = false) : self = self₀ := by
  obtain ⟨htx, hid, hbuf⟩ := hd
  have hsame : self.writeBuffer = self₀.writeBuffer := SortedMap.ext fun k => hbuf k fun _ => hout
  cases self
  cases self₀
  simp_all

/-- The program writes only these keys, and to the right place. -/
abbrev WritesOnly {α : Type} (A : (c : Call) → c.Answer → Prop) (W : Bytes → Prop) (x : Sql α) : Prop :=
  ∀ self₀ : Executor, Client.Obeys (Call.Writes self₀.inTransaction W) A (Differs W self₀) x
    fun _ => True

variable {A : (c : Call) → c.Answer → Prop} {W : Bytes → Prop} {α β : Type}

theorem WritesOnly.bind {x : Sql α} {f : α → Sql β} (hx : WritesOnly A W x)
    (hf : ∀ a, WritesOnly A W (f a)) : WritesOnly A W (x >>= f) :=
  fun self₀ => (hx self₀).bind fun a _ => hf a self₀

theorem WritesOnly.pure (a : α) : WritesOnly A W (pure a : Sql α) := fun _ => .pure trivial

theorem WritesOnly.fail (e : SqlError) : WritesOnly A W (Sql.fail e : Sql α) := fun _ => .fail _

theorem WritesOnly.lift (x : Except SqlFail α) : WritesOnly A W (Sql.lift x) :=
  fun _ => .lift fun _ _ => trivial

theorem WritesOnly.self : WritesOnly A W (Client.get : Sql Executor) :=
  fun _ => Client.Obeys.get.mono fun _ _ => trivial

theorem WritesOnly.get (key : Bytes) : WritesOnly A W (Db.get key) :=
  fun _ => .ask trivial fun _ _ _ _ => trivial

theorem WritesOnly.scanPrefix (pre : Bytes) : WritesOnly A W (Db.scanPrefix pre) :=
  fun _ => .ask trivial fun _ _ _ _ => trivial

theorem WritesOnly.forEach {f : α → Sql Unit} {as : List α} (hf : ∀ a ∈ as, WritesOnly A W (f a)) :
    WritesOnly A W (Client.forEach f as) :=
  fun self₀ => .forEach fun a ha => hf a ha self₀

theorem writesOnly_writeOrBuffer (hkey : W key) (value : Option Bytes) :
    WritesOnly A W (writeOrBuffer key value) := by
  intro self₀
  refine Client.Obeys.get.bind fun self hself => ?_
  by_cases htx : self.inTransaction
  · rw [if_pos htx]
    refine .modify fun s hs => ⟨hs.1, hs.2.1, fun k hk => ?_⟩
    have hne : k ≠ key := by
      rintro rfl
      rw [← hself.1, htx] at hk
      exact Bool.noConfusion (hk hkey)
    exact (SortedMap.get_insert_ne _ value hne).trans (hs.2.2 k hk)
  · rw [if_neg htx]
    have hout : self₀.inTransaction = false := hself.1 ▸ Bool.eq_false_iff.mpr htx
    cases value with
    | some value => exact .ask ⟨hout, hkey⟩ fun _ _ _ _ => trivial
    | none => exact .ask ⟨hout, hkey⟩ fun _ _ _ _ => trivial

/-- What is written is said of each function. -/
theorem writesOnly : Contract W (WritesOnly A W) where
  pure := .pure
  fail := .fail
  lift _ := .lift _
  bind := .bind
  self := .self
  get := .get
  scanPrefix := .scanPrefix
  write := writesOnly_writeOrBuffer

variable (h : Host)

/-! ## Changing rows

The keys of a table that these statements write are those of its rows and of its index
entries. -/

variable {tName : Bytes}

theorem writesOnly_deleteRow (hW : ∀ k, TableKey tName k → W k) (colNames : List Bytes) (row : Row) :
    WritesOnly A W (deleteRow tName colNames row) := by
  cases row with
  | nil => exact fun _ => .fail _
  | cons pk rest => exact writesOnly.deleteRow_cons hW colNames pk rest

variable {tableName : Bytes}

theorem writesOnly_insert (hW : ∀ k, TableKey (parseQualifiedTableName tableName).2 k → W k)
    (valuesList : List (List Bytes)) : WritesOnly A W (insert h tableName valuesList) :=
  .bind (writesOnly.columnNames _ _) fun _ => .bind (writesOnly.getTableSchema h _ _) fun _ =>
    .bind .self fun _ => .bind (.forEach fun _ _ => writesOnly.insertRow h hW (.lift _)) fun _ => .pure _

theorem writesOnly_update (hW : ∀ k, TableKey (parseQualifiedTableName tableName).2 k → W k)
    (column value : Bytes) (whereClause : Option (Bytes × Bytes)) :
    WritesOnly A W (update h tableName column value whereClause) := by
  refine .bind (writesOnly.columnNames _ _) fun colNames => ?_
  split
  · exact .fail _
  · exact .bind (writesOnly.getTableSchema h _ _) fun _ => .bind (.lift _) fun _ =>
      .bind (writesOnly.scanTableRows h _) fun _ => .bind (.lift _) fun _ => .bind .self fun _ =>
        .bind (.forEach fun _ _ => writesOnly.updateRow hW _ _ _ _ _ _) fun _ => .pure _

theorem writesOnly_delete (hW : ∀ k, TableKey (parseQualifiedTableName tableName).2 k → W k)
    (whereClause : Option (Bytes × Bytes)) : WritesOnly A W (delete h tableName whereClause) :=
  .bind (writesOnly.columnNames _ _) fun _ => .bind (writesOnly.scanTableRows h _) fun _ =>
    .bind (.lift _) fun _ => .bind (.forEach fun _ _ => writesOnly_deleteRow hW _ _) fun _ => .pure _

/-! ## DROP TABLE

It writes to the database also inside a transaction, so its contract says which keys are written
and not where to. What it deletes it has scanned. -/

/-- The program writes only these keys, to the buffer or to the database. -/
abbrev Touches {α : Type} (A : (c : Call) → c.Answer → Prop) (W : Bytes → Prop) (x : Sql α) : Prop :=
  ∀ self₀ : Executor, Client.Obeys (Call.Writes false W) A (Differs W self₀) x fun _ => True

theorem WritesOnly.touches {x : Sql α} (hx : WritesOnly A W x) : Touches A W x :=
  fun self₀ s hs => (hx self₀ s hs).calls fun _ hc => hc.anywhere

/-- The keys of a table that DROP TABLE can write. -/
def DropKey (tableName key : Bytes) : Prop :=
  TableKey (parseQualifiedTableName tableName).2 key ∨
    indexPrefix (parseQualifiedTableName tableName).2 <+: key ∨
    key = schemaKeyOf (parseQualifiedTableName tableName).2 ∨
    key = tableKey h (parseQualifiedTableName tableName).1 (parseQualifiedTableName tableName).2

theorem scanPrefix_scanned (pre : Bytes) :
    Client.Obeys (Call.Writes false W) Call.Scanned (Differs W self₀) (Db.scanPrefix pre)
      fun records => ∀ e ∈ records, pre <+: e.1 := by
  refine .ask trivial fun r hr records hok => ?_
  cases r with
  | error e => exact nomatch hok
  | ok found =>
    obtain rfl := Except.ok.inj hok
    exact hr _ rfl

theorem delete_touches (hkey : W key) :
    Client.Obeys (Call.Writes false W) A (Differs W self₀) (Db.delete key) fun _ => True :=
  .ask ⟨rfl, hkey⟩ fun _ _ _ _ => trivial

theorem touches_dropTable (hW : ∀ k, DropKey h tableName k → W k) :
    Touches Call.Scanned W (dropTable h tableName) := by
  intro self₀
  refine (writesOnly.readThrough _).touches self₀ |>.bind fun found _ => ?_
  split
  · exact .fail _
  · refine (scanPrefix_scanned _).bind fun records hrecords => ?_
    refine (scanPrefix_scanned _).bind fun indices hindices => ?_
    refine Client.Obeys.bind (.forEach fun e he => delete_touches (hW _ ?_)) fun _ _ => ?_
    · exact .inr (.inl (hindices e he))
    refine (scanPrefix_scanned _).bind fun entries hentries => ?_
    refine Client.Obeys.bind (.forEach fun e he => delete_touches (hW _ ?_)) fun _ _ => ?_
    · exact .inl (.inr (hentries e he))
    refine (delete_touches (hW _ (.inr (.inr (.inr rfl))))).bind fun _ _ => ?_
    have hschema := hW _ (.inr (.inr (.inl rfl)))
    refine ((writesOnly_writeOrBuffer hschema none).touches self₀).bind fun _ _ => ?_
    refine Client.Obeys.bind (.forEach fun e he => ?_) fun _ _ => .pure trivial
    exact (writesOnly_writeOrBuffer (hW _ (.inl (.inl (hrecords e he)))) none).touches self₀

/-! ## CREATE TABLE and CREATE INDEX -/

end Executor

/-! ## Statements -/

namespace Statement

/-- The tables whose rows a statement can change. Only statements made of queries and of changes of
rows are looked at. -/
def changes : Statement → List Bytes
  | .insert tableName _ => [(parseQualifiedTableName tableName).2]
  | .update tableName _ _ _ => [(parseQualifiedTableName tableName).2]
  | .delete tableName _ => [(parseQualifiedTableName tableName).2]
  | .union left right _ => changes left ++ changes right
  | .selectInSubquery _ _ subquery => changes subquery
  | _ => []

/-- INSERT, UPDATE, DELETE, and the queries: plain, by range, aggregates, groups, joins, windows,
and those made from such statements by UNION and IN. -/
def isDml : Statement → Bool
  | .insert .. => true
  | .update .. => true
  | .delete .. => true
  | .select .. => true
  | .selectWindow .. => true
  | .selectRange .. => true
  | .selectAggregate .. => true
  | .selectGroupAggregate .. => true
  | .selectJoin .. => true
  | .union left right _ => isDml left && isDml right
  | .selectInSubquery _ _ subquery => isDml subquery
  | _ => false

end Statement

namespace Executor

variable {A : (c : Call) → c.Answer → Prop} (h : Host)

/-- **A statement that is made of queries and of changes of rows writes rows and index entries of
the tables it changes, and nothing else.** -/
theorem writesOnly_execute {W : Bytes → Prop} (stmt : Statement) (hdml : stmt.isDml)
    (hW : ∀ t ∈ stmt.changes, ∀ k, TableKey t k → W k) : WritesOnly A W (execute h stmt) := by
  induction stmt with
  | insert tableName valuesList =>
    exact writesOnly_insert h (hW _ (List.mem_singleton_self _)) valuesList
  | update tableName column value whereClause =>
    exact writesOnly_update h (hW _ (List.mem_singleton_self _)) column value whereClause
  | delete tableName whereClause =>
    exact writesOnly_delete h (hW _ (List.mem_singleton_self _)) whereClause
  | union left right all ihl ihr =>
    have hboth := Bool.and_eq_true_iff.mp hdml
    have hl := ihl hboth.1 fun t ht => hW t (List.mem_append_left _ ht)
    have hr := ihr hboth.2 fun t ht => hW t (List.mem_append_right _ ht)
    exact .bind hl fun _ => .bind hr fun _ => .pure _
  | selectInSubquery tableName column subquery ih =>
    exact .bind (ih hdml hW) fun _ => .bind (writesOnly.select h _ _ _ _) fun _ => .lift _
  | selectWindow tableName partitionBy orderBy =>
    exact .bind (writesOnly.select h _ _ _ _) fun _ => .lift _
  | select tableName whereClause orderBy limitOffset => exact writesOnly.select h _ _ _ _
  | selectRange tableName column op val => exact writesOnly.selectRange h _ _ _ _
  | selectAggregate func column tableName whereClause => exact writesOnly.selectAggregate h _ _ _ _
  | selectGroupAggregate groupCol func aggCol tableName whereClause havingClause =>
    exact writesOnly.selectGroupAggregate h _ _ _ _ _ _
  | selectJoin leftTable rightTable leftCol rightCol isLeftJoin =>
    exact writesOnly.selectJoin h _ _ _ _ _
  | _ => exact Bool.noConfusion hdml

end Executor

end MagnumDB
