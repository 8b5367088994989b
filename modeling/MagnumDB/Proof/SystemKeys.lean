import MagnumDB.Sql.AsciiHost
import MagnumDB.Sql.Ddl
import MagnumDB.Sql.Executed
import MagnumDB.Sql.ParserNames
import MagnumDB.Sql.RecordInv

/-!
# Rows and the keys of the system

The keys of the system begin with two underscores, and the parser refuses a table name
that does. But it looks at the name as it is written: of `x.__catalog__` it sees the
`x`, while the rows are stored under `__catalog__:`. The name in WITH is not looked at.

As long as no such table is created, none is found: a statement on rows asks for the
older record of its table first. That no such record is stored is a property of single
records (`Harmless`), which all statements keep.
-/

namespace MagnumDB

open Text CatalogManager Executor List

variable {h : Host}

/-! ## Records -/

def catalogPrefix : Bytes := "__catalog__:table:"

/-- The record is not that of a table whose name begins like a key of the system: neither its older
record, nor one of the catalog. -/
def Harmless (h : Host) : RecordProp := fun k v =>
  (∀ t, reserved t → k ≠ schemaKeyOf t) ∧
    (catalogPrefix <+: k → ∀ schema, h.schemaFromJson v = some schema → reserved schema.tableName = false)

theorem take_catalogPrefix {k : Bytes} (hk : catalogPrefix <+: k) : k.take 4 = "__ca" := by
  obtain ⟨rest, rfl⟩ := hk
  have hlit : catalogPrefix = "__ca" ++ "talog__:table:" := by decide
  rw [hlit, append_assoc]
  exact take_left' (by decide)

theorem harmless_of_take {k v : Bytes} (hschema : k.take 4 ≠ "__sc")
    (hcatalog : k.take 4 ≠ "__ca") : Harmless h k v := by
  constructor
  · rintro t - rfl
    exact hschema (take_schemaKeyOf t)
  · exact fun hk => absurd (take_catalogPrefix hk) hcatalog

theorem harmless_of_unreserved {k v : Bytes} (hk : reserved k = false) : Harmless h k v := by
  have hnot : ∀ b c : UInt8, k.take 4 ≠ [95, 95, b, c] := by
    intro b c htake
    rw [reserved_of_take htake] at hk
    exact Bool.noConfusion hk
  exact harmless_of_take (hnot _ _) (hnot _ _)

variable {t : Bytes} {st : Executor × MapDb}

theorem harmless_of_tableKey {k v : Bytes} (ht : reserved t = false) (hk : TableKey t k) :
    Harmless h k v := by
  rcases hk with hrow | hsec
  · exact harmless_of_unreserved ((reserved_of_rowPrefix hrow).trans ht)
  · have htake := take_secPrefix hsec
    exact harmless_of_take (by rw [htake]; decide) (by rw [htake]; decide)

theorem harmless_indexKey (t name v : Bytes) : Harmless h (indexKey t name) v := by
  have htake := take_indexPrefix (k := indexKey t name) (prefix_append _ _)
  exact harmless_of_take (by rw [htake]; decide) (by rw [htake]; decide)

theorem harmless_schemaKeyOf (ht : reserved t = false) (v : Bytes) :
    Harmless h (schemaKeyOf t) v := by
  constructor
  · intro t' ht' heq
    rw [← append_cancel_left heq, ht] at ht'
    exact Bool.noConfusion ht'
  · intro hk
    exact absurd ((take_catalogPrefix hk).symm.trans (take_schemaKeyOf t)) (by decide)

theorem harmless_catalog (hjson : h.RoundTrip) {schema : TableSchema}
    (hname : reserved schema.tableName = false) (s t : Bytes) :
    Harmless h (tableKey h s t) (h.schemaToJson schema) := by
  constructor
  · intro t' _ heq
    exact absurd ((take_tableKey h s t).symm.trans (heq ▸ take_schemaKeyOf t')) (by decide)
  · intro _ found hfound
    rw [hjson schema] at hfound
    rw [← Option.some.inj hfound]
    exact hname

theorem harmless_of_length {k v : Bytes} {pre : Bytes} (hpre : pre <+: k)
    (htake : pre.take 4 = "__ca") (hlen : catalogPrefix.take 13 ≠ pre.take 13)
    (hlong : 13 ≤ pre.length) : Harmless h k v := by
  obtain ⟨rest, rfl⟩ := hpre
  constructor
  · intro t _ heq
    have hk : (pre ++ rest).take 4 = "__ca" := by
      rw [take_append_of_le_length (by omega), htake]
    rw [heq, take_schemaKeyOf] at hk
    exact absurd hk (by decide)
  · rintro ⟨rest', heq⟩
    have htake' := congrArg (List.take 13) heq
    rw [take_append_of_le_length (by decide), take_append_of_le_length hlong] at htake'
    exact absurd htake' hlen

/-! ## What the statements keep -/

theorem keeps_getSchemaBytes (t : Bytes) :
    Keeps (Harmless h) (getSchemaBytes t) fun r => r.isSome → reserved t = false := by
  refine (keeps_readThrough _).mono fun r hr hsome => ?_
  obtain ⟨v, hv⟩ := Option.isSome_iff_exists.mp hsome
  rw [Bool.eq_false_iff]
  exact fun ht => (hr v hv).1 t ht rfl

theorem keeps_columnNames (t tableName : Bytes) :
    Keeps (Harmless h) (columnNames t tableName) fun _ => reserved t = false := by
  refine (keeps_getSchemaBytes t).bind fun r hr => ?_
  cases r with
  | none => exact .fail _
  | some bytes => exact keeps_ite (fun _ => .pure (hr rfl)) fun _ => .fail _

theorem keeps_getTableSchema (s : Bytes) (ht : reserved t = false) :
    Keeps (Harmless h) (getTableSchema h s t) fun r =>
      ∀ schema, r = some schema → reserved schema.tableName = false := by
  refine (keeps_get _).bind fun r hr => ?_
  cases r with
  | some bytes =>
    dsimp only
    split
    · rename_i schema hjson
      refine .pure fun schema' hschema => ?_
      rw [← Option.some.inj hschema]
      have hpre : catalogPrefix <+: tableKey h s t := by
        unfold tableKey
        rw [append_assoc, append_assoc]
        exact prefix_append _ _
      exact (hr bytes rfl).2 hpre schema hjson
    · exact .fail _
  | none =>
    refine keeps_ite (fun _ => ?_) fun _ => .pure fun _ hnone => nomatch hnone
    refine (keeps_get _).bind fun older _ => ?_
    cases older with
    | none => exact .pure fun _ hnone => nomatch hnone
    | some bytes =>
      refine keeps_ite (fun _ => .pure fun schema hschema => ?_) fun _ => .fail _
      rw [← Option.some.inj hschema]
      exact ht

theorem keeps_saveTableSchema (hjson : h.RoundTrip) {schema : TableSchema}
    (hname : reserved schema.tableName = false) :
    KeepsAny (Harmless h) (saveTableSchema h schema) :=
  (keeps_put (harmless_catalog hjson hname _ _)).bind fun _ _ =>
    keeps_put (harmless_schemaKeyOf hname _)

theorem keeps_defineUnique (t : Bytes) (col : ColumnDef) :
    KeepsAny (Harmless h) (defineUnique t col) :=
  keeps_ite (fun _ => keeps_writeOrBuffer fun _ _ => harmless_indexKey _ _ _) fun _ => .pure trivial

variable {tableName : Bytes}

theorem keeps_createTable (hjson : h.RoundTrip) (columns : List Bytes)
    (hname : reserved (parseQualifiedTableName tableName).2 = false) :
    KeepsAny (Harmless h) (createTable h tableName columns) := by
  have hexists : KeepsAny (Harmless h) (tableExists h (parseQualifiedTableName tableName).1
      (parseQualifiedTableName tableName).2) := by
    refine (keeps_getSchemaBytes _).bind fun _ _ => keeps_ite (fun _ => .pure trivial) fun _ => ?_
    exact (keeps_getTableSchema _ hname).bind fun _ _ => .pure trivial
  refine hexists.bind fun _ _ => keeps_ite (fun _ => .fail _) fun _ => ?_
  refine Client.Obeys.bind (.lift fun _ _ => trivial) fun colDefs (_ : True) => ?_
  refine Client.Obeys.bind (keeps_saveTableSchema hjson hname) fun _ _ => ?_
  refine Client.Obeys.bind (keeps_writeOrBuffer fun _ _ => harmless_schemaKeyOf hname _) fun _ _ => ?_
  exact Client.Obeys.bind (.forEach fun col _ => keeps_defineUnique _ col) fun _ _ => .pure trivial

theorem keeps_createIndex (indexName tableName : Bytes) (columns : List Bytes) :
    KeepsAny (Harmless h) (createIndex indexName tableName columns) := by
  refine (keeps_getSchemaBytes _).bind fun r hr => ?_
  cases r with
  | none => exact .fail _
  | some schemaBytes =>
    have hname := hr rfl
    refine (keeps_get _).bind fun _ _ => keeps_ite (fun _ => .fail _) fun _ => ?_
    refine (keeps_put (harmless_indexKey _ _ _)).bind fun _ _ => ?_
    refine keeps_ite (fun _ => .fail _) fun _ => ?_
    refine Client.Obeys.bind (.lift fun _ _ => trivial) fun colIndices (_ : True) => ?_
    refine (keeps_scanPrefix _).bind fun records _ => ?_
    refine Client.Obeys.bind (.forEach fun record _ => ?_) fun _ _ => .pure trivial
    refine Client.Obeys.bind (.lift fun _ _ => trivial) fun decoded (_ : True) => ?_
    refine keeps_ite (fun _ => ?_) fun _ => .pure trivial
    exact (writesOnly.secIdxAdd (tableKey_secKey _ _ _) _ _).keeps fun k hk v =>
      harmless_of_tableKey hname hk

theorem keeps_alterTable (hjson : h.RoundTrip) (columnDef : Bytes)
    (hname : reserved (parseQualifiedTableName tableName).2 = false) :
    KeepsAny (Harmless h) (alterTableAddColumn h tableName columnDef) := by
  refine Client.Obeys.bind (.lift fun _ _ => trivial) fun colDef (_ : True) => ?_
  refine (keeps_getTableSchema _ hname).bind fun r hr => ?_
  cases r with
  | none => exact .fail _
  | some schema =>
    refine Client.Obeys.bind (keeps_saveTableSchema hjson (hr schema rfl)) fun _ _ => ?_
    refine Client.Obeys.bind (keeps_writeOrBuffer fun _ _ => harmless_schemaKeyOf hname _) fun _ _ => ?_
    exact Client.Obeys.bind (keeps_defineUnique _ _) fun _ _ => .pure trivial

/-! ## Statements on rows -/

/-- Not the key of a row of the table that begins like a key of the system. -/
def NoSystemRow (t k : Bytes) : Prop := rowPrefix t <+: k → reserved k = false

/-- The contract of a statement on rows of a table: no key of a row that it writes or deletes begins
like a key of the system. -/
abbrev RowContract (h : Host) (t : Bytes) {α : Type} (x : Sql α) : Prop :=
  ∀ self₀ : Executor, Client.Obeys
    (fun c => c.Stores (Harmless h) ∧ c.Writes false (NoSystemRow t)) (Call.Returns (Harmless h))
    (fun self => BufferAll (Harmless h) self ∧ Differs (NoSystemRow t) self₀ self) x fun _ => True

theorem rowContract_of_writesOnly {α : Type} {x : Sql α} (ht : reserved t = false)
    (hx : WritesOnly (Call.Returns (Harmless h)) (TableKey t) x)
    (hx' : WritesOnly (Call.Returns (Harmless h)) (NoSystemRow t) x) : RowContract h t x := by
  intro self₀
  have hkeeps := hx.keeps fun k hk v => harmless_of_tableKey (h := h) ht hk
  exact (hkeeps.and (hx'.touches self₀)).mono fun _ _ => trivial

theorem noSystemRow_of_unreserved (ht : reserved t = false) (k : Bytes) :
    NoSystemRow t k := fun hrow => (reserved_of_rowPrefix hrow).trans ht

/-- A statement that asks for the columns of its table first fails if the name begins like a key
of the system. -/
theorem rowContract_of_columnNames {α : Type} {f : List Bytes → Sql α} (ht : reserved t) :
    RowContract h t (columnNames t tableName >>= f) := by
  intro self₀
  refine Client.Obeys.bind ((keeps_columnNames t tableName).and
    ((writesOnly.columnNames t tableName).touches self₀)) fun _ hname => ?_
  rw [ht] at hname
  exact Bool.noConfusion hname.1

theorem rowContract_insert (tableName : Bytes) (valuesList : List (List Bytes)) :
    RowContract h (parseQualifiedTableName tableName).2 (insert h tableName valuesList) := by
  cases ht : reserved (parseQualifiedTableName tableName).2 with
  | true => exact rowContract_of_columnNames ht
  | false =>
    exact rowContract_of_writesOnly ht (writesOnly_insert h (fun _ hk => hk) valuesList)
      (writesOnly_insert h (fun k _ => noSystemRow_of_unreserved ht k) valuesList)

theorem rowContract_update (tableName column value : Bytes) (whereClause : Option (Bytes × Bytes)) :
    RowContract h (parseQualifiedTableName tableName).2
      (update h tableName column value whereClause) := by
  cases ht : reserved (parseQualifiedTableName tableName).2 with
  | true => exact rowContract_of_columnNames ht
  | false =>
    exact rowContract_of_writesOnly ht (writesOnly_update h (fun _ hk => hk) _ _ _)
      (writesOnly_update h (fun k _ => noSystemRow_of_unreserved ht k) _ _ _)

theorem rowContract_delete (tableName : Bytes) (whereClause : Option (Bytes × Bytes)) :
    RowContract h (parseQualifiedTableName tableName).2 (delete h tableName whereClause) := by
  cases ht : reserved (parseQualifiedTableName tableName).2 with
  | true => exact rowContract_of_columnNames ht
  | false =>
    exact rowContract_of_writesOnly ht (writesOnly_delete h (fun _ hk => hk) _)
      (writesOnly_delete h (fun k _ => noSystemRow_of_unreserved ht k) _)

theorem rowContract_dropTable (tableName : Bytes) :
    RowContract h (parseQualifiedTableName tableName).2 (dropTable h tableName) := by
  intro self₀
  by_cases ht : reserved (parseQualifiedTableName tableName).2
  · refine Client.Obeys.bind ((keeps_getSchemaBytes _).and
      ((writesOnly.readThrough _).touches self₀)) fun r hr => ?_
    split
    · exact .fail _
    · rename_i hnone
      have hname := hr.1 (by simpa [Option.isSome_iff_ne_none] using hnone)
      exact absurd (hname.symm.trans ht) Bool.false_ne_true
  · have hW := noSystemRow_of_unreserved (Bool.eq_false_iff.mpr ht)
    have hdrop : Touches Call.Scanned (NoSystemRow (parseQualifiedTableName tableName).2)
        (dropTable h tableName) := touches_dropTable h fun k _ => hW k
    have htouch := (hdrop self₀).answers fun c r hr => Call.Returns.scanned (F := Harmless h) hr
    exact ((keeps_dropTable h tableName).and htouch).mono fun _ _ => trivial

/-- No key of a row that the statement writes or deletes begins like a key of the system: not in a
call to the database, and not in the buffer. -/
def RowsUnreserved (h : Host) (e : Execution) : Prop :=
  ∀ tableName, e.1.target = some tableName →
    let t := (parseQualifiedTableName tableName).2
    (execute h e.1 e.2.1).Safe (fun c _ => c.Writes false (NoSystemRow t)) MapDb.handle e.2.2 ∧
      Differs (NoSystemRow t) e.2.1 (after h e.1 e.2).1

theorem rowContract_target {stmt : Statement} (htarget : stmt.target = some tableName) :
    RowContract h (parseQualifiedTableName tableName).2 (execute h stmt) := by
  cases stmt with
  | insert name valuesList =>
    obtain rfl := Option.some.inj htarget
    exact rowContract_insert name valuesList
  | update name column value whereClause =>
    obtain rfl := Option.some.inj htarget
    exact rowContract_update name column value whereClause
  | delete name whereClause =>
    obtain rfl := Option.some.inj htarget
    exact rowContract_delete name whereClause
  | dropTable name =>
    obtain rfl := Option.some.inj htarget
    exact rowContract_dropTable name
  | _ => exact nomatch htarget

/-- In a state without such a table, no statement writes such a row. -/
theorem rowsUnreserved_of_harmless {e : Execution} (hst : AllRecords (Harmless h) e.2) :
    RowsUnreserved h e := by
  intro tableName htarget
  obtain ⟨stmt, self, d⟩ := e
  have hx := rowContract_target (h := h) htarget self self ⟨hst.1, rfl, rfl, fun _ _ => rfl⟩
  have hI : ∀ c d, (c.Stores (Harmless h) ∧ c.Writes false (NoSystemRow
      (parseQualifiedTableName tableName).2)) → Contents.All (Harmless h) d.contents →
      c.Returns (Harmless h) (MapDb.handle c d).1 ∧
        Contents.All (Harmless h) (MapDb.handle c d).2.contents :=
    fun c d hc hd => handle_keeps hc.1 hd
  have hsafe := hx.safe (h := MapDb.handle) (I := fun d => Contents.All (Harmless h) d.contents) hI hst.2
  have hrun := hx.run (h := MapDb.handle) (I := fun d => Contents.All (Harmless h) d.contents) hI hst.2
  exact ⟨hsafe.mono fun _ _ hc => hc.2, hrun.1.1.2⟩

/-! ## Runs -/

/-- A table whose name begins like a key of the system is neither created nor altered: the statement
stops before it writes. -/
def NamesKept (h : Host) : Execution → Prop
  | (.createTable tableName columns, st) =>
    reserved (parseQualifiedTableName tableName).2 →
      createTableStops h st.1 st.2.contents tableName columns
  | (.alterTableAddColumn tableName columnDef, st) =>
    reserved (parseQualifiedTableName tableName).2 →
      alterTableStops h st.2.contents tableName columnDef
  | _ => True

theorem harmless_createTable (hjson : h.RoundTrip) {columns : List Bytes}
    (hnames : NamesKept h (.createTable tableName columns, st)) (hst : AllRecords (Harmless h) st) :
    AllRecords (Harmless h) (after h (.createTable tableName columns) st) := by
  cases ht : reserved (parseQualifiedTableName tableName).2 with
  | false => exact ((keeps_createTable hjson columns ht).run hst).1
  | true =>
    obtain ⟨e, he⟩ : ∃ e, (createTable h tableName columns).onMap (st.1, st.2) = (.error e, st) :=
      createTable_stops (hnames ht)
    show AllRecords _ ((createTable h tableName columns).onMap st).2
    rw [he]
    exact hst

theorem harmless_alterTable (hjson : h.RoundTrip) {columnDef : Bytes}
    (hnames : NamesKept h (.alterTableAddColumn tableName columnDef, st))
    (hst : AllRecords (Harmless h) st) :
    AllRecords (Harmless h) (after h (.alterTableAddColumn tableName columnDef) st) := by
  cases ht : reserved (parseQualifiedTableName tableName).2 with
  | false => exact ((keeps_alterTable hjson columnDef ht).run hst).1
  | true =>
    obtain ⟨e, he⟩ : ∃ e, (alterTableAddColumn h tableName columnDef).onMap (st.1, st.2)
        = (.error e, st) := alterTable_stops (hnames ht)
    show AllRecords _ ((alterTableAddColumn h tableName columnDef).onMap st).2
    rw [he]
    exact hst

theorem keeps_createUser (username : Bytes) (pwdHash : Option Bytes) (isSuperuser : Bool) :
    KeepsAny (Harmless h) (CatalogManager.createUser h username pwdHash isSuperuser) := by
  refine (keeps_get _).any.bind fun _ _ => keeps_ite (fun _ => .fail _) fun _ => keeps_put ?_
  exact harmless_of_length (prefix_append (ofString "__catalog__:user:") _) (by decide) (by decide)
    (by decide)

theorem keeps_createSchema (schemaName : Bytes) :
    KeepsAny (Harmless h) (CatalogManager.createSchema h schemaName) := by
  refine (keeps_get _).any.bind fun _ _ => keeps_ite (fun _ => .fail _) fun _ => keeps_put ?_
  exact harmless_of_length (prefix_append (ofString "__catalog__:schema:") _) (by decide) (by decide)
    (by decide)

/-- A statement that is not made of others keeps the records harmless. -/
theorem harmless_step (hjson : h.RoundTrip) (e : Execution) (hsimple : e.1.isSimple)
    (hnames : NamesKept h e) (hst : AllRecords (Harmless h) e.2) :
    AllRecords (Harmless h) (after h e.1 e.2) := by
  obtain ⟨stmt, st⟩ := e
  have hrows : ∀ tableName, stmt.target = some tableName → AllRecords (Harmless h) (after h stmt st) := by
    intro tableName htarget
    have hx : KeepsAny (Harmless h) (execute h stmt) := fun self hself =>
      ((rowContract_target (h := h) htarget self self ⟨hself, rfl, rfl, fun _ _ => rfl⟩).calls
        fun _ hc => hc.1).mono fun _ hr => ⟨hr.1.1, fun _ _ => trivial⟩
    exact (hx.run hst).1
  have hquery : stmt.isDml → stmt.changes = [] → AllRecords (Harmless h) (after h stmt st) := by
    intro hdml hnone
    have hx : WritesOnly (Call.Returns (Harmless h)) (fun _ => False) (execute h stmt) :=
      writesOnly_execute h stmt hdml fun t ht => absurd (hnone ▸ ht) not_mem_nil
    exact ((KeepsAny.of_reads hx).run hst).1
  cases stmt with
  | createTable tableName columns => exact harmless_createTable hjson hnames hst
  | alterTableAddColumn tableName columnDef => exact harmless_alterTable hjson hnames hst
  | createIndex indexName tableName columns =>
    exact ((keeps_createIndex indexName tableName columns).run hst).1
  | createUser username password =>
    have hx : KeepsAny (Harmless h) (execute h (.createUser username password)) :=
      (keeps_createUser username _ false).bind fun _ _ => .pure trivial
    exact (hx.run hst).1
  | createSchema schemaName =>
    have hx : KeepsAny (Harmless h) (execute h (.createSchema schemaName)) :=
      (keeps_createSchema schemaName).bind fun _ _ => .pure trivial
    exact (hx.run hst).1
  | begin => exact (keeps_begin.run hst).1
  | commit => exact (keeps_commit.run hst).1
  | rollback => exact (keeps_rollback.run hst).1
  | showTables =>
    have hx : WritesOnly (Call.Returns (Harmless h)) (fun _ => False) (execute h .showTables) :=
      .bind (writesOnly.listTables h _) fun _ => .pure _
    exact ((KeepsAny.of_reads hx).run hst).1
  | showSchemas =>
    have hx : WritesOnly (Call.Returns (Harmless h)) (fun _ => False) (execute h .showSchemas) :=
      .bind writesOnly.listSchemas fun _ => .pure _
    exact ((KeepsAny.of_reads hx).run hst).1
  | insert tableName valuesList => exact hrows tableName rfl
  | update tableName column value whereClause => exact hrows tableName rfl
  | delete tableName whereClause => exact hrows tableName rfl
  | dropTable tableName => exact hrows tableName rfl
  | union left right all => exact Bool.noConfusion hsimple
  | withQuery cteName cteQuery mainQuery => exact Bool.noConfusion hsimple
  | selectInSubquery tableName column subquery => exact Bool.noConfusion hsimple
  | _ => exact hquery rfl rfl

theorem allRecords_of_agree {F : RecordProp} {st' : Executor × MapDb}
    (hagree : Agree (fun _ => True) st st') (hst : AllRecords F st) : AllRecords F st' := by
  refine ⟨fun k v hget => hst.1 k v ?_, fun k v hget => hst.2 k v ?_⟩
  · rwa [(hagree.2 k trivial).1] at hget
  · rwa [(hagree.2 k trivial).2] at hget

/-- A CREATE TABLE without a qualifier. -/
def Statement.createsUnqualified : Statement → Bool
  | .createTable tableName _ => (find "." tableName).isNone
  | _ => false

/-- The parser has looked at the name of such a table. -/
theorem namesKept_of_unqualified {stmt : Statement} (hchecked : stmt.NamesChecked)
    (hunqualified : stmt.createsUnqualified) (st : Executor × MapDb) : NamesKept h (stmt, st) := by
  cases stmt with
  | createTable tableName columns =>
    intro hres
    have hname : parseQualifiedTableName tableName = (defaultSchema, trim tableName) := by
      unfold parseQualifiedTableName
      rw [Option.isNone_iff_eq_none.mp hunqualified]
    have hfree : reserved (trim tableName) = false := hchecked
    rw [hname, hfree] at hres
    exact Bool.noConfusion hres
  | _ => exact Bool.noConfusion hunqualified

/-- A CREATE TABLE as it stands in the text, without a qualifier; or else the name of a table that
is created or altered does not begin like a key of the system, or the statement stops. -/
def NamesAllowed (h : Host) (stmt : Statement) (e : Execution) : Prop :=
  (e.1 ∈ stmt.simples ∧ e.1.createsUnqualified) ∨ NamesKept h e

/-- **Rows stay out of the keys of the system** in every run of accepted texts in which no table
whose name begins like such a key after its qualifier is created, altered, or named by WITH: no
statement that is executed, on its own or on behalf of another, succeeding or failing, writes or
deletes a row under such a key. -/
theorem system_keys_out_of_reach (hjson : h.RoundTrip) {texts : List Bytes} {stmts : List Statement}
    (hparsed : List.Forall₂ (fun text stmt => Parser.parse h text = .ok stmt) texts stmts)
    {st : Executor × MapDb} (hst : AllRecords (Harmless h) st)
    (hnames : ∀ before stmt rest, stmts = before ++ stmt :: rest →
      ∀ e ∈ executed h stmt ((executeAll h before).onMap st).2, NamesAllowed h stmt e) :
    ∀ before stmt rest, stmts = before ++ stmt :: rest →
      ∀ e ∈ executed h stmt ((executeAll h before).onMap st).2, RowsUnreserved h e := by
  have hkept : ∀ before stmt rest, stmts = before ++ stmt :: rest →
      ∀ e ∈ executed h stmt ((executeAll h before).onMap st).2, NamesKept h e := by
    intro before stmt rest hsplit e he
    rcases hnames before stmt rest hsplit e he with ⟨hmem, hunqualified⟩ | hkept
    · have hstmt : stmt ∈ stmts := by simp [hsplit]
      obtain ⟨text, hparse⟩ : ∃ text, Parser.parse h text = .ok stmt := by
        clear hnames hsplit he
        induction hparsed with
        | nil => exact absurd hstmt not_mem_nil
        | cons hhead _ ih =>
          rcases mem_cons.mp hstmt with rfl | hstmt
          · exact ⟨_, hhead⟩
          · exact ih hstmt
      exact namesKept_of_unqualified ((Parser.parse_namesChecked h hparse).simples e.1 hmem)
        hunqualified e.2
    · exact hkept
  -- one statement, with all that are executed on its behalf
  have hstep := fun stmt st => executed_invariant (h := h) (I := AllRecords (Harmless h))
    (C := NamesKept h) (harmless_step hjson) (fun _ _ => allRecords_of_agree) stmt st
  intro before stmt rest hsplit e he
  have hbefore : AllRecords (Harmless h) ((executeAll h before).onMap st).2 := by
    clear he hnames hparsed
    subst hsplit
    -- the statements before, from the last one backwards
    induction before using List.reverseRecOn generalizing stmt rest with
    | nil => exact hst
    | append_singleton before last ih =>
      have hprev := ih last (stmt :: rest) fun b s r hsplit => hkept b s r (by
        rw [← hsplit]
        simp)
      have hnext := (hstep last _ hprev (hkept before last (stmt :: rest) (by simp))).2
      rw [onMap_executeAll] at hnext ⊢
      rw [foldl_append]
      exact hnext
  exact rowsUnreserved_of_harmless ((hstep stmt _ hbefore (hkept before stmt rest hsplit)).1 e he)

/-- The name of a table that the statement creates or alters begins like a key of the system. -/
def Statement.definesSystemName : Statement → Bool
  | .createTable tableName _ => reserved (parseQualifiedTableName tableName).2
  | .alterTableAddColumn tableName _ => reserved (parseQualifiedTableName tableName).2
  | _ => false

theorem namesKept_of_name {e : Execution} (hname : e.1.definesSystemName = false) : NamesKept h e := by
  obtain ⟨stmt, st⟩ := e
  cases stmt with
  | createTable tableName columns =>
    exact fun hres => absurd (hname.symm.trans hres) Bool.false_ne_true
  | alterTableAddColumn tableName columnDef =>
    exact fun hres => absurd (hname.symm.trans hres) Bool.false_ne_true
  | _ => trivial

/-- A table is created, a row is inserted, and a WITH is executed over it. -/
theorem system_keys_out_of_reach_with :
    let es := executed asciiHost (.withQuery "c" (.select "t" none none none)
        (.select "c" none none none))
      ((executeAll asciiHost [.createTable "t" ["id TEXT"],
        .insert "t" [["__x"]]]).onMap (idle, ⟨SortedMap.empty, 1⟩)).2
    es.length = 5 ∧ ∀ e ∈ es, RowsUnreserved asciiHost e := by
  have hparsed : List.Forall₂ (fun text stmt => Parser.parse asciiHost text = .ok stmt)
      ["CREATE TABLE t (id TEXT)", "INSERT INTO t VALUES ('__x')",
        "WITH c AS (SELECT * FROM t) SELECT * FROM c"]
      [.createTable "t" ["id TEXT"], .insert "t" [["__x"]],
        .withQuery "c" (.select "t" none none none)
          (.select "c" none none none)] :=
    .cons (by decide +kernel) (.cons (by decide +kernel) (.cons (by decide +kernel) .nil))
  refine ⟨by decide +kernel, ?_⟩
  refine system_keys_out_of_reach asciiHost_roundTrip hparsed (allRecords_empty _ 1) ?_
    [.createTable "t" ["id TEXT"], .insert "t" [["__x"]]] _ [] rfl
  intro before stmt rest hsplit e he
  refine .inr (namesKept_of_name ?_)
  revert e
  match before, hsplit with
  | [], hsplit =>
    cases hsplit
    decide +kernel
  | [_], hsplit =>
    cases hsplit
    decide +kernel
  | [_, _], hsplit =>
    cases hsplit
    decide +kernel
  | _ :: _ :: _ :: _, hsplit => simp at hsplit

/-- **A row that is the record of a user.** The parser accepts both texts, and the row is stored
under the key of the user `bob`. -/
theorem row_under_system_key :
    let create : Statement := .createTable "x.__catalog__" ["id TEXT"]
    let insert : Statement := .insert "x.__catalog__" [["user:bob"]]
    let st := ((executeAll asciiHost [create]).onMap (idle, ⟨SortedMap.empty, 1⟩)).2
    Parser.parse asciiHost "CREATE TABLE x.__catalog__ (id TEXT)" = .ok create ∧
      Parser.parse asciiHost "INSERT INTO x.__catalog__ VALUES ('user:bob')" = .ok insert ∧
      st.2.contents.get (userKey asciiHost "bob") = none ∧
      rowKey "__catalog__" "user:bob" = userKey asciiHost "bob" ∧
      (after asciiHost insert st).2.contents.get (userKey asciiHost "bob")
        = some (encodeValuesMvcc ["user:bob"] 1 0) := by
  decide +kernel

end MagnumDB
