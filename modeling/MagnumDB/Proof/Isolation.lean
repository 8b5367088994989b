import MagnumDB.Sql.AsciiHost
import MagnumDB.Sql.Run

/-!
# A transaction stays in its buffer

Between BEGIN and ROLLBACK, the statements that change rows or query them do not
change what the database holds: not at the end only, but at every moment, whether
they succeed or fail. Meanwhile the rows that the transaction reads are those of the
database with its own writes over them.

The argument is a contract. Each of the statements writes through `writeOrBuffer`
only, which in a transaction never calls the database (`writesOnly_execute`), so all
calls that are made are quiet. What no call changes is the same after each of them.
-/

namespace MagnumDB

open Client Executor

variable (h : Host)

/-- The counter of transaction ids never fails. -/
def Call.Answered (c : Call) (r : c.Answer) : Prop := c = .fetchTxId → r.isOk

/-- After BEGIN there is a transaction, whether it was started now or before. -/
theorem begin_quiet (self : Executor) :
    (execute h .begin self).Obeys (fun c => c.isQuiet) Call.Answered
      fun r => r.2.inTransaction := by
  show ((if self.inTransaction then _ else _ : Sql Bytes) self).Obeys _ _ _
  by_cases htx : self.inTransaction
  · rw [if_pos htx]
    exact .done htx
  · rw [if_neg htx]
    refine .call rfl fun r hr => ?_
    cases r with
    | error e => exact absurd (hr rfl) (by simp [Except.isOk, Except.toBool])
    | ok txId =>
      -- the state is set before the record is logged
      refine .call rfl fun r _ => ?_
      cases r with
      | error e => exact .done rfl
      | ok u => exact .done rfl

/-- A statement on rows in a transaction makes quiet calls, and the transaction goes on. -/
theorem dml_quiet {A : (c : Call) → c.Answer → Prop} {stmt : Statement}
    (hdml : stmt.isDml) {self : Executor} (htx : self.inTransaction) :
    (execute h stmt self).Obeys (fun c => c.isQuiet) A fun r => r.2.inTransaction := by
  have hstmt := writesOnly_execute (A := A) (W := fun _ => True) h stmt hdml
    (fun _ _ _ _ => trivial) self self ⟨rfl, rfl, fun _ _ => rfl⟩
  rw [htx] at hstmt
  exact (hstmt.calls fun c hc => Call.isQuiet_of_writes hc).mono fun r hr => hr.1.1.trans htx

theorem rollback_quiet {A : (c : Call) → c.Answer → Prop} {self : Executor} :
    (executeAll h [.rollback] self).Obeys (fun c => c.isQuiet) A fun _ => True := by
  refine executeAll_cons_obeys (K := fun _ => True) (L := fun _ => True) ?_ fun s _ => .done trivial
  show ((if self.inTransaction then _ else _ : Sql Bytes) self).Obeys _ _ _
  split
  · refine .call rfl fun r _ => ?_
    cases r with
    | error e => exact .done trivial
    | ok u => exact .done trivial
  · exact .done trivial

variable {h}

/-- A program of quiet calls leaves what the engine holds alone, at every moment. -/
theorem Engine.run_shows {α : Type} {crc : Bytes → UInt32} {fuel bound : Nat} {m : Contents}
    {x : Script Call Call.Answer α} {Q : α → Prop}
    (hx : x.Obeys (fun c => c.isQuiet) Call.Answered Q) {e : Engine}
    (hshows : e.db.index.Shows bound m) :
    Q (x.run (Engine.handle crc fuel) e).1 ∧
      (x.run (Engine.handle crc fuel) e).2.db.index.Shows bound m ∧
      ∀ u ∈ x.trace (Engine.handle crc fuel) e, u.db.index.Shows bound m := by
  refine hx.run (I := fun u : Engine => u.db.index.Shows bound m) (fun c u hc hu => ⟨?_, ?_⟩) hshows
  · rintro rfl
    rfl
  · have hquiet : (Engine.handle crc fuel c u).2.Shows bound (MapDb.handle c ⟨m, u.nextTxId⟩).2 :=
      (Engine.quiet hc ⟨hu, rfl⟩).2
    cases c with
    | putWithTx txId key value => exact absurd hc (by simp [Call.isQuiet])
    | deleteWithTx txId key => exact absurd hc (by simp [Call.isQuiet])
    | _ => exact hquiet.1

/-- **Isolation and rollback.** Statements on rows between BEGIN and ROLLBACK, succeeding or
failing, leave what the database holds as it was before BEGIN, at every moment until after the
ROLLBACK; and after any of them a scan of any table returns the rows of the database with the
writes of the transaction over them. -/
theorem transaction_isolated {crc : Bytes → UInt32} {fuel bound : Nat} {e : Engine} {m : Contents}
    (self : Executor) (stmts : List Statement) (hshows : e.db.index.Shows bound m)
    (hdml : ∀ stmt ∈ stmts, stmt.isDml) :
    (∀ u ∈ e :: (executeAll h (.begin :: (stmts ++ [.rollback])) self).trace
        (Engine.handle crc fuel) e, u.db.index.Shows bound m) ∧
      ∀ before rest, stmts = before ++ rest → bound ≤ fuel → ∀ tableName : Bytes,
        let st := ((executeAll h (.begin :: before)).run (Engine.handle crc fuel) (self, e)).2
        st.1.inTransaction ∧
          ((scanTableRows h tableName).run (Engine.handle crc fuel) st).1 = (do
            let schema ← tableSchemaIn h m (parseQualifiedTableName tableName).1
              (parseQualifiedTableName tableName).2
            decodeRows schema ((m.apply st.1.writeBuffer.entries).select
              (rowPrefix tableName).isPrefixOf)) := by
  constructor
  · have hrest : ∀ s : Executor, s.inTransaction → (executeAll h (stmts ++ [.rollback]) s).Obeys
        (fun c => c.isQuiet) Call.Answered fun _ => True :=
      executeAll_append_obeys (L := fun _ => True)
        (fun stmt hmem s htx => dml_quiet h (hdml stmt hmem) htx) fun s _ => rollback_quiet h
    have hall := executeAll_cons_obeys (K := fun s => s.inTransaction)
      (L := fun _ => True) (begin_quiet h self) hrest
    intro u hu
    rcases List.mem_cons.mp hu with rfl | hu
    · exact hshows
    · exact (Engine.run_shows hall hshows).2.2 u hu
  · rintro before rest rfl hfuel tableName st
    have hrest : ∀ s : Executor, s.inTransaction → (executeAll h (before ++ []) s).Obeys
        (fun c => c.isQuiet) Call.Answered fun r => r.2.inTransaction :=
      executeAll_append_obeys (L := fun s => s.inTransaction)
        (fun stmt hmem s htx => dml_quiet h (hdml stmt (List.mem_append_left _ hmem)) htx)
        fun s hs => .done hs
    have hbefore := executeAll_cons_obeys (K := fun s => s.inTransaction)
      (L := fun s => s.inTransaction) (begin_quiet h self) hrest
    rw [List.append_nil] at hbefore
    obtain ⟨htx, hkept, -⟩ : _ ∧ st.2.db.index.Shows bound m ∧ _ := Engine.run_shows hbefore hshows
    refine ⟨htx, ?_⟩
    -- a scan is quiet as well, so it can be run on the map instead
    have hscan := ((writesOnly (A := fun _ _ => True) (W := fun _ => False)).scanTableRows h tableName
      st.1 st.1 ⟨rfl, rfl, fun _ _ => rfl⟩).safe (h := MapDb.handle) (I := fun _ => True)
      (t := ⟨m, st.2.nextTxId⟩) (fun _ _ _ _ => ⟨trivial, trivial⟩) trivial
    have hresult : ((scanTableRows h tableName).run (Engine.handle crc fuel) st).1
        = ((scanTableRows h tableName).onMap (st.1, ⟨m, st.2.nextTxId⟩)).1 :=
      (Engine.run_quiet ⟨hkept, rfl⟩ hfuel (hscan.mono fun c _ hc => Call.isQuiet_of_reads hc)).1
    refine hresult.trans ?_
    rw [onMap_scanTableRows]
    have hview : st.1.view m = m.apply st.1.writeBuffer.entries := if_pos htx
    unfold rowsIn
    rw [hview]

/-- A transaction that inserts a row, tries to insert it again, changes and deletes it, in a database
with a table. -/
theorem transaction_isolated_insert : ∃ (e : Engine) (bound : Nat) (m : Contents),
    m.get (schemaKeyOf (Text.ofString "t")) = some (Text.ofString "id INT,v TEXT") ∧
    ∀ u ∈ e :: (executeAll asciiHost (.begin ::
        ([.insert (Text.ofString "t") [[Text.ofString "1", Text.ofString "a"]],
          .insert (Text.ofString "t") [[Text.ofString "1", Text.ofString "b"]],
          .update (Text.ofString "t") (Text.ofString "v") (Text.ofString "c") none,
          .delete (Text.ofString "t") none, .select (Text.ofString "t") none none none] ++
        [.rollback])) idle).trace (Engine.handle (fun _ => 0) 100) e, u.db.index.Shows bound m := by
  obtain ⟨t₀, _, hfresh, _⟩ := BTree.fresh_holds false 16 0
  have hcheck : (match BTree.fresh 16 0 with
    | .ok t => checkRun false 5
        [.insert (schemaKeyOf (Text.ofString "t")) (Text.ofString "id INT,v TEXT")] t
    | .error _ => false) = true := by decide +kernel
  rw [hfresh] at hcheck
  have hholds := (fresh_holdsMap hfresh).eval
    (by simp [TreeOp.Sized, maxKeySize]; decide) hcheck
  obtain ⟨bound, m, hshows, hget⟩ := hholds.shows
  refine ⟨⟨⟨Config.default, none, _⟩, 1⟩, bound, m, ?_, (transaction_isolated idle _ hshows ?_).1⟩
  · rw [hget]
    rfl
  · decide

end MagnumDB
