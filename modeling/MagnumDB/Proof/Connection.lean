import MagnumDB.Network.Server
import MagnumDB.Sql.AsciiHost

/-!
# Transactions over a connection

The server makes a new executor for each request, so a transaction does not outlive its
BEGIN: what follows is executed on its own, and ROLLBACK finds no transaction. The
contents of the database stay what they were before the BEGIN as long as none of the
statements gets to write anything.
-/

namespace MagnumDB

open Text Executor

/-- INSERT, UPDATE or DELETE. -/
def Statement.changesRows : Statement → Bool
  | .insert .. => true
  | .update .. => true
  | .delete .. => true
  | _ => false

/-- On these contents the statement, executed on its own, ends before it writes anything. -/
def Statement.stopsEarly (h : Host) (m : Contents) : Statement → Bool
  | .insert tableName valuesList => insertStops h m tableName valuesList
  | .update tableName column value whereClause =>
    updateStops h m tableName column value whereClause
  | .delete tableName whereClause => deleteStops h m tableName whereClause
  | _ => false

variable {h : Host} {d : MapDb}

theorem stopsEarly_step {stmt : Statement} (hstop : stmt.stopsEarly h d.contents) :
    ((execute h stmt).onMap (idle, d)).2 = (idle, d) := by
  cases stmt with
  | insert tableName valuesList => exact insert_stops hstop
  | update tableName column value whereClause => exact update_stops hstop
  | delete tableName whereClause => exact delete_stops hstop
  | _ => exact absurd hstop (by simp [Statement.stopsEarly])

/-- The state of a connection after some requests. -/
def servedAll (h : Host) (rs : List Request) (st : Executor × MapDb) : Executor × MapDb :=
  rs.foldl (fun st r => r.served h st) st

/-- BEGIN, COMMIT and ROLLBACK over a connection do nothing to the contents. -/
theorem served_control {r : Request} {stmt : Statement} {self : Executor}
    (hreg : registered h d.contents) (hasks : r.Asks h stmt)
    (hstmt : stmt = .begin ∨ stmt = .commit ∨ stmt = .rollback) :
    (r.served h (self, d)).2.contents = d.contents := by
  rw [Request.served_asks hreg hasks]
  rcases hstmt with rfl | rfl | rfl
  · show (begin.onMap (idle, d)).2.2.contents = _
    rw [onMap_begin]
    rfl
  · show (commit.onMap (idle, d)).2.2.contents = _
    rw [onMap_commit_idle rfl]
  · show (rollback.onMap (idle, d)).2.2.contents = _
    rw [onMap_rollback]
    rfl

/-- Requests none of which gets to write anything. -/
theorem servedAll_stops {rs : List Request} {m : Contents} (hreg : registered h m) :
    ∀ {st : Executor × MapDb}, st.2.contents = m →
    (∀ r ∈ rs, ∃ stmt, r.Asks h stmt ∧ stmt.changesRows) →
    (∀ before r rest stmt, rs = before ++ r :: rest → r.Asks h stmt →
      stmt.stopsEarly h (servedAll h before st).2.contents) →
    (servedAll h rs st).2.contents = m := by
  induction rs with
  | nil => exact fun hst _ _ => hst
  | cons r rs ih =>
    intro st hst hdml hstop
    obtain ⟨stmt, hasks, -⟩ := hdml r List.mem_cons_self
    obtain ⟨self, d⟩ := st
    obtain rfl : d.contents = m := hst
    have hfirst : stmt.stopsEarly h d.contents := hstop [] r rs stmt rfl hasks
    have hstep : (r.served h (self, d)).2 = d := by
      rw [Request.served_asks hreg hasks, stopsEarly_step hfirst]
    refine @ih (r.served h (self, d)) (by rw [hstep])
      (fun r' hr' => hdml r' (List.mem_cons_of_mem r hr')) fun before r' rest stmt' hsplit hasks' => ?_
    exact hstop (r :: before) r' rest stmt' (by rw [hsplit]; rfl) hasks'

/-- **A transaction over a connection.** If the catalog is set up and no statement of the
transaction gets to write anything in the state in which it is executed, the contents of the
database are at every moment up to and after the ROLLBACK, or the COMMIT, what they were before the
BEGIN. -/
theorem connection_transaction {first last : Request} {rs : List Request} (self : Executor)
    (hreg : registered h d.contents) (hbegin : first.Asks h .begin)
    (hend : last.Asks h .rollback ∨ last.Asks h .commit)
    (hdml : ∀ r ∈ rs, ∃ stmt, r.Asks h stmt ∧ stmt.changesRows)
    (hstop : ∀ before r rest stmt, rs = before ++ r :: rest → r.Asks h stmt →
      stmt.stopsEarly h (servedAll h (first :: before) (self, d)).2.contents) :
    (∀ before rest, rs = before ++ rest →
      (servedAll h (first :: before) (self, d)).2.contents = d.contents) ∧
      (servedAll h (first :: (rs ++ [last])) (self, d)).2.contents = d.contents := by
  have hfirst : (first.served h (self, d)).2.contents = d.contents :=
    served_control hreg hbegin (.inl rfl)
  have hmoment : ∀ before rest, rs = before ++ rest →
      (servedAll h (first :: before) (self, d)).2.contents = d.contents := by
    rintro before rest rfl
    show (servedAll h before (first.served h (self, d))).2.contents = _
    refine servedAll_stops hreg hfirst (fun r hr => hdml r (List.mem_append_left rest hr)) ?_
    intro before' r rest' stmt hsplit hasks
    exact hstop before' r (rest' ++ rest) stmt (by rw [hsplit]; simp) hasks
  refine ⟨hmoment, ?_⟩
  have hbefore := hmoment rs [] (List.append_nil rs).symm
  have hlast : servedAll h (first :: (rs ++ [last])) (self, d)
      = last.served h (servedAll h (first :: rs) (self, d)) := by
    unfold servedAll
    rw [List.foldl_cons, List.foldl_append]
    rfl
  rw [hlast]
  generalize servedAll h (first :: rs) (self, d) = st at hbefore ⊢
  obtain ⟨self', d'⟩ := st
  have hbefore : d'.contents = d.contents := hbefore
  rw [← hbefore] at hreg
  rcases hend with hroll | hcommit
  · exact (served_control hreg hroll (.inr (.inr rfl))).trans hbefore
  · exact (served_control hreg hcommit (.inr (.inl rfl))).trans hbefore

/-- A database in which a table was created over a connection. -/
def tableOverConnection : MapDb :=
  (servedAll asciiHost [.frame "CREATE TABLE t (id INT)"] (idle, ⟨SortedMap.empty, 1⟩)).2

/-- A transaction whose only statement is about a table that does not exist. -/
theorem connection_transaction_refused :
    (servedAll asciiHost (.query (ofString "BEGIN;" ++ [0]) ::
        ([.query (ofString "INSERT INTO u VALUES (1);" ++ [0])] ++
          [.query (ofString "ROLLBACK;" ++ [0])])) (idle, tableOverConnection)).2.contents
      = tableOverConnection.contents := by
  have hbegin : (Request.query (ofString "BEGIN;" ++ [0])).Asks asciiHost .begin := ⟨nofun, by decide +kernel⟩
  have hinsert : (Request.query (ofString "INSERT INTO u VALUES (1);" ++ [0])).Asks asciiHost
      (.insert "u" [["1"]]) := ⟨nofun, by decide +kernel⟩
  have hroll : (Request.query (ofString "ROLLBACK;" ++ [0])).Asks asciiHost .rollback :=
    ⟨nofun, by decide +kernel⟩
  refine (connection_transaction idle ⟨by decide +kernel, by decide +kernel⟩ hbegin (.inl hroll) ?_ ?_).2
  · intro r hr
    obtain rfl := List.mem_singleton.mp hr
    exact ⟨_, hinsert, rfl⟩
  · intro before r rest stmt hsplit hasks
    match before, hsplit with
    | [], hsplit =>
      obtain ⟨rfl, -⟩ := List.cons.inj hsplit
      obtain rfl := Except.ok.inj (hinsert.2.symm.trans hasks.2)
      decide +kernel
    | _ :: _, hsplit => simp at hsplit

/-- **A row that was rolled back is still there.** After BEGIN, INSERT and ROLLBACK over a connection
the row is in the database; it was there before the ROLLBACK, which fails. -/
theorem rolled_back_row_stays :
    let st := servedAll asciiHost [.frame "BEGIN",
      .frame "INSERT INTO t VALUES (1)"] (idle, tableOverConnection)
    let r := ((Request.frame "ROLLBACK").respond asciiHost).onMap st
    tableOverConnection.contents.get "t:1" = none ∧
      (st.2.contents.get "t:1").isSome ∧
      r.1 = .error (.sql .noTransaction) ∧
      (r.2.2.contents.get "t:1").isSome := by
  decide +kernel

end MagnumDB
