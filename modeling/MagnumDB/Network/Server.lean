import MagnumDB.Sql.Dml
import MagnumDB.Sql.Parser

/-!
# Requests

What the server does with a query: `Server::run` of `src/network/server.rs` for the
frames of its own protocol, and `PgWireHandler` of `src/network/pgwire.rs` for simple
queries and for statements that were bound before. Each of them makes an `Executor`,
executes one statement with it and drops it.

How requests get to the server (framing, start-up, authentication, parameters) is not
part of this module.
-/

namespace MagnumDB

open Text CatalogManager

/-- A request with a query. -/
inductive Request where
  /-- The payload of a frame. -/
  | frame (payload : Bytes)
  /-- The body of a `Q` message. -/
  | query (body : Bytes)
  /-- An `E` message, with what was bound before. -/
  | execute (boundSql : Bytes)

namespace Request

variable (h : Host)

/-- The text that is parsed. -/
def sql : Request → Bytes
  | .frame payload => fromUtf8Lossy payload
  | .query body => trim (fromUtf8Lossy (body.take (body.length - 1)))
  | .execute boundSql => boundSql

/-- A statement with an executor of its own. -/
def executeFresh (sql : Bytes) : Sql (Except ParseFail Bytes) := do
  Executor.new h
  match Parser.parse h sql with
  | .ok stmt => do
    let out ← Executor.execute h stmt
    pure (.ok out)
  | .error e => pure (.error e)

/-- What is done with a request. Without a bound statement nothing is executed. -/
def respond (r : Request) : Sql (Except ParseFail Bytes) :=
  match r with
  | .execute [] => pure (.ok "Query OK.")
  | r => executeFresh h r.sql

/-- The state after a request. The executor in it has been dropped. -/
def served (r : Request) (st : Executor × MapDb) : Executor × MapDb := ((r.respond h).onMap st).2

/-- The request has this statement. -/
def Asks (r : Request) (stmt : Statement) : Prop :=
  r ≠ .execute [] ∧ Parser.parse h r.sql = .ok stmt

end Request

/-! ## A new executor -/

namespace Executor

variable {h : Host} {self : Executor} {d : MapDb}

/-- The default schema and the first user are in the catalog. -/
def registered (h : Host) (m : Contents) : Prop :=
  (m.get (schemaKey h defaultSchema)).isSome ∧
    (m.get (userKey h "postgres")).isSome

theorem onMap_initDefaultSchema (hreg : registered h d.contents) :
    (initDefaultSchema h).onMap (self, d) = (.ok (), (self, d)) := by
  have hkey : ¬ (d.contents.get (schemaKey h defaultSchema)).isNone := by
    simpa [Option.isSome_iff_ne_none] using hreg.1
  have huser : ¬ (d.contents.get (userKey h "postgres")).isNone := by
    simpa [Option.isSome_iff_ne_none] using hreg.2
  unfold initDefaultSchema
  rw [Sql.onMap_bind_ok (Sql.onMap_get _ (self, d))]
  rw [if_neg hkey, Sql.onMap_bind_ok (Sql.onMap_get _ (self, d))]
  rw [if_neg huser]
  rfl

/-- A new executor is idle, and the database is as it was. -/
theorem onMap_new (hreg : registered h d.contents) :
    Sql.onMap (new h) (self, d) = (.ok (), (idle, d)) := by
  have hinit : (initDefaultSchema h idle).run MapDb.handle d = ((.ok (), idle), d) := by
    have hrun : (initDefaultSchema h).onMap (idle, d) = (.ok (), (idle, d)) :=
      onMap_initDefaultSchema hreg
    unfold Sql.onMap Client.run at hrun
    generalize (initDefaultSchema h idle).run MapDb.handle d = r at hrun
    obtain ⟨⟨v, s⟩, t⟩ := r
    injection hrun with hv hst
    injection hst with hs ht
    exact Prod.ext (Prod.ext hv hs) ht
  unfold Sql.onMap Client.run new
  rw [Script.run_bind, hinit]
  rfl

end Executor

/-- A request with a statement executes it, with a new executor. -/
theorem Request.served_asks {h : Host} {r : Request} {stmt : Statement} {self : Executor} {d : MapDb}
    (hreg : Executor.registered h d.contents) (hasks : r.Asks h stmt) :
    (r.served h (self, d)).2 = ((Executor.execute h stmt).onMap (Executor.idle, d)).2.2 := by
  have hrun : r.respond h = Request.executeFresh h r.sql := by
    obtain ⟨hne, -⟩ := hasks
    unfold Request.respond
    split
    · exact absurd rfl hne
    · rfl
  unfold Request.served
  rw [hrun]
  unfold Request.executeFresh
  rw [Sql.onMap_bind_ok (Executor.onMap_new hreg), hasks.2]
  rw [Sql.onMap_bind]
  generalize hx : (Executor.execute h stmt).onMap (Executor.idle, d) = x
  obtain ⟨v, st⟩ := x
  cases v with
  | ok out => rw [Prog.bind_of_ok hx]; rfl
  | error e => rw [Prog.bind_of_error hx]

end MagnumDB
