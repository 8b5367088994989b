import MagnumDB.Sql.Engine
import MagnumDB.Storage.Recovery

/-!
# A session and the next one

What the statements of a session have made of the database, seen as a map, is what
the queries of the next session find, if it is closed and opened in between.
-/

namespace MagnumDB

open Prog Executor

/-- The database has a log, and a flush keeps the free list in order. -/
def Database.settled (db : Database) : Bool :=
  db.config.walEnabled && db.wal.isSome &&
    headOk false db.index.bufferPool.pager db.index.bufferPool.flushAll.pager

variable {crc : Bytes → UInt32}

/-- A database that is closed and opened again shows what it held. -/
theorem HoldsMap.reopened {db : Database} {m : Contents} (h : HoldsMap db.index m.get)
    (hdb : db.settled) (dir : Files) : ∃ db₁ db₂ bound, Database.close db = (.ok (), db₁) ∧
      Opens crc db.config (db₁.files dir) db₂ ∧ db₂.index.Shows bound m := by
  simp only [Database.settled, Bool.and_eq_true, Option.isSome_iff_exists] at hdb
  obtain ⟨⟨hconfig, w, hwal⟩, hhead⟩ := hdb
  obtain ⟨db₁, hclose, hlog, -, hfile, -⟩ := h.close hwal hhead
  have hempty : (db₁.files dir).wal = [] := by
    unfold Database.files
    rw [hlog]
  have hdata : FileHolds (db₁.files dir).data m.get := hfile
  obtain ⟨db₂, hopens, -, -, -, -, hholds⟩ := hdata.opens crc hconfig hempty
  obtain ⟨bound, m', hshows, hget⟩ := hholds.shows
  obtain rfl : m' = m := SortedMap.ext hget
  exact ⟨db₁, db₂, bound, hclose, hopens, hshows⟩

/-- **A session survives a clean shutdown.** Let any program of the executor run on an engine in
which each of its calls works. It ends as it does on the map; and once the database is closed and
opened again, every program that changes nothing is answered, with enough fuel, as it is on the map
that the first one has left. -/
theorem session_survives {α : Type} {x : Sql α} {self : Executor} {e : Engine} {d : MapDb}
    {fuel : Nat} (h : e.Holds d) (hsafe : (x self).Safe (Engine.Ok crc fuel) (Engine.handle crc fuel) e)
    (hdb : (x.run (Engine.handle crc fuel) (self, e)).2.2.db.settled) (dir : Files) :
    ∃ r self' e' d' db₁ db₂ bound, x.run (Engine.handle crc fuel) (self, e) = (r, self', e') ∧
      x.onMap (self, d) = (r, self', d') ∧ Database.close e'.db = (.ok (), db₁) ∧
      Opens crc e'.db.config (db₁.files dir) db₂ ∧
      ∀ {β : Type} (y : Sql β) (next : Executor) (n : UInt64) (fuel : Nat), bound ≤ fuel →
        (y next).Safe (fun c _ => c.isQuiet) MapDb.handle ⟨d'.contents, n⟩ →
        (y.run (Engine.handle crc fuel) (next, ⟨db₂, n⟩)).1
          = (y.onMap (next, ⟨d'.contents, n⟩)).1 := by
  obtain ⟨hresult, hself, hholds⟩ := Engine.run_refines h hsafe
  obtain ⟨db₁, db₂, bound, hclose, hopens, hshows⟩ := hholds.1.reopened hdb dir
  refine ⟨_, _, _, _, db₁, db₂, bound, rfl, Prod.ext hresult.symm (Prod.ext hself.symm rfl), hclose,
    hopens, fun y next n fuel hfuel hquiet => ?_⟩
  exact (Engine.run_quiet (e := ⟨db₂, n⟩) (d := ⟨_, n⟩) ⟨hshows, rfl⟩ hfuel hquiet).1

/-- A key is written to a new database, and read in the next session. -/
theorem session_survives_write : ∃ (db₀ db₁ db₂ : Database) (e' : Engine) (fuel : Nat),
    Opens crc32 Config.default Files.empty db₀ ∧
    (writeOrBuffer [1] (some [2])).run (Engine.handle crc32 20) (idle, ⟨db₀, 1⟩)
      = (.ok (), idle, e') ∧
    Database.close e'.db = (.ok (), db₁) ∧ Opens crc32 e'.db.config (db₁.files Files.empty) db₂ ∧
    ((Db.get [1]).run (Engine.handle crc32 fuel) (idle, ⟨db₂, 1⟩)).1 = .ok (some [2]) := by
  obtain ⟨db₀, hopen, -, -, -, -, hempty⟩ := open_empty crc32 Config.default rfl
  have hcheck : checkOpen crc32 Config.default Files.empty 20 fun db =>
      let out := Database.putWithTx crc32 20 0 [1] [2] db
      finished out.1 && (TreeOp.insert [1] [2]).check false 20 db.index && out.2.settled := by
    decide +kernel
  obtain ⟨db, hopen', hcheck⟩ := Opens.of_check hcheck
  obtain rfl : db = db₀ := hopen'.unique hopen
  simp only [Bool.and_eq_true] at hcheck
  obtain ⟨⟨hfin, hok⟩, hdb⟩ := hcheck
  have hholds : Engine.Holds ⟨db, 1⟩ ⟨.empty, 1⟩ := ⟨hempty, rfl⟩
  have hsafe : (writeOrBuffer [1] (some [2]) idle).Safe (Engine.Ok crc32 20)
      (Engine.handle crc32 20) ⟨db, 1⟩ := ⟨⟨hfin, TreeOp.ok_of_check hok, by decide⟩, trivial⟩
  obtain ⟨r, self', e', d', db₁, db₂, bound, hrun, hmap, hclose, hopens, hreads⟩ :=
    session_survives hholds hsafe hdb Files.empty
  obtain ⟨rfl, rfl, rfl⟩ : r = .ok () ∧ self' = idle ∧ d' = ⟨.insert .empty [1] [2], 1⟩ := by
    injection hmap with hresult hmap
    injection hmap with hself hmap
    exact ⟨hresult.symm, hself.symm, hmap.symm⟩
  exact ⟨db, db₁, db₂, e', bound, hopen, hrun, hclose, hopens,
    hreads (Db.get [1]) idle 1 bound (Nat.le_refl _) ⟨rfl, trivial⟩⟩

end MagnumDB
