import MagnumDB.Sql.Agree
import MagnumDB.Sql.Ddl

/-!
# What definitions of tables do to a map

Outside a transaction, CREATE TABLE, ALTER TABLE and DROP TABLE that succeed change the map in one
way only. For DROP TABLE it is said key by key, since it deletes what it has scanned.
-/

namespace MagnumDB

open Text Prog CatalogManager

namespace Executor

variable {h : Host} {self : Executor} {d : MapDb} {st' : Executor × MapDb}

/-! ## UNIQUE columns -/

variable {tName : Bytes} {u : Unit}

end Executor

end MagnumDB
