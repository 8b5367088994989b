import MagnumDB.Lib.Utf8Parts
import MagnumDB.Sql.AsciiHost
import MagnumDB.Sql.Parser
import MagnumDB.Sql.Steady

/-!
# Statements that return

`Executor::execute` returns, with a result or an error, as long as the statements that are executed on
its behalf are `steady`. Most functions of the executor return from any state; for each of them one
lemma says so (`Returns`). The others return from the states in which what they take for granted is
the case (`ReturnsFrom`).
-/

namespace MagnumDB

open Text CatalogManager List

namespace Executor

/-- The program returns from the state. -/
def ReturnsFrom {α : Type} (x : Sql α) (st : Executor × MapDb) : Prop := NoPanic (x.onMap st).1

/-- The program returns from any state. -/
def Returns {α : Type} (x : Sql α) : Prop := ∀ st, ReturnsFrom x st

section

variable {α β : Type} {st : Executor × MapDb}

/-! ## Rules -/

variable {x : Sql α} {f : α → Sql β}

theorem ReturnsFrom.bind (hx : ReturnsFrom x st)
    (hf : ∀ a st', x.onMap st = (.ok a, st') → ReturnsFrom (f a) st') :
    ReturnsFrom (x >>= f) st := by
  unfold ReturnsFrom at hx ⊢
  generalize hr : x.onMap st = r at hx
  obtain ⟨e | a, st'⟩ := r
  · rw [Sql.onMap_bind_error hr]
    exact fun he => hx (congrArg Except.error (Except.error.inj he))
  · rw [Sql.onMap_bind_ok hr]
    exact hf a st' hr

/-- What is only read leaves the state for the rest. -/
theorem ReturnsFrom.reads {r : Except SqlFail α} (hx : x.onMap st = (r, st)) (hr : NoPanic r)
    (hf : ∀ a, r = .ok a → ReturnsFrom (f a) st) : ReturnsFrom (x >>= f) st := by
  unfold ReturnsFrom
  rw [Sql.onMap_reads hx]
  cases r with
  | ok a => exact hf a rfl
  | error e => exact fun he => hr (congrArg Except.error (Except.error.inj he))

theorem Returns.bind (hx : Returns x) (hf : ∀ a, Returns (f a)) : Returns (x >>= f) :=
  fun st => (hx st).bind fun a st' _ => hf a st'

theorem Returns.pure (a : α) : Returns (pure a : Sql α) := fun _ he => nomatch he

theorem Returns.fail (e : SqlError) : Returns (Sql.fail e : Sql α) := fun _ => NoPanic.sql e

theorem Returns.lift {x : Except SqlFail α} (hx : NoPanic x) : Returns (Sql.lift x) := fun _ => hx

theorem Returns.self : Returns (Client.get : Sql Executor) := fun _ he => nomatch he

theorem Returns.modify (f : Executor → Executor) : Returns (Client.modify f) := fun _ he => nomatch he

/-- The map refuses keys that are too long, and that is all. -/
theorem Returns.call (c : Call) : Returns (Sql.call c) := by
  intro st he
  have hcall : ((MapDb.handle c st.2).1.mapError SqlFail.db : Except SqlFail c.Result)
    = .error (.db .panic) := he
  cases c with
  | putWithTx txId key value =>
    unfold MapDb.handle at hcall
    dsimp only at hcall
    split at hcall
    · exact nomatch SqlFail.db.inj (Except.error.inj hcall)
    · exact nomatch hcall
  | _ => exact nomatch hcall

end

theorem returns_writeOrBuffer (key : Bytes) (value : Option Bytes) : Returns (writeOrBuffer key value) := by
  refine .bind .self fun self => Contract.ite (fun _ => .modify _) fun _ => ?_
  cases value with
  | some value => exact .call _
  | none => exact .call _

/-- Most functions return from any state. -/
theorem returns : Contract (fun _ => True) Returns where
  pure := .pure
  fail := .fail
  lift := .lift
  bind := .bind
  self := .self
  get _ := .call _
  scanPrefix _ := .call _
  write _ := returns_writeOrBuffer _

variable (h : Host)

variable {st : Executor × MapDb} {whereClause : Option (Bytes × Bytes)}

variable {tableName value : Bytes} {colNames : List Bytes} {idx : Nat} {rows : List Row} {row : Row}

end Executor

end MagnumDB
