import MagnumDB.Sql.Engine
import MagnumDB.Sql.Frame

/-!
# Statements one after another

An executor gets statements one by one. One that fails leaves the executor and the
database as they are at that point, and the next one is executed.
-/

namespace MagnumDB

open Client

namespace Executor

variable (h : Host)

/-- Execute some statements, whether they fail or not. -/
def executeAll : List Statement → Sql (List (Except SqlFail Bytes))
  | [] => pure []
  | stmt :: stmts => do
    let r ← (execute h stmt).attempt
    let rs ← executeAll stmts
    pure (r :: rs)

/-- The executor and the map after a statement. -/
def after (stmt : Statement) (st : Executor × MapDb) : Executor × MapDb :=
  ((execute h stmt).onMap st).2

theorem onMap_executeAll_cons (stmt : Statement) (stmts : List Statement) (st : Executor × MapDb) :
    ((executeAll h (stmt :: stmts)).onMap st).2 = ((executeAll h stmts).onMap (after h stmt st)).2 := by
  have hstep : Sql.onMap (execute h stmt).attempt st
      = (.ok ((execute h stmt).onMap st).1, after h stmt st) := Client.run_attempt _ _ st
  show ((Sql.onMap ((execute h stmt).attempt >>= fun r => executeAll h stmts >>= fun rs =>
    pure (r :: rs)) st).2) = _
  rw [Sql.onMap_bind_ok hstep, Sql.onMap_bind]
  generalize hr : (executeAll h stmts).onMap (after h stmt st) = r
  obtain ⟨v, st'⟩ := r
  cases v with
  | ok rs => rw [Prog.bind_of_ok hr]; rfl
  | error e => rw [Prog.bind_of_error hr]

variable {stmts : List Statement} {st : Executor × MapDb}

/-- The states after statements are those of a fold. -/
theorem onMap_executeAll (stmts : List Statement) (st : Executor × MapDb) :
    ((executeAll h stmts).onMap st).2 = stmts.foldl (fun st stmt => after h stmt st) st := by
  induction stmts generalizing st with
  | nil => rfl
  | cons stmt stmts ih => rw [onMap_executeAll_cons, ih, List.foldl_cons]

section

variable {h} {P : Call → Prop} {A : (c : Call) → c.Answer → Prop} {K L : Executor → Prop}

theorem executeAll_cons_obeys {stmt : Statement} {stmts : List Statement} {self : Executor}
    (hx : (execute h stmt self).Obeys P A fun r => K r.2)
    (hrest : ∀ s, K s → (executeAll h stmts s).Obeys P A fun r => L r.2) :
    (executeAll h (stmt :: stmts) self).Obeys P A fun r => L r.2 := by
  refine Client.attempt_bind_obeys hx fun v s hs => (hrest s hs).bind fun r hr => ?_
  obtain ⟨_ | rs, s'⟩ := r
  · exact .done hr
  · exact .done hr

theorem executeAll_append_obeys {stmts rest : List Statement}
    (hx : ∀ stmt ∈ stmts, ∀ s, K s → (execute h stmt s).Obeys P A fun r => K r.2)
    (hrest : ∀ s, K s → (executeAll h rest s).Obeys P A fun r => L r.2) :
    ∀ s, K s → (executeAll h (stmts ++ rest) s).Obeys P A fun r => L r.2 := by
  induction stmts with
  | nil => exact hrest
  | cons stmt stmts ih =>
    intro s hs
    exact executeAll_cons_obeys (hx stmt List.mem_cons_self s hs)
      (ih fun stmt' hmem => hx stmt' (List.mem_cons_of_mem _ hmem))

end

end Executor

/-! ## Quiet statements -/

/-- Inside a transaction, a program that writes only through the buffer makes quiet calls. -/
theorem Call.isQuiet_of_writes {W : Bytes → Prop} {c : Call} (hc : c.Writes true W) :
    c.isQuiet := by
  cases c with
  | putWithTx txId key value => exact absurd hc.1 (by simp)
  | deleteWithTx txId key => exact absurd hc.1 (by simp)
  | commitTx txId => exact hc.elim
  | _ => rfl

/-- A program that writes nothing makes quiet calls. -/
theorem Call.isQuiet_of_reads {b : Bool} {c : Call} (hc : c.Writes b fun _ => False) :
    c.isQuiet := by
  cases c with
  | putWithTx txId key value => exact hc.2.elim
  | deleteWithTx txId key => exact hc.2.elim
  | commitTx txId => exact hc.elim
  | _ => rfl

end MagnumDB
