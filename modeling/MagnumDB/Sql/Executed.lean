import MagnumDB.Sql.Agree

/-!
# The statements inside a statement

WITH, UNION and IN execute other statements: those they are made of, and for WITH also
the ones that create, fill and drop the table of the result. `executed` lists the
statements that are executed on behalf of a statement and are not made of others,
each with the state in which it is executed. A failure ends the list as it ends the
execution.

`executed_invariant` is the rule for invariants: what each of these statements keeps
is true in all of these states, and after the statement as a whole.
-/

namespace MagnumDB

open Text Prog List

/-- The statement is not made of others. -/
def Statement.isSimple : Statement → Bool
  | .union .. => false
  | .withQuery .. => false
  | .selectInSubquery .. => false
  | _ => true

namespace Executor

/-- A statement, with the state in which it is executed. -/
abbrev Execution : Type := Statement × (Executor × MapDb)

variable (h : Host)

/-- Statements in order until one fails: each with its state, whether all succeed, and the state
at the end. -/
def inOrder : List Statement → Executor × MapDb → List Execution × Bool × (Executor × MapDb)
  | [], st => ([], true, st)
  | stmt :: stmts, st =>
    match (execute h stmt).onMap st with
    | (.ok _, st') => ((stmt, st) :: (inOrder stmts st').1, (inOrder stmts st').2)
    | (.error _, st') => ([(stmt, st)], false, st')

/-- The statements that create and fill the table of WITH. -/
def cteStatements (cteName cteRes : Bytes) : List Statement :=
  .createTable cteName
      ((lineCells (parseFormattedTable cteRes).1).map fun c => c ++ " TEXT") ::
    (parseFormattedTable cteRes).2.map fun row => .insert cteName [lineCells row]

theorem cteStatements_simple (cteName cteRes : Bytes) :
    ∀ stmt ∈ cteStatements cteName cteRes, stmt.isSimple := by
  intro stmt hstmt
  rcases mem_cons.mp hstmt with rfl | hstmt
  · rfl
  · obtain ⟨row, _, rfl⟩ := mem_map.mp hstmt
    rfl

/-- The statement that ends WITH, if the main query succeeds. -/
def cteDrop (cteName : Bytes) : Except SqlFail Bytes × (Executor × MapDb) → List Execution
  | (.error _, _) => []
  | (.ok _, st) => [(.dropTable cteName, st)]

/-- The statements that are executed on behalf of one. -/
def executed : Statement → Executor × MapDb → List Execution
  | .union left right _, st =>
    executed left st ++
      match (execute h left).onMap st with
      | (.ok _, st') => executed right st'
      | (.error _, _) => []
  | .selectInSubquery _ _ subquery, st => executed subquery st
  | .withQuery cteName cteQuery mainQuery, st =>
    executed cteQuery st ++
      match (execute h cteQuery).onMap st with
      | (.error _, _) => []
      | (.ok cteRes, st₁) =>
        (inOrder h (cteStatements cteName cteRes) st₁).1 ++
          match (inOrder h (cteStatements cteName cteRes) st₁).2 with
          | (false, _) => []
          | (true, st₂) =>
            executed mainQuery st₂ ++ cteDrop cteName ((execute h mainQuery).onMap st₂)
  | stmt, st => [(stmt, st)]

variable {h}

/-! ## Following the execution -/

/-- What the executor does for the table of WITH before the main query. -/
def cteSetup (h : Host) (cteName cteRes : Bytes) : Sql Unit := do
  let _ ← createTable h cteName
    ((lineCells (parseFormattedTable cteRes).1).map fun c => c ++ " TEXT")
  Client.forEach (fun row => do
    let _ ← insert h cteName [lineCells row]
    pure ()) (parseFormattedTable cteRes).2

theorem onMap_cteRows (cteName : Bytes) (rows : List Bytes) (st : Executor × MapDb) :
    let r := Sql.onMap (Client.forEach (fun row => do
      let _ ← insert h cteName [lineCells row]
      pure ()) rows) st
    (r.1.isOk, r.2) = (inOrder h (rows.map fun row => .insert cteName [lineCells row]) st).2 := by
  induction rows generalizing st with
  | nil => rfl
  | cons row rows ih =>
    rw [Sql.onMap_forEach_cons, map_cons]
    unfold inOrder
    have hexec : (execute h (.insert cteName [lineCells row])).onMap st
        = (insert h cteName [lineCells row]).onMap st := rfl
    rw [hexec]
    generalize hrow : (insert h cteName [lineCells row]).onMap st = r
    obtain ⟨_ | msg, st'⟩ := r
    · have hstop : Sql.onMap (insert h cteName [lineCells row] >>= fun _ => pure ()) st
          = (.error _, st') := Sql.onMap_bind_error hrow
      rw [Sql.onMap_bind_error hstop]
      rfl
    · have hgo : Sql.onMap (insert h cteName [lineCells row] >>= fun _ => pure ()) st
          = (.ok (), st') := Sql.onMap_bind_ok hrow
      rw [Sql.onMap_bind_ok hgo]
      exact ih st'

/-- The table of WITH is created and filled by its statements, in order. -/
theorem onMap_cteSetup (cteName cteRes : Bytes) (st : Executor × MapDb) :
    (((cteSetup h cteName cteRes).onMap st).1.isOk, ((cteSetup h cteName cteRes).onMap st).2)
      = (inOrder h (cteStatements cteName cteRes) st).2 := by
  unfold cteSetup cteStatements inOrder
  have hexec : (execute h (.createTable cteName
      ((lineCells (parseFormattedTable cteRes).1).map fun c => c ++ " TEXT"))).onMap st
      = (createTable h cteName
        ((lineCells (parseFormattedTable cteRes).1).map fun c => c ++ " TEXT")).onMap st := rfl
  rw [hexec]
  generalize hcreate : (createTable h cteName
    ((lineCells (parseFormattedTable cteRes).1).map fun c => c ++ " TEXT")).onMap st = r
  obtain ⟨e | msg, st'⟩ := r
  · rw [Sql.onMap_bind_error hcreate]
    rfl
  · rw [Sql.onMap_bind_ok hcreate]
    exact onMap_cteRows cteName _ st'

/-- WITH: the query, then its table, then the main query, then the table is dropped. -/
theorem execute_withQuery (cteName : Bytes) (cteQuery mainQuery : Statement) :
    execute h (.withQuery cteName cteQuery mainQuery)
      = execute h cteQuery >>= fun cteRes => cteSetup h cteName cteRes >>= fun _ =>
          execute h mainQuery >>= fun mainRes => dropTable h cteName >>= fun _ => pure mainRes := by
  refine congrArg (fun k => execute h cteQuery >>= k) (funext fun cteRes => ?_)
  unfold cteSetup
  rw [Client.bind_assoc]

/-! ## Invariants -/

theorem onMap_bind_pure {α β : Type} (x : Sql α) (f : α → β) (st : Executor × MapDb) :
    (Sql.onMap (x >>= fun a => pure (f a)) st).2 = (x.onMap st).2 := by
  rw [Sql.onMap_bind]
  generalize hx : x.onMap st = r
  obtain ⟨e | a, st'⟩ := r
  · rw [bind_of_error hx]
  · rw [bind_of_ok hx]
    rfl

section

variable {I : Executor × MapDb → Prop} {C : Execution → Prop}

theorem inOrder_invariant
    (hstep : ∀ e : Execution, e.1.isSimple → C e → I e.2 → I (after h e.1 e.2))
    {stmts : List Statement} (hsimple : ∀ stmt ∈ stmts, stmt.isSimple)
    {st : Executor × MapDb} (hst : I st) (hC : ∀ e ∈ (inOrder h stmts st).1, C e) :
    (∀ e ∈ (inOrder h stmts st).1, I e.2) ∧ I (inOrder h stmts st).2.2 := by
  induction stmts generalizing st with
  | nil => exact ⟨fun e he => absurd he not_mem_nil, hst⟩
  | cons stmt stmts ih =>
    have hafter : after h stmt st = ((execute h stmt).onMap st).2 := rfl
    unfold inOrder at hC ⊢
    generalize (execute h stmt).onMap st = r at hC hafter ⊢
    obtain ⟨e | msg, st'⟩ := r
    · have hst' := hstep (stmt, st) (hsimple _ mem_cons_self) (hC _ mem_cons_self) hst
      rw [hafter] at hst'
      exact ⟨fun e he => (mem_singleton.mp he) ▸ hst, hst'⟩
    · have hst' := hstep (stmt, st) (hsimple _ mem_cons_self) (hC _ mem_cons_self) hst
      rw [hafter] at hst'
      obtain ⟨hstates, hend⟩ := ih (fun s hs => hsimple s (mem_cons_of_mem _ hs)) hst'
        fun e he => hC e (mem_cons_of_mem _ he)
      refine ⟨fun e he => ?_, hend⟩
      rcases mem_cons.mp he with rfl | he
      · exact hst
      · exact hstates e he

/-- The main query of WITH, and the end of its table. -/
theorem cteMain_invariant
    (hstep : ∀ e : Execution, e.1.isSimple → C e → I e.2 → I (after h e.1 e.2))
    {mainQuery : Statement} {st : Executor × MapDb}
    (hmain : (∀ e ∈ executed h mainQuery st, C e) →
      (∀ e ∈ executed h mainQuery st, I e.2) ∧ I (after h mainQuery st)) (cteName : Bytes)
    (hC : ∀ e ∈ executed h mainQuery st ++ cteDrop cteName ((execute h mainQuery).onMap st), C e) :
    (∀ e ∈ executed h mainQuery st ++ cteDrop cteName ((execute h mainQuery).onMap st), I e.2) ∧
      I (Sql.onMap (execute h mainQuery >>= fun mainRes => dropTable h cteName >>= fun _ =>
        pure mainRes) st).2 := by
  obtain ⟨hstates, hend⟩ := hmain fun e he => hC e (mem_append_left _ he)
  unfold after at hend
  generalize hm : (execute h mainQuery).onMap st = r at hC hend ⊢
  obtain ⟨e | mainRes, st'⟩ := r
  · rw [Sql.onMap_bind_error hm]
    exact ⟨fun e he => hstates e (by simpa [cteDrop] using he), hend⟩
  · rw [Sql.onMap_bind_ok hm, onMap_bind_pure]
    have hdrop := hstep (.dropTable cteName, st') rfl
      (hC _ (mem_append_right _ mem_cons_self)) hend
    refine ⟨fun e he => ?_, hdrop⟩
    rcases mem_append.mp he with he | he
    · exact hstates e he
    · obtain rfl := mem_singleton.mp he
      exact hend

/-- **What the executed statements keep.** If each statement that is not made of others keeps `I`
as long as it is executed under the condition `C`, then `I` is true whenever one is executed on
behalf of a statement, and at its end. -/
theorem executed_invariant
    (hstep : ∀ e : Execution, e.1.isSimple → C e → I e.2 → I (after h e.1 e.2))
    (hsame : ∀ st st', Agree (fun _ => True) st st' → I st → I st') (stmt : Statement) :
    ∀ st, I st → (∀ e ∈ executed h stmt st, C e) →
      (∀ e ∈ executed h stmt st, I e.2) ∧ I (after h stmt st) := by
  induction stmt with
  | union left right all ihl ihr =>
    intro st hst hC
    obtain ⟨hstates, hleft⟩ := ihl st hst fun e he => hC e (mem_append_left _ he)
    have hafter : after h (.union left right all) st = (Sql.onMap (execute h left >>= fun leftRes =>
      execute h right >>= fun rightRes => pure (unionOutput leftRes rightRes all)) st).2 := rfl
    have hlist : executed h (.union left right all) st = executed h left st ++
      match (execute h left).onMap st with
      | (.ok _, st') => executed h right st'
      | (.error _, _) => [] := rfl
    rw [hafter, hlist]
    rw [hlist] at hC
    unfold after at hleft
    generalize hl : (execute h left).onMap st = r at hC hleft ⊢
    obtain ⟨e | leftRes, st'⟩ := r
    · rw [Sql.onMap_bind_error hl, append_nil]
      exact ⟨hstates, hleft⟩
    · obtain ⟨hstates', hright⟩ := ihr st' hleft fun e he => hC e (mem_append_right _ he)
      rw [Sql.onMap_bind_ok hl, onMap_bind_pure]
      exact ⟨fun e he => (mem_append.mp he).elim (hstates e) (hstates' e), hright⟩
  | selectInSubquery tableName column subquery ih =>
    intro st hst hC
    obtain ⟨hstates, hsub⟩ := ih st hst hC
    refine ⟨hstates, ?_⟩
    have hafter : after h (.selectInSubquery tableName column subquery) st
        = (Sql.onMap (execute h subquery >>= fun subRes => selectAll h tableName >>= fun mainRes =>
          Sql.lift (inSubqueryOutput column subRes mainRes)) st).2 := rfl
    rw [hafter]
    unfold after at hsub
    generalize hs : (execute h subquery).onMap st = r at hsub
    obtain ⟨e | subRes, st'⟩ := r
    · rw [Sql.onMap_bind_error hs]
      exact hsub
    · rw [Sql.onMap_bind_ok hs]
      -- the query of the table itself writes nothing
      have hread : WritesOnly Call.Scanned (fun _ => False) (selectAll h tableName >>= fun mainRes =>
          Sql.lift (inSubqueryOutput column subRes mainRes)) :=
        .bind (writesOnly.select h _ _ _ _) fun _ => .lift _
      exact hsame _ _ ((hread.touches.agree st').mono fun _ _ => not_false) hsub
  | withQuery cteName cteQuery mainQuery ihq ihm =>
    intro st hst hC
    obtain ⟨hstates, hquery⟩ := ihq st hst fun e he => hC e (mem_append_left _ he)
    have hafter : after h (.withQuery cteName cteQuery mainQuery) st
        = ((execute h (.withQuery cteName cteQuery mainQuery)).onMap st).2 := rfl
    rw [execute_withQuery] at hafter
    have hlist : executed h (.withQuery cteName cteQuery mainQuery) st = executed h cteQuery st ++
      match (execute h cteQuery).onMap st with
      | (.error _, _) => []
      | (.ok cteRes, st₁) =>
        (inOrder h (cteStatements cteName cteRes) st₁).1 ++
          match (inOrder h (cteStatements cteName cteRes) st₁).2 with
          | (false, _) => []
          | (true, st₂) =>
            executed h mainQuery st₂ ++ cteDrop cteName ((execute h mainQuery).onMap st₂) := rfl
    rw [hafter, hlist]
    rw [hlist] at hC
    unfold after at hquery
    generalize hq : (execute h cteQuery).onMap st = r at hC hquery ⊢
    obtain ⟨e | cteRes, st₁⟩ := r
    · rw [Sql.onMap_bind_error hq, append_nil]
      exact ⟨hstates, hquery⟩
    · rw [Sql.onMap_bind_ok hq]
      dsimp only at hC ⊢
      obtain ⟨hfill, hfilled⟩ := inOrder_invariant hstep (cteStatements_simple cteName cteRes)
        hquery fun e he => hC e (mem_append_right _ (mem_append_left _ he))
      have hsetup := onMap_cteSetup (h := h) cteName cteRes st₁
      generalize (inOrder h (cteStatements cteName cteRes) st₁).2 = filled at hC hfilled hsetup ⊢
      generalize hset : (cteSetup h cteName cteRes).onMap st₁ = r at hsetup ⊢
      obtain ⟨e | u, st₂⟩ := r
      · obtain rfl := hsetup
        rw [Sql.onMap_bind_error hset]
        refine ⟨fun e he => ?_, hfilled⟩
        rcases mem_append.mp he with he | he
        · exact hstates e he
        · exact hfill e (by simpa [Except.isOk, Except.toBool] using he)
      · obtain rfl := hsetup
        rw [Sql.onMap_bind_ok hset]
        obtain ⟨hmain, hend⟩ := cteMain_invariant hstep (ihm st₂ hfilled) cteName fun e he =>
          hC e (mem_append_right _ (mem_append_right _ he))
        refine ⟨fun e he => ?_, hend⟩
        rcases mem_append.mp he with he | he
        · exact hstates e he
        · exact (mem_append.mp he).elim (hfill e) (hmain e)
  | _ =>
    intro st hst hC
    exact ⟨fun e he => (mem_singleton.mp he) ▸ hst,
      hstep (_, st) rfl (hC _ mem_cons_self) hst⟩

end

end Executor

end MagnumDB
