import MagnumDB.Sql.Iterators

/-!
# Plans yield the rows they are for

Every operator, opened in whatever state it is, yields what its list function makes of the
rows of its child, provided that the child does the same. So a plan yields its rows, and
the same rows again whenever it is opened again.
-/

namespace MagnumDB

open Cursor Prog List

/-- What an operator owes to the one above it: from any state, it can be opened and then yields the
rows, and each of its calls ends. -/
structure ExecutionPlan.Denotes {σ : Type} (e : ExecutionPlan σ) (rows : List Row) : Prop where
  opens (s : σ) : ∃ s', Ends e.open_ s (.ok (), s') ∧ Yields e.next rows s'
  reads (s : σ) : ∃ rest, Yields e.next rest s
  closes (s : σ) : ∃ s', Ends e.close s (.ok (), s')

theorem yields_nextRow {σ : Type} {next : Nat → Prog Fail σ (Option Row)} (rows : List Row)
    (at_ : Nat → σ) (hnext : ∀ fuel cursor, next fuel (at_ cursor)
      = (.ok (nextRow rows cursor).1, at_ (nextRow rows cursor).2)) (cursor : Nat) :
    Yields next (rows.drop cursor) (at_ cursor) := by
  -- by induction on what is left behind the cursor
  generalize hleft : rows.length - cursor = left
  induction left generalizing cursor with
  | zero =>
    have hend : ¬cursor < rows.length := by omega
    have hstay : Ends next (at_ cursor) (.ok none, at_ cursor) := by
      refine ⟨0, fun fuel _ => ?_⟩
      rw [hnext, nextRow, if_neg hend]
    rw [drop_eq_nil_of_le (by omega)]
    exact ⟨_, hstay, hstay⟩
  | succ left ih =>
    have hlt : cursor < rows.length := by omega
    rw [drop_eq_getElem_cons hlt]
    refine ⟨at_ (cursor + 1), ⟨0, fun fuel _ => ?_⟩, ih (cursor + 1) (by omega)⟩
    rw [hnext, nextRow, if_pos hlt, getElem?_eq_getElem hlt]

theorem seqScanExec_denotes (rows : List Row) : (seqScanExec rows).Denotes rows where
  opens s := ⟨0, ends_modify _ s, yields_nextRow rows id (fun _ _ => rfl) 0⟩
  reads s := ⟨rows.drop s, yields_nextRow rows id (fun _ _ => rfl) s⟩
  closes s := ⟨rows.length, ends_modify _ s⟩

namespace ExecutionPlan

variable {σ : Type} {child : ExecutionPlan σ} {rows : List Row}

/-! ## Filters -/

theorem filterExec_yields (colIdx : Nat) (targetVal : Bytes) {s : σ}
    (hy : Yields child.next rows s) :
    Yields (child.filterExec colIdx targetVal).next (MagnumDB.filterExec colIdx targetVal rows) s := by
  induction rows generalizing s with
  | nil =>
    obtain ⟨s', hs, hs'⟩ := hy
    exact ⟨s', whileSome_none hs, whileSome_none hs'⟩
  | cons row rows ih =>
    obtain ⟨s', hs, hrest⟩ := hy
    by_cases hrow : (row[colIdx]? == some targetVal)
    · rw [MagnumDB.filterExec,
        filter_cons_of_pos (p := fun row : Row => row[colIdx]? == some targetVal) hrow]
      exact ⟨s', whileSome_break hs (if_pos hrow), ih hrest⟩
    · -- the row is dropped: the loop of the same call goes on
      rw [MagnumDB.filterExec,
        filter_cons_of_neg (p := fun row : Row => row[colIdx]? == some targetVal) hrow]
      refine Yields.of_step (fun r hr => ?_) (ih hrest)
      exact whileSome_continue hs (if_neg hrow) hr

theorem filterExec_denotes (hchild : child.Denotes rows) (colIdx : Nat) (targetVal : Bytes) :
    (child.filterExec colIdx targetVal).Denotes (MagnumDB.filterExec colIdx targetVal rows) where
  opens s := by
    obtain ⟨s', hs, hy⟩ := hchild.opens s
    exact ⟨s', hs, filterExec_yields colIdx targetVal hy⟩
  reads s := by
    obtain ⟨rest, hy⟩ := hchild.reads s
    exact ⟨_, filterExec_yields colIdx targetVal hy⟩
  closes := hchild.closes

/-! ## Aggregates -/

theorem foldl_count_sum {F : Type} (add : Row → F → F) (rows : List Row) (count : Nat) (sum : F) :
    rows.foldl (fun (acc : Nat × F) row => (acc.1 + 1, add row acc.2)) (count, sum)
      = (count + rows.length, rows.foldl (fun sum row => add row sum) sum) := by
  induction rows generalizing count sum with
  | nil => rfl
  | cons row rows ih =>
    rw [foldl_cons, ih, foldl_cons, length_cons]
    congr 1
    omega

/-- The text that the loop ends with is the result over the rows. -/
theorem resultStr_eq (h : Host) (func : AggregateFunc) (rows : List Row) :
    func.resultStr h rows.length (rows.foldl (fun sum row => func.add h row sum) h.zeroF64)
      = func.result h rows := by
  cases func with
  | count => rfl
  | sum colIdx => rfl
  | avg colIdx =>
    cases rows with
    | nil => rfl
    | cons row rows => rfl

variable {h : Host} {func : AggregateFunc} {t : Aggregate σ}

theorem Aggregate.ends_onChild {α : Type} {x : Nat → Prog Fail σ α} {a : α} {s' : σ}
    (hx : Ends x t.child (.ok a, s')) :
    Ends (fun n => Aggregate.onChild (x n)) t (.ok a, { t with child := s' }) :=
  ends_zoom hx

theorem aggregateExec_executed (ht : t.executed) :
    Ends (child.aggregateExec h func).next t (.ok none, t) := by
  refine Ends.bind (ends_get t) ?_
  simp only [ht, if_true]
  exact ends_pure none t

theorem aggregateExec_next (ht : t.executed = false) (hy : Yields child.next rows t.child) :
    Yields (child.aggregateExec h func).next (MagnumDB.aggregateExec h func rows) t := by
  obtain ⟨s', hloop, -⟩ := Yields.whileSome Fail.outOfFuel
    (fun row (acc : Nat × h.F64) => (false, acc.1 + 1, func.add h row acc.2)) (0, h.zeroF64) hy
  rw [foldUntil_of_false (fun _ _ => rfl), foldl_count_sum, Nat.zero_add] at hloop
  have hdone : Ends (child.aggregateExec h func).next { child := s', executed := true }
      (.ok none, { child := s', executed := true }) := aggregateExec_executed rfl
  refine ⟨{ child := s', executed := true }, ?_, _, hdone, hdone⟩
  refine Ends.bind (ends_get t) ?_
  simp only [ht, Bool.false_eq_true, if_false]
  refine Ends.bind (ends_modify _ t) ?_
  refine Ends.bind (Aggregate.ends_onChild hloop) ?_
  rw [resultStr_eq]
  exact ends_pure _ _

theorem aggregateExec_denotes (hchild : child.Denotes rows) (h : Host) (func : AggregateFunc) :
    (child.aggregateExec h func).Denotes (MagnumDB.aggregateExec h func rows) where
  opens t := by
    obtain ⟨s', hs, hy⟩ := hchild.opens t.child
    refine ⟨{ child := s', executed := false }, ?_, aggregateExec_next rfl hy⟩
    exact Ends.bind (Aggregate.ends_onChild hs) (ends_modify _ _)
  reads t := by
    obtain ⟨rest, hy⟩ := hchild.reads t.child
    cases ht : t.executed with
    | true => exact ⟨[], t, aggregateExec_executed ht, aggregateExec_executed ht⟩
    | false => exact ⟨_, aggregateExec_next ht hy⟩
  closes t := by
    obtain ⟨s', hs⟩ := hchild.closes t.child
    exact ⟨_, Aggregate.ends_onChild hs⟩

/-! ## Operators that keep their rows -/

/-- The rows are kept already: from any state the rest of them comes. -/
theorem Kept.yields (t : Kept σ) :
    Yields (fun _ => (Kept.next : Prog Fail (Kept σ) (Option Row)))
      (t.resultRows.drop t.cursor) t :=
  yields_nextRow t.resultRows (fun cursor => { t with cursor := cursor }) (fun _ _ => rfl) t.cursor

theorem Kept.ends_onChild {α : Type} {x : Nat → Prog Fail σ α} {t : Kept σ} {a : α} {s' : σ}
    (hx : Ends x t.child (.ok a, s')) :
    Ends (fun n => Kept.onChild (x n)) t (.ok a, { t with child := s' }) :=
  ends_zoom hx

theorem Kept.closes (hchild : child.Denotes rows) (t : Kept σ) :
    ∃ t', Ends (Kept.close child) t (.ok (), t') := by
  obtain ⟨s', hs⟩ := hchild.closes t.child
  exact ⟨_, Ends.bind (Kept.ends_onChild hs) (ends_modify _ _)⟩

/-- All that is left to say of such an operator is which rows it keeps. -/
theorem Kept.denotes {e : ExecutionPlan (Kept σ)} {kept : List Row}
    (hnext : e.next = fun _ => Kept.next) (hclose : ∀ t, ∃ t', Ends e.close t (.ok (), t'))
    (hopen : ∀ t : Kept σ, ∃ s', Ends e.open_ t (.ok (), ⟨s', kept, 0⟩)) : e.Denotes kept where
  opens t := by
    obtain ⟨s', hs⟩ := hopen t
    rw [hnext]
    exact ⟨_, hs, Kept.yields ⟨s', kept, 0⟩⟩
  reads t := by
    rw [hnext]
    exact ⟨_, Kept.yields t⟩
  closes := hclose

theorem foldl_push (f : Row → Row) (rows acc : List Row) :
    rows.foldl (fun acc row => acc ++ [f row]) acc = acc ++ rows.map f := by
  rw [foldl_append_eq_append, ← flatMap_def, ← map_eq_flatMap]

theorem sortExec_denotes (hchild : child.Denotes rows)
    (sort : (Row → Row → Ordering) → List Row → List Row) (h : Host) (sortColIdx : Nat)
    (isDesc : Bool) :
    (child.sortExec sort h sortColIdx isDesc).Denotes
      (sort (compareRows h sortColIdx isDesc) rows) := by
  refine Kept.denotes rfl (Kept.closes hchild) fun t => ?_
  obtain ⟨s₁, hs₁, hy⟩ := hchild.opens t.child
  obtain ⟨s₂, hloop, -⟩ := Yields.whileSome Fail.outOfFuel
    (fun row (acc : List Row) => (false, acc ++ [row])) [] hy
  rw [foldUntil_of_false (fun _ _ => rfl), foldl_push, nil_append, map_id'] at hloop
  refine ⟨s₂, Ends.bind (Kept.ends_onChild hs₁) ?_⟩
  refine Ends.bind (ends_modify _ _) ?_
  exact Ends.bind (Kept.ends_onChild hloop) (ends_modify _ _)

/-- The loop keeps what is behind the rows still to skip, up to the rows still allowed. -/
theorem foldUntil_limitOffset (limit : Option Nat) (offset : Nat) (rows : List Row)
    (skipped count : Nat) (acc : List Row) :
    (foldUntil (limitOffsetRound limit offset) rows (skipped, count, acc)).1.2.2
      = acc ++ MagnumDB.limitOffsetExec (limit.map (· - count)) (offset - skipped) rows := by
  induction rows generalizing skipped count acc with
  | nil => cases limit <;> simp [foldUntil, MagnumDB.limitOffsetExec]
  | cons row rows ih =>
    rw [foldUntil]
    by_cases hskip : skipped < offset
    · -- the row is skipped
      have hround : limitOffsetRound limit offset row (skipped, count, acc)
          = (false, skipped + 1, count, acc) := if_pos hskip
      have hdrop : (row :: rows).drop (offset - skipped) = rows.drop (offset - (skipped + 1)) := by
        obtain ⟨k, hk⟩ : ∃ k, offset - skipped = k + 1 := ⟨offset - skipped - 1, by omega⟩
        rw [hk, drop_succ_cons]
        congr 1
        omega
      rw [hround, if_neg Bool.false_ne_true]
      refine (ih (skipped + 1) count acc).trans ?_
      cases limit <;> simp [MagnumDB.limitOffsetExec, hdrop]
    · have hzero : offset - skipped = 0 := by omega
      by_cases hfull : limit.any (· ≤ count)
      · -- the limit is reached
        have hround : limitOffsetRound limit offset row (skipped, count, acc)
            = (true, skipped, count, acc) := (if_neg hskip).trans (if_pos hfull)
        rw [hround, if_pos rfl]
        cases limit with
        | none => simp at hfull
        | some n =>
          have hn : n - count = 0 := by simpa [Nat.sub_eq_zero_iff_le] using hfull
          simp [MagnumDB.limitOffsetExec, hn]
      · -- the row is kept
        have hround : limitOffsetRound limit offset row (skipped, count, acc)
            = (false, skipped, count + 1, acc ++ [row]) := (if_neg hskip).trans (if_neg hfull)
        rw [hround, if_neg Bool.false_ne_true]
        refine (ih skipped (count + 1) (acc ++ [row])).trans ?_
        cases limit with
        | none => simp [MagnumDB.limitOffsetExec, hzero]
        | some n =>
          have hlt : ¬n ≤ count := by simpa using hfull
          have hn : n - count = n - (count + 1) + 1 := by omega
          simp [MagnumDB.limitOffsetExec, hzero, hn]

theorem limitOffsetExec_denotes (hchild : child.Denotes rows) (limit : Option Nat) (offset : Nat) :
    (child.limitOffsetExec limit offset).Denotes (MagnumDB.limitOffsetExec limit offset rows) := by
  refine Kept.denotes rfl (Kept.closes hchild) fun t => ?_
  obtain ⟨s₁, hs₁, hy⟩ := hchild.opens t.child
  obtain ⟨s₂, hloop, -⟩ := Yields.whileSome Fail.outOfFuel (limitOffsetRound limit offset)
    (0, 0, []) hy
  have hrows := foldUntil_limitOffset limit offset rows 0 0 []
  rw [nil_append, Nat.sub_zero] at hrows
  have hlimit : limit.map (· - 0) = limit := by cases limit <;> rfl
  rw [hlimit] at hrows
  refine ⟨s₂, Ends.bind (Kept.ends_onChild hs₁) ?_⟩
  refine Ends.bind (ends_modify _ _) ?_
  refine Ends.bind (Kept.ends_onChild hloop) ?_
  rw [← hrows]
  exact ends_modify _ _

theorem Denotes.callAll {e : ExecutionPlan σ} (he : e.Denotes rows) (calls : List PlanCall) (s : σ) :
    ∃ s', Ends (fun fuel => e.callAll fuel calls) s (.ok (), s') := by
  induction calls generalizing s with
  | nil => exact ⟨s, ends_pure () s⟩
  | cons call calls ih =>
    cases call with
    | open_ =>
      obtain ⟨s₁, hs₁, -⟩ := he.opens s
      obtain ⟨s₂, hs₂⟩ := ih s₁
      exact ⟨s₂, hs₁.bind hs₂⟩
    | next =>
      obtain ⟨rest, hy⟩ := he.reads s
      obtain ⟨o, s₁, hs₁⟩ := hy.ends
      obtain ⟨s₂, hs₂⟩ := ih s₁
      exact ⟨s₂, hs₁.bind hs₂⟩
    | close =>
      obtain ⟨s₁, hs₁⟩ := he.closes s
      obtain ⟨s₂, hs₂⟩ := ih s₁
      exact ⟨s₂, hs₁.bind hs₂⟩

end ExecutionPlan

/-! ## Plans -/

namespace Plan

variable (sort : (Row → Row → Ordering) → List Row → List Row) (h : Host)

/-- Every plan is as good as its operators. -/
theorem exec_denotes (p : Plan) : (p.exec sort h).Denotes (p.rows sort h) := by
  induction p with
  | seqScan rows => exact seqScanExec_denotes rows
  | filter child colIdx targetVal ih => exact ExecutionPlan.filterExec_denotes ih colIdx targetVal
  | aggregate child func ih => exact ExecutionPlan.aggregateExec_denotes ih h func
  | sort child sortColIdx isDesc ih => exact ExecutionPlan.sortExec_denotes ih sort h sortColIdx isDesc
  | limitOffset child limit offset ih => exact ExecutionPlan.limitOffsetExec_denotes ih limit offset

/-- **Plans refine lists.** However often a plan was opened, read and closed before: opened again,
it yields its rows one by one from the first, and nothing from then on. -/
theorem yields_rows (p : Plan) (calls : List PlanCall) (n : Nat) :
    ∃ s, Ends (fun fuel => do
        (p.exec sort h).callAll fuel calls
        (p.exec sort h).open_ fuel
        reads ((p.exec sort h).next fuel) n) p.new
      (.ok (answers (p.rows sort h) n), s) := by
  have hp := p.exec_denotes sort h
  obtain ⟨s₁, hs₁⟩ := hp.callAll calls p.new
  obtain ⟨s₂, hs₂, hy⟩ := hp.opens s₁
  obtain ⟨s₃, hs₃, -⟩ := hy.reads n
  exact ⟨s₃, hs₁.bind (hs₂.bind hs₃)⟩

end Plan

end MagnumDB
