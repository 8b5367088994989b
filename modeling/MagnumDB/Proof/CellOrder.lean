import Mathlib.Data.List.Permutation
import MagnumDB.Lib.MixedOrder
import MagnumDB.Proof.Volcano
import MagnumDB.Sql.Integers

/-!
# The order of `ORDER BY`

`SortExec` compares two cells as numbers if both are numbers, and as texts otherwise. Among
integers that `f64` holds and texts that are no numbers this is the mixed order of the library.
-/

namespace MagnumDB

open Text MixedOrder ExecutionPlan

/-- A decimal integer that `f64` holds, or no number. -/
def IntegerOrText (h : Host) (c : Bytes) : Prop :=
  (∃ n, parseInteger c = some n ∧ n.natAbs < 2 ^ 53) ∨ h.parseF64 c = none

/-- The cell of a row that is sorted by. -/
def sortCell (sortColIdx : Nat) (row : Row) : Bytes := row[sortColIdx]?.getD []

variable {h : Host} {a b : Bytes} {rows : List Row} {sortColIdx : Nat}

theorem compareCells_eq_mixed (hh : h.ExactIntegers) (ha : IntegerOrText h a)
    (hb : IntegerOrText h b) : compareCells h a b = mixedCompare parseInteger a b := by
  -- a text that is no number is no integer either
  have hno {c : Bytes} (hc : h.parseF64 c = none) : parseInteger c = none :=
    Option.eq_none_iff_forall_ne_some.mpr fun n hn => by
      obtain ⟨x, hx⟩ := hh.parses c n hn
      exact nomatch hx.symm.trans hc
  have hplain (hab : h.parseF64 a = none ∨ h.parseF64 b = none) :
      compareCells h a b = mixedCompare parseInteger a b := by
    rw [mixedCompare_plain (hab.imp hno hno), LinearOrder.compare_eq_compareOfLessAndEq, compareCells]
    split
    · rename_i hx hy
      simp [hx, hy] at hab
    · congr
  rcases ha with ⟨m, hm, hsmall⟩ | ha
  · rcases hb with ⟨n, hn, -⟩ | hb
    · obtain ⟨x, hx⟩ := hh.parses a m hm
      obtain ⟨y, hy⟩ := hh.parses b n hn
      rw [mixedCompare_keys hm hn, compareCells, hx, hy]
      show (h.cmpF64 x y).getD .eq = _
      rw [(hh.compares a b m n x y hm hn (.inl hsmall) hx hy).1]
      rfl
    · exact hplain (.inr hb)
  · exact hplain (.inl ha)

variable (hh : h.ExactIntegers) (hcells : ∀ row ∈ rows, IntegerOrText h (sortCell sortColIdx row))
  (isDesc : Bool)
include hh hcells

theorem compareRows_eq_mixed {a b : Row} (ha : a ∈ rows) (hb : b ∈ rows) :
    compareRows h sortColIdx isDesc a b =
      bif isDesc then mixedCompare parseInteger (sortCell sortColIdx b) (sortCell sortColIdx a)
      else mixedCompare parseInteger (sortCell sortColIdx a) (sortCell sortColIdx b) := by
  have heq := compareCells_eq_mixed hh (hcells a ha) (hcells b hb)
  cases isDesc with
  | false => exact heq
  | true => exact (congrArg Ordering.swap heq).trans (mixedCompare_swap _ _).symm

theorem compareRows_swap {a b : Row} (ha : a ∈ rows) (hb : b ∈ rows) :
    compareRows h sortColIdx isDesc b a = (compareRows h sortColIdx isDesc a b).swap := by
  rw [compareRows_eq_mixed hh hcells isDesc ha hb, compareRows_eq_mixed hh hcells isDesc hb ha]
  cases isDesc <;> exact mixedCompare_swap _ _

theorem compareRows_totalPreorderOn_iff : TotalPreorderOn (compareRows h sortColIdx isDesc) rows ↔
    Unmixed parseInteger (rows.map (sortCell sortColIdx)) := by
  have heq {a b : Row} (ha : a ∈ rows) (hb : b ∈ rows) :=
    compareRows_eq_mixed hh hcells isDesc ha hb
  rw [← totalPreorderOn_iff]
  refine ⟨fun hp => ⟨fun a _ b _ => mixedCompare_swap a b, ?_⟩, fun hp =>
    ⟨fun a ha b hb => compareRows_swap hh hcells isDesc ha hb, fun a ha b hb c hc => ?_⟩⟩
  · simp only [List.forall_mem_map]
    intro a ha b hb c hc hab hbc
    cases isDesc with
    | false =>
      have := hp.trans a ha b hb c hc
      rw [heq ha hb, heq hb hc, heq ha hc] at this
      exact this hab hbc
    | true =>
      have := hp.trans c hc b hb a ha
      rw [heq hb ha, heq hc hb, heq hc ha] at this
      exact this hbc hab
  · have hmem {a : Row} (ha : a ∈ rows) := List.mem_map_of_mem (f := sortCell sortColIdx) ha
    rw [heq ha hb, heq hb hc, heq ha hc]
    cases isDesc with
    | false => exact hp.trans _ (hmem ha) _ (hmem hb) _ (hmem hc)
    | true => exact fun hab hbc => hp.trans _ (hmem hc) _ (hmem hb) _ (hmem ha) hbc hab

omit hh hcells

/-- **What `ORDER BY` sorts.** On rows whose cells are integers or texts, swapping two rows always
swaps the result of the comparison. It is transitive exactly if no text stands between two integers
against their order, and then the sort operator yields the rows with each one at most those after
it, whatever `sort_by` does with comparisons that are no total preorder. -/
theorem sortExec_order_iff (h : Host) (hh : h.ExactIntegers) (sortColIdx : Nat) (isDesc : Bool)
    (rows : List Row) (hcells : ∀ row ∈ rows, IntegerOrText h (sortCell sortColIdx row)) :
    (∀ a ∈ rows, ∀ b ∈ rows, compareRows h sortColIdx isDesc b a
      = (compareRows h sortColIdx isDesc a b).swap) ∧
    (TotalPreorderOn (compareRows h sortColIdx isDesc) rows ↔
      Unmixed parseInteger (rows.map (sortCell sortColIdx))) ∧
    (Unmixed parseInteger (rows.map (sortCell sortColIdx)) → ∀ sort, SortContract sort →
      ∀ {σ : Type} (child : ExecutionPlan σ), child.Denotes rows → ∃ sorted,
        (child.sortExec sort h sortColIdx isDesc).Denotes sorted ∧ sorted.Perm rows ∧
        sorted.Pairwise fun a b => compareRows h sortColIdx isDesc a b ≠ .gt) := by
  have hiff := compareRows_totalPreorderOn_iff hh hcells isDesc
  refine ⟨fun a ha b hb => compareRows_swap hh hcells isDesc ha hb, hiff,
    fun hcol sort hsort σ child hchild => ?_⟩
  exact ⟨_, sortExec_denotes hchild sort h sortColIdx isDesc, hsort _ _ (hiff.mpr hcol)⟩

/-- The rows `10`, `1a` and `9`: each is below the next, and the last below the first, so that no
arrangement of them is sorted. -/
theorem sortExec_order_cycle :
    (IntegerOrText integerHost "10" ∧ IntegerOrText integerHost "1a" ∧
      IntegerOrText integerHost "9") ∧
    ¬TotalPreorderOn (compareRows integerHost 0 false)
      [["10"], ["1a"], ["9"]] ∧
    ∀ sorted : List Row, sorted.Perm [["10"], ["1a"], ["9"]] →
      ¬sorted.Pairwise fun a b => compareRows integerHost 0 false a b ≠ .gt := by
  have hcycle : ∀ sorted ∈ [[ofString "10"], ["1a"], ["9"]].permutations',
      ¬sorted.Pairwise fun a b => compareRows integerHost 0 false a b ≠ .gt := by decide +kernel
  refine ⟨⟨.inl ⟨10, by decide +kernel, by decide⟩, .inr (by decide +kernel),
    .inl ⟨9, by decide +kernel, by decide⟩⟩, fun hp => ?_, fun sorted hperm =>
    hcycle sorted (List.mem_permutations'.mpr hperm)⟩
  have := hp.trans ["10"] (by simp) ["1a"] (by simp) ["9"] (by simp)
  exact absurd this (by decide +kernel)

theorem sortExec_order_words :
    TotalPreorderOn (compareRows integerHost 0 true)
      [["10"], ["9"], ["x"]] :=
  have hcells : ∀ row ∈ [[ofString "10"], ["9"], ["x"]],
      IntegerOrText integerHost (sortCell 0 row) := by
    simp only [List.forall_mem_cons]
    exact ⟨.inl ⟨10, by decide +kernel, by decide⟩, .inl ⟨9, by decide +kernel, by decide⟩,
      .inr (by decide +kernel), nofun⟩
  (sortExec_order_iff integerHost integerHost_exactIntegers 0 true _ hcells).2.1.mpr (by
    unfold Unmixed
    decide +kernel)

end MagnumDB
