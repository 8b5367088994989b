import Mathlib.Algebra.BigOperators.Group.List.Lemmas
import MagnumDB.Proof.Volcano
import MagnumDB.Sql.HashOperators
import MagnumDB.Sql.Integers

/-!
# Hash joins and hash groups

The hash table of a join has under each key the right rows with that key, in their order; so
reading it row by row is the nested loop. The map of a grouping has under each key how often it
came up, and the list of keys has each of them once, in the order in which they came up.
-/

namespace MagnumDB

open Cursor Prog Text List

/-- The rows with a key. -/
def rowsWith (keyIdx : Nat) (key : Bytes) (rows : List Row) : List Row :=
  rows.filter fun r => r[keyIdx]? == some key

theorem rowsWith_concat (keyIdx : Nat) (key : Bytes) (rows : List Row) (row : Row) :
    rowsWith keyIdx key (rows ++ [row])
      = rowsWith keyIdx key rows ++ if row[keyIdx]? = some key then [row] else [] := by
  unfold rowsWith
  rw [filter_append, filter_singleton]
  simp

namespace ExecutionPlan

variable {σ τ : Type} {left : ExecutionPlan σ} {right : ExecutionPlan τ} {child : ExecutionPlan σ}
  {rows leftRows rightRows : List Row}

/-! ## Joins -/

theorem foldl_buildRound (keyIdx : Nat) (rows : List Row) (key : Bytes) :
    rows.foldl (fun table row => buildRound keyIdx row table) (fun _ => none) key
      = if (rowsWith keyIdx key rows).isEmpty then none else some (rowsWith keyIdx key rows) := by
  induction rows using List.reverseRecOn generalizing key with
  | nil => rfl
  | append_singleton rows row ih =>
    rw [foldl_concat, rowsWith_concat, buildRound]
    cases hrow : row[keyIdx]? with
    | none => simp [ih]
    | some k =>
      by_cases hk : key = k
      · subst hk
        have hold : (rows.foldl (fun table row => buildRound keyIdx row table) (fun _ => none) key).getD []
            = rowsWith keyIdx key rows := by
          rw [ih]
          cases rowsWith keyIdx key rows with
          | nil => rfl
          | cons r rs => rfl
        simp [hold]
      · simp [Function.update_of_ne hk, ih, Ne.symm hk]

theorem foldl_probeRound (leftKeyIdx rightKeyIdx : Nat) (joinType : JoinType) (rightNumCols : Nat)
    (leftRows rightRows : List Row) :
    leftRows.foldl (fun rows row => probeRound leftKeyIdx joinType rightNumCols
        (rightRows.foldl (fun table row => buildRound rightKeyIdx row table) fun _ => none) row rows) []
      = MagnumDB.hashJoinExec leftKeyIdx rightKeyIdx joinType rightNumCols leftRows rightRows := by
  rw [MagnumDB.hashJoinExec, List.flatMap, ← nil_append (List.flatten _),
    ← foldl_append_eq_append]
  refine foldl_ext _ _ _ fun rows row _ => ?_
  rw [probeRound]
  cases row[leftKeyIdx]? with
  | none => exact (append_nil rows).symm
  | some key =>
    dsimp only
    rw [foldl_buildRound]
    show _ = rows ++ if (rowsWith rightKeyIdx key rightRows).isEmpty then _
      else (rowsWith rightKeyIdx key rightRows).map _
    cases rowsWith rightKeyIdx key rightRows with
    | nil =>
      cases joinType with
      | inner => exact (append_nil rows).symm
      | left => rfl
    | cons r rs => exact foldl_push (fun r => row ++ r) (r :: rs) rows

section Children

variable {α : Type} {a : α} {l l' : σ} {r r' : τ} {kept : List Row} {cursor : Nat}

theorem Kept.ends_onLeft {x : Nat → Prog Fail σ α} (hx : Ends x l (.ok a, l')) :
    Ends (fun n => Kept.onLeft (x n)) ⟨(l, r), kept, cursor⟩ (.ok a, ⟨(l', r), kept, cursor⟩) :=
  Kept.ends_onChild (t := ⟨(l, r), kept, cursor⟩) (ends_zoom (r := (.ok a, l')) hx)

theorem Kept.ends_onRight {x : Nat → Prog Fail τ α} (hx : Ends x r (.ok a, r')) :
    Ends (fun n => Kept.onRight (x n)) ⟨(l, r), kept, cursor⟩ (.ok a, ⟨(l, r'), kept, cursor⟩) :=
  Kept.ends_onChild (t := ⟨(l, r), kept, cursor⟩) (ends_zoom (r := (.ok a, r')) hx)

end Children

theorem hashJoinExec_denotes (hleft : left.Denotes leftRows) (hright : right.Denotes rightRows)
    (leftKeyIdx rightKeyIdx : Nat) (joinType : JoinType) (rightNumCols : Nat) :
    (left.hashJoinExec right leftKeyIdx rightKeyIdx joinType rightNumCols).Denotes
      (MagnumDB.hashJoinExec leftKeyIdx rightKeyIdx joinType rightNumCols leftRows rightRows) := by
  refine Kept.denotes rfl ?_ ?_
  · rintro ⟨⟨l, r⟩, kept, cursor⟩
    obtain ⟨l₁, hl⟩ := hleft.closes l
    obtain ⟨r₁, hr⟩ := hright.closes r
    exact ⟨_, (Kept.ends_onLeft hl).bind ((Kept.ends_onRight hr).bind (ends_modify _ _))⟩
  · rintro ⟨⟨l, r⟩, kept, cursor⟩
    obtain ⟨l₁, hl₁, hyl⟩ := hleft.opens l
    obtain ⟨r₁, hr₁, hyr⟩ := hright.opens r
    obtain ⟨r₂, hbuild, -⟩ := Yields.whileSome Fail.outOfFuel
      (fun row table => (false, buildRound rightKeyIdx row table)) (fun _ => none) hyr
    rw [foldUntil_of_false (fun _ _ => rfl)] at hbuild
    obtain ⟨l₂, hprobe, -⟩ := Yields.whileSome Fail.outOfFuel (fun row rows =>
      (false, probeRound leftKeyIdx joinType rightNumCols
        (rightRows.foldl (fun table row => buildRound rightKeyIdx row table) fun _ => none) row rows))
      [] hyl
    rw [foldUntil_of_false (fun _ _ => rfl), foldl_probeRound] at hprobe
    refine ⟨(l₂, r₂), (Kept.ends_onLeft hl₁).bind ((Kept.ends_onRight hr₁).bind ?_)⟩
    refine (ends_modify _ _).bind ((Kept.ends_onRight hbuild).bind ?_)
    exact (Kept.ends_onLeft hprobe).bind (ends_modify _ _)

/-! ## Groups -/

variable {h : Host} {aggFunc : AggregateFunc} {groupColIdx : Nat}

theorem rowsWith_isEmpty (key : Bytes) (rows : List Row) :
    (rowsWith groupColIdx key rows).isEmpty ↔ key ∉ rows.filterMap fun row => row[groupColIdx]? := by
  simp [rowsWith]

theorem foldl_groupRound (rows : List Row) :
    (∀ key, (rows.foldl (fun g row => groupRound h groupColIdx aggFunc row g) ⟨fun _ => none, []⟩).groups key
      = if (rowsWith groupColIdx key rows).isEmpty then none
        else some ((rowsWith groupColIdx key rows).length,
          (rowsWith groupColIdx key rows).foldl (fun sum row => aggFunc.add h row sum) h.zeroF64)) ∧
      (rows.foldl (fun g row => groupRound h groupColIdx aggFunc row g) ⟨fun _ => none, []⟩).groupKeys
        = (rows.filterMap fun row => row[groupColIdx]?).reverse.dedup.reverse := by
  induction rows using List.reverseRecOn with
  | nil => exact ⟨fun _ => rfl, rfl⟩
  | append_singleton rows row ih =>
    obtain ⟨hgroups, hkeys⟩ := ih
    rw [foldl_concat]
    generalize rows.foldl (fun g row => groupRound h groupColIdx aggFunc row g) ⟨fun _ => none, []⟩ = g
      at hgroups hkeys ⊢
    rw [groupRound, filterMap_append]
    cases hrow : row[groupColIdx]? with
    | none => simp [rowsWith_concat, hrow, hgroups, hkeys]
    | some k =>
      constructor
      · intro key
        dsimp only
        by_cases hk : key = k
        · subst hk
          rw [Function.update_self, hgroups, rowsWith_concat, if_pos hrow]
          cases rowsWith groupColIdx key rows with
          | nil => rfl
          | cons r rs => simp
        · have hsame : rowsWith groupColIdx key (rows ++ [row]) = rowsWith groupColIdx key rows := by
            rw [rowsWith_concat, hrow, if_neg fun hkey => hk (Option.some.inj hkey).symm, append_nil]
          rw [Function.update_of_ne hk, hgroups, hsame]
      · dsimp only
        rw [filterMap_cons_some (f := fun row : Row => row[groupColIdx]?) hrow, filterMap_nil, reverse_append,
          reverse_singleton, singleton_append, hgroups, hkeys]
        by_cases hk : k ∈ rows.filterMap fun row => row[groupColIdx]?
        · rw [if_neg (mt (rowsWith_isEmpty k rows).mp (not_not_intro hk)),
            dedup_cons_of_mem (mem_reverse.mpr hk)]
          rfl
        · rw [if_pos ((rowsWith_isEmpty k rows).mpr hk),
            dedup_cons_of_notMem (mt mem_reverse.mp hk), reverse_cons]
          rfl

theorem groupRows_eq (havingOpVal : Option (Bytes × Bytes)) (rows : List Row) :
    groupRows h aggFunc havingOpVal
        (rows.foldl (fun g row => groupRound h groupColIdx aggFunc row g) ⟨fun _ => none, []⟩)
      = MagnumDB.hashGroupAggregateExec h groupColIdx aggFunc havingOpVal rows := by
  obtain ⟨hgroups, hkeys⟩ := @foldl_groupRound h aggFunc groupColIdx rows
  unfold groupRows MagnumDB.hashGroupAggregateExec
  have hseen : ∀ key ∈ (rows.filterMap fun row => row[groupColIdx]?).reverse.dedup.reverse,
      key ∈ rows.filterMap fun row => row[groupColIdx]? := by
    intro key hkey
    rwa [mem_reverse, mem_dedup, mem_reverse] at hkey
  rw [hkeys]
  generalize (rows.filterMap fun row => row[groupColIdx]?).reverse.dedup.reverse = keys at hseen ⊢
  rw [filterMap_eq_flatMap_toList, flatMap_def, ← nil_append (List.flatten _),
    ← foldl_append_eq_append]
  refine foldl_ext _ _ _ fun acc key hkey => ?_
  have hkey := hseen key hkey
  rw [hgroups, if_neg (mt (rowsWith_isEmpty key rows).mp (not_not_intro hkey))]
  dsimp only
  rw [resultStr_eq]
  unfold rowsWith
  split
  · rfl
  · exact (append_nil acc).symm

theorem hashGroupAggregateExec_denotes (hchild : child.Denotes rows) (h : Host) (groupColIdx : Nat)
    (aggFunc : AggregateFunc) (havingOpVal : Option (Bytes × Bytes)) :
    (child.hashGroupAggregateExec h groupColIdx aggFunc havingOpVal).Denotes
      (MagnumDB.hashGroupAggregateExec h groupColIdx aggFunc havingOpVal rows) := by
  refine Kept.denotes rfl (Kept.closes hchild) fun t => ?_
  obtain ⟨s₁, hs₁, hy⟩ := hchild.opens t.child
  obtain ⟨s₂, hloop, -⟩ := Yields.whileSome Fail.outOfFuel
    (fun row g => (false, groupRound h groupColIdx aggFunc row g)) ⟨fun _ => none, []⟩ hy
  rw [foldUntil_of_false (fun _ _ => rfl)] at hloop
  refine ⟨s₂, Ends.bind (Kept.ends_onChild hs₁) ?_⟩
  refine Ends.bind (ends_modify _ _) ?_
  refine Ends.bind (Kept.ends_onChild hloop) ?_
  rw [← groupRows_eq]
  exact ends_modify _ _

/-- An operator is opened and read. -/
def drain (e : ExecutionPlan σ) (n fuel : Nat) : Prog Fail σ (List (Option Row)) := do
  e.open_ fuel
  reads (e.next fuel) n

theorem Denotes.drain {e : ExecutionPlan σ} (he : e.Denotes rows) (n : Nat) (s : σ) :
    ∃ s', Ends (e.drain n) s (.ok (answers rows n), s') := by
  obtain ⟨s₁, hs₁, hy⟩ := he.opens s
  obtain ⟨s₂, hs₂, -⟩ := hy.reads n
  exact ⟨s₂, hs₁.bind hs₂⟩

end ExecutionPlan

/-! ## The nested loop -/

/-- For each left row its matches in the order of the right rows, and for a left join the row filled
up when it has none. -/
def nestedLoopJoin (leftKeyIdx rightKeyIdx : Nat) (joinType : JoinType) (rightNumCols : Nat)
    (leftRows rightRows : List Row) : List Row :=
  leftRows.flatMap fun l =>
    let matching := rightRows.filter fun r => r[rightKeyIdx]? == l[leftKeyIdx]?
    (matching.map fun r => l ++ r) ++
      if joinType = .left ∧ matching = [] then [l ++ List.replicate rightNumCols (ofString "NULL")]
      else []

theorem hashJoinExec_eq_nestedLoopJoin {leftKeyIdx : Nat} {leftRows : List Row}
    (hkey : ∀ l ∈ leftRows, leftKeyIdx < l.length) (rightKeyIdx : Nat) (joinType : JoinType)
    (rightNumCols : Nat) (rightRows : List Row) :
    hashJoinExec leftKeyIdx rightKeyIdx joinType rightNumCols leftRows rightRows
      = nestedLoopJoin leftKeyIdx rightKeyIdx joinType rightNumCols leftRows rightRows := by
  refine flatMap_congr fun l hl => ?_
  obtain ⟨key, hcell⟩ : ∃ key, l[leftKeyIdx]? = some key := ⟨_, getElem?_eq_getElem (hkey l hl)⟩
  rw [hcell]
  dsimp only
  cases rightRows.filter fun r => r[rightKeyIdx]? == some key with
  | nil => simp
  | cons r rs => simp

/-- **A hash join is the nested loop.** Whatever state the operator is in and whatever its children
are: opened and read, it gives the rows of the nested loop one by one, and nothing from then on. -/
theorem hashJoin_yields_nestedLoop {σ τ : Type} (left : ExecutionPlan σ) (right : ExecutionPlan τ)
    (leftRows rightRows : List Row) (hleft : left.Denotes leftRows) (hright : right.Denotes rightRows)
    (leftKeyIdx rightKeyIdx : Nat) (joinType : JoinType) (rightNumCols : Nat)
    (hkey : ∀ l ∈ leftRows, leftKeyIdx < l.length) (n : Nat) (s : ExecutionPlan.Kept (σ × τ)) :
    ∃ s', Ends ((left.hashJoinExec right leftKeyIdx rightKeyIdx joinType rightNumCols).drain n) s
      (.ok (answers (nestedLoopJoin leftKeyIdx rightKeyIdx joinType rightNumCols leftRows rightRows) n),
        s') := by
  rw [← hashJoinExec_eq_nestedLoopJoin hkey]
  exact (ExecutionPlan.hashJoinExec_denotes hleft hright _ _ _ _).drain n s

theorem hashJoin_fills_up :
    ∃ s', Ends (((seqScanExec [[[1], [65]], [[2], [66]]]).hashJoinExec (seqScanExec [[[1], [70]], [[1], [71]]])
        0 0 .left 2).drain 4) ⟨(0, 0), [], 0⟩
      (.ok [some [[1], [65], [1], [70]], some [[1], [65], [1], [71]],
        some [[2], [66], "NULL", ofString "NULL"], none], s') :=
  hashJoin_yields_nestedLoop _ _ _ _ (seqScanExec_denotes [[[1], [65]], [[2], [66]]])
    (seqScanExec_denotes [[[1], [70]], [[1], [71]]]) 0 0 .left 2 (by decide) 4 _

/-! ## Counting -/

/-- The values of a column in the order in which they come up first, each with the number of rows
that have it. -/
def groupCounts (groupColIdx : Nat) (rows : List Row) : List (Bytes × Nat) :=
  (rows.filterMap fun row => row[groupColIdx]?).eraseDups.map fun v =>
    (v, (rowsWith groupColIdx v rows).length)

/-- The comparisons of HAVING. -/
inductive Comparison where
  | ge
  | le
  | gt
  | lt
  | eq

def Comparison.text : Comparison → Bytes
  | .ge => ">="
  | .le => "<="
  | .gt => ">"
  | .lt => "<"
  | .eq => "="

def Comparison.holds (a b : Int) : Comparison → Bool
  | .ge => (compare a b).isGE
  | .le => (compare a b).isLE
  | .gt => (compare a b).isGT
  | .lt => (compare a b).isLT
  | .eq => (compare a b).isEq

theorem reverse_dedup_reverse (l : List Bytes) : l.reverse.dedup.reverse = l.eraseDups := by
  induction l using List.reverseRecOn with
  | nil => rfl
  | append_singleton l v ih =>
    rw [reverse_append, reverse_singleton, singleton_append, eraseDups_append]
    by_cases hv : v ∈ l
    · rw [dedup_cons_of_mem (mem_reverse.mpr hv), ih]
      simp [List.removeAll, hv]
    · rw [dedup_cons_of_notMem (mt mem_reverse.mp hv), reverse_cons, ih]
      simp [List.removeAll, hv, eraseDups_cons]

theorem sum_length_filter {α β : Type} [DecidableEq β] (f : α → Option β) (l : List α) :
    ((l.filterMap f).reverse.dedup.map fun v => (l.filter fun a => decide (f a = some v)).length).sum
      = (l.filterMap f).length := by
  have hsum := sum_map_count_dedup_eq_length (l.filterMap f).reverse
  rw [length_reverse] at hsum
  rw [← hsum]
  refine congrArg List.sum (map_congr_left fun v _ => ?_)
  rw [count_reverse, count_filterMap, ← countP_eq_length_filter]
  exact countP_congr fun a _ => by rw [decide_eq_true_eq, beq_iff_eq]

theorem sum_groupCounts {groupColIdx : Nat} {rows : List Row}
    (hrows : ∀ row ∈ rows, groupColIdx < row.length) :
    ((groupCounts groupColIdx rows).map Prod.snd).sum = rows.length := by
  have hlen : (rows.filterMap fun row => row[groupColIdx]?).length = rows.length := by
    rw [length_filterMap_eq_countP, countP_eq_length]
    intro row hrow
    rw [getElem?_eq_getElem (hrows row hrow)]
    rfl
  rw [← hlen, ← sum_length_filter, groupCounts, map_map, ← reverse_dedup_reverse,
    map_reverse, sum_reverse]
  refine congrArg List.sum (map_congr_left fun v _ => congrArg List.length ?_)
  exact filter_congr fun row _ => by rw [Bool.eq_iff_iff, beq_iff_eq, decide_eq_true_eq]

/-- Counts and comparisons are exact in `f64`. -/
theorem passesHaving_count {h : Host} (hint : h.ExactIntegers) (op : Comparison) {target : Bytes}
    {k : Int} (htarget : parseInteger target = some k) (hk : k.natAbs < 2 ^ 53) (count : Nat) :
    passesHaving h (decimal count) (some (op.text, target)) = op.holds count k := by
  obtain ⟨y, hy⟩ := hint.parses target k htarget
  obtain ⟨x, hx⟩ := hint.parses _ _ (parseInteger_decimal count)
  obtain ⟨hcmp, hnear⟩ := hint.compares _ _ _ _ x y (parseInteger_decimal count) htarget (.inr hk) hx hy
  rw [passesHaving, hx, hy]
  dsimp only
  rw [hcmp, hnear]
  unfold Comparison.holds
  generalize compare (count : Int) k = o
  cases op <;> cases o <;> rfl

theorem hashGroupAggregateExec_count (h : Host) (groupColIdx : Nat) (rows : List Row)
    (having : Option (Bytes × Bytes)) :
    hashGroupAggregateExec h groupColIdx .count having rows
      = ((groupCounts groupColIdx rows).filter fun c => passesHaving h (decimal c.2) having).map
          fun c => [c.1, decimal c.2] := by
  rw [hashGroupAggregateExec, groupCounts, reverse_dedup_reverse, filter_map, map_map,
    ← filterMap_eq_map, filterMap_filter]
  rfl

/-- **Hash grouping partitions the rows.** Whatever the child is: the values are different ones, they
are those of the column, and the counts add up to the number of rows. Opened and read, the operator
gives each value with its count in the order in which the values come up, and with HAVING those whose
count passes the comparison. -/
theorem hashGroup_partitions {σ : Type} (child : ExecutionPlan σ) (rows : List Row)
    (hchild : child.Denotes rows) (h : Host) (hint : h.ExactIntegers) (groupColIdx : Nat)
    (hrows : ∀ row ∈ rows, groupColIdx < row.length) (s : ExecutionPlan.Kept σ) :
    ((groupCounts groupColIdx rows).map Prod.fst).Nodup ∧
    (∀ v, v ∈ (groupCounts groupColIdx rows).map Prod.fst ↔ ∃ row ∈ rows, row[groupColIdx]? = some v) ∧
    ((groupCounts groupColIdx rows).map Prod.snd).sum = rows.length ∧
    (∀ n, ∃ s', Ends ((child.hashGroupAggregateExec h groupColIdx .count none).drain n) s
      (.ok (answers ((groupCounts groupColIdx rows).map fun c => [c.1, decimal c.2]) n), s')) ∧
    ∀ (op : Comparison) (target : Bytes) (k : Int), parseInteger target = some k → k.natAbs < 2 ^ 53 →
      ∀ n, ∃ s', Ends ((child.hashGroupAggregateExec h groupColIdx .count (some (op.text, target))).drain n) s
        (.ok (answers (((groupCounts groupColIdx rows).filter fun c => op.holds c.2 k).map
          fun c => [c.1, decimal c.2]) n), s') := by
  have hdrain (having : Option (Bytes × Bytes)) (n : Nat) :=
    (ExecutionPlan.hashGroupAggregateExec_denotes hchild h groupColIdx .count having).drain n s
  have hvalues : (groupCounts groupColIdx rows).map Prod.fst
      = (rows.filterMap fun row => row[groupColIdx]?).eraseDups := by
    rw [groupCounts, map_map]
    exact map_id' _
  refine ⟨?_, fun v => ?_, sum_groupCounts hrows, fun n => ?_, fun op target k htarget hk n => ?_⟩
  · rw [hvalues, ← reverse_dedup_reverse]
    exact nodup_reverse.mpr (nodup_dedup _)
  · rw [hvalues, mem_eraseDups, mem_filterMap]
  · have hall := hashGroupAggregateExec_count h groupColIdx rows none
    rw [(filter_eq_self (p := fun c : Bytes × Nat => passesHaving h (decimal c.2) none)).mpr
      fun _ _ => rfl] at hall
    rw [← hall]
    exact hdrain none n
  · simp only [← passesHaving_count hint op htarget hk]
    rw [← hashGroupAggregateExec_count]
    exact hdrain _ n

theorem hashGroup_two_values :
    groupCounts 0 [[[65]], [[66]], [[65]]] = [([65], 2), ([66], 1)] ∧
    ∃ s', Ends (((seqScanExec [[[65]], [[66]], [[65]]]).hashGroupAggregateExec integerHost 0 .count
        (some (Comparison.ge.text, "2"))).drain 2) ⟨0, [], 0⟩
      (.ok [some [[65], "2"], none], s') :=
  ⟨by decide +kernel, (hashGroup_partitions _ _ (seqScanExec_denotes [[[65]], [[66]], [[65]]]) integerHost
    integerHost_exactIntegers 0 (by decide) ⟨0, [], 0⟩).2.2.2.2 .ge "2" 2 (by decide +kernel)
      (by decide) 2⟩

end MagnumDB
