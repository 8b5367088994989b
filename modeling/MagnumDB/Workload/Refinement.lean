import MagnumDB.Storage.TreeMap

/-!
# The tree is a map

From a tree on a new file, a run of insertions, deletions and searches does what
it would do to a finite map, as long as every call finds the tree in a state in
which it works. Where that fails the tree loses data: the deletion that empties a
leaf other than the leftmost one takes it out of the leaf chain and frees its page,
but leaves the child pointer to it in place, so a key that is inserted there later
is found by a search and missed by a scan.
-/

namespace MagnumDB

open BPlus SortedAssoc Prog

/-- The bindings a scan returns are those of the map, in the order of the keys. -/
theorem bindings_mem {l : List (Bytes × Slot)} (hs : Sorted l) {m : Bytes → Option Bytes}
    (hm : ∀ k, (lookup k l).map Slot.value = m k) :
    Sorted (l.map BTree.binding) ∧ ∀ k v, (k, v) ∈ l.map BTree.binding ↔ m k = some v := by
  have hsorted : Sorted (l.map BTree.binding) := sorted_map Slot.value hs
  refine ⟨hsorted, fun k v => ?_⟩
  have hlook : lookup k (l.map BTree.binding) = m k := (lookup_map Slot.value k l).trans (hm k)
  rw [← hlook]
  exact ⟨lookup_of_mem hsorted, mem_of_lookup⟩

/-- **The tree refines a finite map.** In every run from a tree on a new file in which each call
finds the tree in a state in which it works, every call returns `Ok`, and afterwards a search
returns what the map has and a scan returns its bindings. -/
theorem run_refines_map {capacity interval : Nat} {t₀ : BTree BufferPool} {ops : List TreeOp}
    (hfresh : BTree.fresh capacity interval = .ok t₀) (hsize : ∀ op ∈ ops, op.Sized)
    (hsafe : SafeRun false ops t₀) :
    ∃ rs t, Runs ops t₀ rs t ∧ (∀ r ∈ rs, r.isOk) ∧
      (∀ key, Calm (fun n => BTree.search (guardedPool false) n key) t →
        ∃ t', Ends (fun n => BTree.search BufferPool.store n key) t
          (.ok (finalMap ops key), t')) ∧
      (Calm (fun n => BTree.scan (guardedPool false) n) t →
        ∃ t' l, Ends (fun n => BTree.scan BufferPool.store n) t (.ok l, t') ∧ Sorted l ∧
          ∀ k v, (k, v) ∈ l ↔ finalMap ops k = some v) := by
  obtain ⟨rs, t, hruns, hrs, K, d, c, ht, hread, hm⟩ := (fresh_holdsMap hfresh).run hsize hsafe
  refine ⟨rs, t, hruns, hrs, fun key hcalm => ?_, fun hcalm => ?_⟩
  · obtain ⟨t', hends, _⟩ := BTree.search_ends ht hread hcalm
    rw [hm key] at hends
    exact ⟨t', hends⟩
  · obtain ⟨t', hends, _⟩ := BTree.scan_ends ht hread hcalm
    obtain ⟨hsorted, hmem⟩ := bindings_mem ht.sorted hm
    exact ⟨t', _, hends, hsorted, hmem⟩

/-- A run of a few calls on a small tree. -/
theorem run_refines_map_small : ∃ t₀ rs t, BTree.fresh 16 0 = .ok t₀ ∧
    Runs [.insert [1] [2], .insert [3] [4], .delete [1], .search [3]] t₀ rs t ∧
    (∀ r ∈ rs, r.isOk = true) ∧
    (∀ key, Calm (fun n => BTree.search (guardedPool false) n key) t →
      ∃ t', Ends (fun n => BTree.search BufferPool.store n key) t
        (.ok (finalMap [.insert [1] [2], .insert [3] [4], .delete [1], .search [3]] key), t')) := by
  obtain ⟨t₀, _, hfresh, _⟩ := BTree.fresh_holds false 16 0
  have hcheck : (match BTree.fresh 16 0 with
    | .ok t => checkRun false 5 [.insert [1] [2], .insert [3] [4], .delete [1], .search [3]] t
    | .error _ => false) = true := by decide +kernel
  rw [hfresh] at hcheck
  obtain ⟨rs, t, hruns, hrs, hsearch, _⟩ := run_refines_map hfresh
    (by simp [TreeOp.Sized, maxKeySize]) (safeRun_of_check hcheck)
  exact ⟨t₀, rs, t, hfresh, hruns, hrs, hsearch⟩

/-! ## A leaf that is emptied -/

/-- Three values that do not fit one leaf; the right leaf is emptied, and used again. -/
def emptiedLeafRun : List TreeOp :=
  [.insert [1] (List.replicate 2000 7), .insert [2] (List.replicate 2000 7),
    .insert [3] (List.replicate 2000 7), .delete [2], .delete [3], .insert [3] [5]]

set_option maxRecDepth 100000 in
/-- **A scan misses a key that was inserted.** All calls of the run return `Ok` and stay within
the limits, but the leaf that `[3]` was put into is no longer in the leaf chain. -/
theorem scan_misses_key : ∃ t₀ rs t t' l, BTree.fresh 1024 1000 = .ok t₀ ∧
    Runs emptiedLeafRun t₀ rs t ∧ (∀ r ∈ rs, r.isOk = true) ∧ (∀ op ∈ emptiedLeafRun, op.Sized) ∧
    Ends (fun n => BTree.scan BufferPool.store n) t (.ok l, t') ∧
    finalMap emptiedLeafRun [3] = some [5] ∧ ([3], [5]) ∉ l := by
  obtain ⟨t₀, _, hfresh, _⟩ := BTree.fresh_holds false 1024 1000
  have heval : (match BTree.fresh 1024 1000 with
    | .ok t =>
      let r := evalRun 20 emptiedLeafRun t
      r.1.all Except.isOk && (match (BTree.scan BufferPool.store 20 r.2).1 with
        | .ok l => l.map Prod.fst == [[1]]
        | .error _ => false)
    | .error _ => false) = true := by decide +kernel
  rw [hfresh] at heval
  dsimp only at heval
  generalize hr : evalRun 20 emptiedLeafRun t₀ = r at heval
  obtain ⟨hok, hscan⟩ := Bool.and_eq_true_iff.mp heval
  obtain ⟨hruns, hall⟩ := runs_of_eval_ok hr hok
  split at hscan
  · rename_i l hl
    obtain ⟨t', hends⟩ := ends_of_ok (fun hnm => BTree.scanPrefix_agrees (.refl _) hnm []) hl
    refine ⟨t₀, r.1, r.2, t', l, hfresh, hruns, hall, ?_, hends,
      ?_, ?_⟩
    · simp [emptiedLeafRun, TreeOp.Sized, maxKeySize]
    · simp [finalMap, emptiedLeafRun, TreeOp.apply]
    · intro hmem
      have hkey : ([3] : Bytes) ∈ l.map Prod.fst := List.mem_map_of_mem hmem
      rw [beq_iff_eq.mp hscan] at hkey
      exact absurd hkey (by simp)
  · exact absurd hscan (by simp)

end MagnumDB
