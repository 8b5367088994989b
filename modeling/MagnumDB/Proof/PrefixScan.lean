import MagnumDB.Storage.ClosedPool

/-!
# Prefix scans

A scan for a prefix starts at the leaf of the prefix, passes over smaller keys, follows the leaves
and stops at the first key behind the range. On every tree it returns the bindings whose key starts with
the prefix, in the order of the keys (`BTree.scanPrefix_exact`), however many leaves they are spread
over, as long as the values under the prefix can be told from overflow handles. A value of twelve bytes
that begins like a handle is not returned as it was stored (`BTree.scanPrefix_forged`).
-/

namespace MagnumDB

open BPlus SortedAssoc Prog

namespace BTree

/-- An insertion into a new tree, run under the monitor. -/
structure FreshRun (key value : Bytes) (fuel : Nat) (t₀ t₁ : BTree BufferPool) (id : PageId) : Prop where
  fresh : fresh 1024 1000 = .ok t₀
  holds : HoldsTree (BufferPool.laws true) t₀ ∅ (PlusTree.leaf id [] : PTree 0)
  run : insert (guardedPool true) fuel key value t₀ = (.ok (), t₁)

theorem fresh_run (key value : Bytes) (fuel : Nat) (hrun : (fresh 1024 1000).toOption.all (fun t =>
      (insert (guardedPool true) fuel key value t).1.isOk)) :
    ∃ t₀ t₁ id, FreshRun key value fuel t₀ t₁ id := by
  obtain ⟨t₀, id, hfresh, -, ht₀⟩ := fresh_holds true 1024 1000
  rw [hfresh] at hrun
  obtain ⟨⟨⟩, hok⟩ := isOk_iff.mp hrun
  exact ⟨t₀, _, id, hfresh, ht₀, Prod.ext hok rfl⟩

theorem fresh_run_byte : ∃ t₀ t₁ id, FreshRun [1] [7] 5 t₀ t₁ id := fresh_run _ _ _ (by decide +kernel)

/-- The value of a small insertion into a new tree is in the tree as it is. -/
theorem FreshRun.records {key value : Bytes} {fuel : Nat} {t₀ t₁ : BTree BufferPool} {id : PageId}
    (h : FreshRun key value fuel t₀ t₁ id) (hvalue : value.length ≤ maxInlineValSize) :
    ∃ (d : Nat) (c : PTree d), HoldsTree (BufferPool.laws true) t₁ ∅ c ∧
      c.records = [(key, .inline value)] := by
  obtain ⟨d, c, s, ht₁, hslot, hrecs⟩ := wp_ok
    (wp_insert_any h.holds (key_le_of_insert_ok h.run) nofun (Nat.le_max_right fuel _))
    (insert_more_fuel h.run (Nat.le_max_left _ _))
  rcases hslot with ⟨-, rfl⟩ | ⟨hlong, -⟩
  · exact ⟨d, c, ht₁, hrecs.trans rfl⟩
  · omega

section

variable {t : BTree BufferPool} {K : Set PageId} {d : Nat} {c : PTree d}
  (ht : HoldsTree BufferPool.closedLaws t K c)
include ht

theorem search_closed (key : Bytes) (hread : ∀ s ∈ lookup key c.records, s.Readable) :
    ∃ t', Ends (fun n => search BufferPool.store n key) t
      (.ok ((lookup key c.records).map Slot.value), t') := by
  obtain ⟨v, hat, hrep, hK⟩ := ht
  obtain ⟨found, t', hends, rfl⟩ := ends_of_closed (x := fun S n => search S n key)
    (Q := fun found _ => found = (lookup key c.records).map Slot.value) (pagesOf c).length
    (fun hnm => search_agrees closedPool_agrees hnm key)
    (fun n => avoids_search closedPool_responds n key)
    (fun n hn => wp_search hat (fun _ => rfl) hrep hread (fun p hp => Or.inl hp) hn (fun _ _ => rfl))
  exact ⟨t', hends⟩

theorem scanPrefix_closed {pre : Bytes} (hread : ReadableUnder pre c) :
    ∃ t', Ends (fun n => scanPrefix BufferPool.store n pre) t
        (.ok ((c.records.filter fun x => pre.isPrefixOf x.1).map binding), t') ∧
      HoldsTree BufferPool.closedLaws t' K c := by
  obtain ⟨v, hat, hrep, hK⟩ := ht
  have hwp : ∀ n, 2 * (pagesOf c).length + 1 ≤ n → (scanPrefix closedPool n pre).wp t
      (fun found t' => found = (scanTake pre c.records).1.map binding ∧
        HoldsTree BufferPool.closedLaws t' K c) Stopped := by
    intro n hn
    exact wp_scanPrefix hat (fun _ => rfl) hrep hread (fun p hp => Or.inl hp) (by omega)
      (fun t' hat' => ⟨rfl, v, hat', hrep, hK⟩)
  obtain ⟨found, t', hends, hfound, hpost⟩ := ends_of_closed (x := fun S n => scanPrefix S n pre) _
    (fun hnm => scanPrefix_agrees closedPool_agrees hnm pre)
    (fun n => avoids_scanPrefix closedPool_responds n pre) hwp
  have hsorted : Sorted c.records := sorted_recordsOf hrep.ordered
  rw [hfound, scanTake_eq_filter hsorted] at hends
  exact ⟨t', hends, hpost⟩

end

/-- **A prefix scan is exact.** It ends, it returns the bindings under the prefix in the order of the
keys, each once, and it leaves the tree as it is. -/
theorem scanPrefix_exact {t : BTree BufferPool} {K : Set PageId} {d : Nat} {c : PTree d}
    (ht : HoldsTree BufferPool.closedLaws t K c) {pre : Bytes} (hread : ReadableUnder pre c) :
    ∃ t', Ends (fun n => scanPrefix BufferPool.store n pre) t
        (.ok ((c.records.filter fun x => pre.isPrefixOf x.1).map binding), t') ∧
      HoldsTree BufferPool.closedLaws t' K c ∧
      Sorted ((c.records.filter fun x => pre.isPrefixOf x.1).map binding) := by
  obtain ⟨t', hends, hpost⟩ := scanPrefix_closed ht hread
  obtain ⟨v, hat, hrep, hK⟩ := ht
  have hsorted : Sorted c.records := sorted_recordsOf hrep.ordered
  refine ⟨t', hends, hpost, sorted_map Slot.value ?_⟩
  exact hsorted.sublist List.filter_sublist

/-- A tree with one binding, scanned for its key. -/
theorem scanPrefix_exact_fresh : ∃ (t t' : BTree BufferPool) (d : Nat) (c : PTree d),
    c.records = [([1], .inline [7])] ∧
    Ends (fun n => scanPrefix BufferPool.store n [1]) t
        (.ok ((c.records.filter fun x => ([1] : Bytes).isPrefixOf x.1).map binding), t') ∧
      HoldsTree BufferPool.closedLaws t' ∅ c ∧
      Sorted ((c.records.filter fun x => ([1] : Bytes).isPrefixOf x.1).map binding) := by
  obtain ⟨t₀, t, id, hfresh⟩ := fresh_run_byte
  obtain ⟨d, c, ht, hrecs⟩ := hfresh.records (by decide)
  have hread : ReadableUnder [1] c := by
    rw [ReadableUnder, hrecs]
    intro x hx _
    obtain rfl := List.mem_singleton.mp hx
    exact show isOverflowHandle [7] = false from rfl
  obtain ⟨t', hpost⟩ := scanPrefix_exact ht.closed hread
  exact ⟨t, t', d, c, hrecs, hpost⟩

/-! ## A value that looks like a handle -/

/-- Twelve bytes that a user can store: the handle of an empty chain. -/
def forgedHandle : Bytes := overflowHandle 0 u32Max

theorem fresh_run_forged : ∃ t₀ t₁ id, FreshRun [1] forgedHandle 5 t₀ t₁ id :=
  fresh_run _ _ _ (by decide +kernel)

/-- The scan takes the stored value for a handle, follows it to the end of an empty chain, and
returns no bytes. -/
theorem scanPrefix_forged : ∃ (t₀ t t' : BTree BufferPool) (d : Nat) (c : PTree d),
    fresh 1024 1000 = .ok t₀ ∧ insert (guardedPool true) 5 [1] forgedHandle t₀ = (.ok (), t) ∧
    HoldsTree BufferPool.closedLaws t ∅ c ∧ c.records.map binding = [([1], forgedHandle)] ∧
    Ends (fun n => scanPrefix BufferPool.store n [1]) t (.ok [([1], [])], t') := by
  obtain ⟨t₀, t, id, hstored⟩ := fresh_run_forged
  obtain ⟨d, c, ht, hrecs⟩ := hstored.records (by decide)
  have hscan : (fresh 1024 1000).toOption.all (fun t =>
      (scanPrefix BufferPool.store 5 [1] (insert (guardedPool true) 5 [1] forgedHandle t).2).1.toOption
        == some [([1], [])]) := by decide +kernel
  rw [hstored.fresh] at hscan
  change (_ == _) = true at hscan
  rw [hstored.run] at hscan
  obtain ⟨t', hends⟩ := ends_of_ok (fun hnm => scanPrefix_agrees (.refl BufferPool.store) hnm [1])
    (eq_ok_of_toOption (beq_iff_eq.mp hscan))
  exact ⟨t₀, t, t', d, c, hstored.fresh, hstored.run, ht.closed, congrArg (List.map binding) hrecs, hends⟩

end BTree

end MagnumDB
