import MagnumDB.Lib.SortedMap
import MagnumDB.Storage.DatabaseRun

/-!
# What a database holds

The contents of a database as a finite map, and that reading neither depends on
anything else nor changes them. Nothing is asked of the free list here: a pool may
evict what it likes while pages are read, and the pages of the tree stay what they
are. That is why the statements are about every database whose tree is in order, with
no condition on the calls.
-/

namespace MagnumDB

open BPlus SortedAssoc Prog

/-! ## Keys with a prefix -/

/-- A key after the prefix that does not have it comes after all keys that have it. -/
theorem append_lt_of_not_prefix {pre key : Bytes} (hlt : pre < key) (hpre : ¬ pre <+: key)
    (rest : Bytes) : pre ++ rest < key := by
  induction pre generalizing key with
  | nil => exact absurd List.nil_prefix hpre
  | cons b pre ih =>
    cases key with
    | nil => exact absurd hlt (by simp)
    | cons b' key =>
      rcases List.cons_lt_cons_iff.mp hlt with hb | ⟨rfl, hlt'⟩
      · exact List.cons_lt_cons_iff.mpr (Or.inl hb)
      · have hpre' : ¬ pre <+: key := fun hp => hpre ((List.prefix_cons_inj b).mpr hp)
        exact List.cons_lt_cons_iff.mpr (Or.inr ⟨rfl, ih hlt' hpre'⟩)

/-- A scan picks the keys with the prefix. -/
theorem scanTake_eq_filter {α : Type} {pre : Bytes} {l : List (Bytes × α)} (hl : Sorted l) :
    (BTree.scanTake pre l).1 = l.filter fun r => pre.isPrefixOf r.1 := by
  induction l with
  | nil => rfl
  | cons x l ih =>
    obtain ⟨hx, hl'⟩ := List.pairwise_cons.mp hl
    rw [BTree.scanTake]
    by_cases hp : pre.isPrefixOf x.1
    · rw [if_pos (Or.inr hp), List.filter_cons_of_pos (by exact hp), ih hl']
    · have hnil : ¬ (pre = [] ∨ pre.isPrefixOf x.1) := by
        rintro (rfl | h)
        · exact hp rfl
        · exact hp h
      rw [if_neg hnil, List.filter_cons_of_neg (by exact hp)]
      by_cases hlt : pre < x.1
      · -- the scan stops here, and no later key has the prefix
        rw [if_pos hlt]
        refine (List.filter_eq_nil_iff.mpr fun r hr hpr => ?_).symm
        obtain ⟨rest, hrest⟩ := List.isPrefixOf_iff_prefix.mp hpr
        have hbefore := append_lt_of_not_prefix hlt
          (fun h => hp (List.isPrefixOf_iff_prefix.mpr h)) rest
        rw [hrest] at hbefore
        exact lt_irrefl _ (lt_trans hbefore (hx r hr))
      · rw [if_neg hlt, ih hl']

/-! ## The contents of a tree -/

/-- The pages of a pool hold a tree with these bindings; fuel from the bound on is enough to read
it. Pages the pool caches or writes back do not matter, nor does the free list. -/
def BTree.Shows (bound : Nat) (t : BTree BufferPool) (m : SortedMap Bytes Bytes) : Prop :=
  ∃ (U : Set PageId) (v : PageId → Page) (d : Nat) (c : PTree d),
    t.bufferPool.Core U ∧ (∀ q ∈ U, t.bufferPool.view q = v q) ∧ Represents v c ∧ Readable c ∧
    (∀ p ∈ pagesOf c, p ∈ U) ∧ (v 0).rootField = c.id ∧ t.rootPageId = c.id ∧
    2 * (pagesOf c).length < bound ∧ c.records.map binding = m.entries

namespace BTree.Shows

variable {bound : Nat} {t : BTree BufferPool} {m : SortedMap Bytes Bytes}

/-- What is read is what the pages have, and the pages stay. -/
theorem reads {α : Type} {x : Prog Fail (BTree BufferPool) α}
    {y : (PageId → Page) → Prog Fail (BTree Unit) α} {Q : Except Fail α → Prop}
    (hx : ∀ {I : BufferPool → Prop} {v : PageId → Page} {root : PageId},
      BTree.Fetches BufferPool.store I v root → BTree.Reads I root x (y v))
    (hy : ∀ {v : PageId → Page} {d : Nat} {c : PTree d}, Represents v c → Readable c →
      (∀ p ∈ pagesOf c, p ≠ 0 ∧ p ≠ u32Max) → (v 0).rootField = c.id →
      2 * (pagesOf c).length < bound → c.records.map binding = m.entries →
      Q (y v ⟨(), c.id⟩).1)
    (h : Shows bound t m) : Q (x t).1 ∧ Shows bound (x t).2 m := by
  obtain ⟨U, v, d, c, hcore, hview, hrep, hread, hU, hroot, hid, hbound, hm⟩ := h
  have hreach : ∀ k p, Reaches v c.id k p → p ∈ U := fun k p hp =>
    hU p (hp.mem_pages hrep fun r hr => (hread r hr).genuine)
  have hvalid : ∀ p ∈ pagesOf c, p ≠ 0 ∧ p ≠ u32Max := fun p hp =>
    ⟨(hcore.used p (hU p hp)).1, ne_u32Max_of_lt (hcore.used p (hU p hp)).2⟩
  obtain ⟨r, s', hrun, himage, ⟨hcore', hview'⟩, _⟩ :=
    hx (BufferPool.core_fetches hreach) t.bufferPool ⟨hcore, hview⟩
  have ht : t = ⟨t.bufferPool, c.id⟩ := by rw [← hid]
  rw [ht, hrun]
  have hQ := hy hrep hread hvalid hroot hbound hm
  rw [himage] at hQ
  exact ⟨hQ, U, v, d, c, hcore', hview', hrep, hread, hU, hroot, rfl, hbound, hm⟩

theorem search (h : Shows bound t m) (n : Nat) (key : Bytes) :
    (bound ≤ n → (BTree.search BufferPool.store n key t).1 = .ok (m.get key)) ∧
      Shows bound (BTree.search BufferPool.store n key t).2 m := by
  refine reads (Q := fun r => bound ≤ n → r = .ok (m.get key))
    (fun hS => BTree.reads_search hS n key) ?_ h
  intro v d c hrep hread hvalid hroot hbound hm hn
  rw [BTree.search_image hrep hread hvalid hroot (by omega) key]
  show _ = Except.ok (lookup key m.entries)
  rw [← hm]
  exact congrArg Except.ok (lookup_map Slot.value key c.records).symm

theorem scanPrefix (h : Shows bound t m) (n : Nat) (pre : Bytes) :
    (bound ≤ n → (BTree.scanPrefix BufferPool.store n pre t).1 = .ok (m.select pre.isPrefixOf)) ∧
      Shows bound (BTree.scanPrefix BufferPool.store n pre t).2 m := by
  refine reads (Q := fun r => bound ≤ n → r = .ok (m.select pre.isPrefixOf))
    (fun hS => BTree.reads_scanPrefix hS n pre) ?_ h
  intro v d c hrep hread hvalid hroot hbound hm hn
  have hsorted : Sorted c.records := sorted_recordsOf hrep.ordered
  rw [BTree.scanPrefix_image hrep hread hvalid hroot (by omega) pre,
    scanTake_eq_filter hsorted, SortedMap.select, ← hm, List.filter_map]
  rfl

end BTree.Shows

/-- A tree that holds a map shows it. -/
theorem HoldsMap.shows {t : BTree BufferPool} {f : Bytes → Option Bytes} (h : HoldsMap t f) :
    ∃ bound m, t.Shows bound m ∧ ∀ k, m.get k = f k := by
  obtain ⟨K, d, c, ⟨v, hat, hrep, hK⟩, hread, hm⟩ := h
  have hsorted : Sorted (c.records.map BTree.binding) :=
    sorted_map Slot.value (sorted_recordsOf hrep.ordered)
  refine ⟨2 * (pagesOf c).length + 1, ⟨c.records.map BTree.binding, hsorted⟩,
    ⟨{p | p ∈ pagesOf c} ∪ K, t.bufferPool.view, d, c, hat.inv.1, fun _ _ => rfl,
      hrep.congr fun p hp => hat.view p (Or.inl hp), hread, fun p hp => Or.inl hp, hat.stored,
      hat.rootId, Nat.lt_succ_self _, rfl⟩, fun k => ?_⟩
  exact (lookup_map Slot.value k c.records).trans (hm k)

end MagnumDB
