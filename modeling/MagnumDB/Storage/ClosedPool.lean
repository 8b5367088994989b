import MagnumDB.Storage.Contents
import MagnumDB.Storage.Responds

/-!
# The pool while nothing is allocated

The free list is the only part of the pool that a lawless write back of page 0 can spoil, and only
`allocate_page` reads it. Calls that allocate nothing therefore need no monitor: over the pool that
refuses to allocate and does everything else, `closedPool`, the laws hold with `Core` alone as the
invariant, and every call but the allocation is answered. Searches, scans and deletions run on it
exactly as they run on the pool.
-/

namespace MagnumDB

open BPlus SortedAssoc Prog

/-- Everything but an allocation is let pass. -/
def noAlloc : PageCall → BufferPool → Bool
  | .alloc, _ => false
  | _, _ => true

/-- The pool that allocates no page. -/
def closedPool : PageStore BufferPool := BufferPool.store.monitored noAlloc

theorem closedPool_responds : closedPool.Responds where
  fetch _ _ := ⟨_, _, rfl⟩
  write _ _ _ := ⟨_, rfl⟩
  free _ _ := ⟨_, rfl⟩

theorem closedPool_agrees : closedPool.Agrees BufferPool.store :=
  BufferPool.store.monitored_agrees noAlloc

/-- The laws of the pool, without the free list. -/
def BufferPool.closedLaws : closedPool.Laws where
  Inv := Core
  view := view
  root := root
  valid := fun h hp => ⟨(h.used _ hp).1, ne_u32Max_of_lt (h.used _ hp).2⟩
  fetch := by
    intro s U p h hp
    obtain ⟨hpage, hframe, hself, hroot⟩ := h.fetch (Or.inr hp)
    have hrun : closedPool.fetchPage p s = (.ok (s.fetchPage p).1, (s.fetchPage p).2) := rfl
    refine wp_of_ok hrun ⟨hpage, hframe.core, fun q hq => ?_, hroot⟩
    have hq0 := (h.used q hq).1
    by_cases he : q = p
    · exact he ▸ hself (he ▸ hq0)
    · exact hframe.view q hq0 he
  write := by
    intro s U p page h hp
    have hp0 := (h.used p hp).1
    have hmagic : p = 0 → page.hasMagic := fun he => absurd he hp0
    obtain ⟨hframe, hself, hroot⟩ := h.write (Or.inr hp) hmagic
    rw [if_neg hp0] at hroot
    have hrun : closedPool.writePage p page s = (.ok (), s.writePage p page) := rfl
    exact wp_of_ok hrun ⟨hframe.core, hself hp0, fun q hq hne => hframe.view q (h.used q hq).1 hne, hroot⟩
  alloc := fun _ => rfl
  free := fun h hp => h.free hp
  fetchMeta := by
    intro s U h
    obtain ⟨hpage, hframe, -, hroot⟩ := h.fetch (Or.inl rfl)
    have hrun : closedPool.fetchPage 0 s = (.ok (s.fetchPage 0).1, (s.fetchPage 0).2) := rfl
    refine wp_of_ok hrun ⟨congrArg Page.rootField hpage, hframe.core, fun q hq => ?_, hroot⟩
    exact hframe.view q (h.used q hq).1 (h.used q hq).1
  persist := by
    intro s U id h _
    obtain ⟨hpage, hframe, -, -⟩ := h.fetch (Or.inl rfl)
    have hmagic : (((s.fetchPage 0).1).setRoot id).hasMagic := by
      rw [Page.hasMagic_setRoot, hpage]
      exact h.magic_view
    obtain ⟨hframe', -, hroot'⟩ := hframe.core.write (Or.inl rfl) (fun _ => hmagic)
    rw [if_pos rfl, Page.rootField_setRoot] at hroot'
    have hrun : (closedPool.fetchPage 0 >>= fun page => closedPool.writePage 0 (page.setRoot id)) s
        = (.ok (), (s.fetchPage 0).2.writePage 0 ((s.fetchPage 0).1.setRoot id)) := rfl
    refine wp_of_ok hrun ⟨hframe'.core, fun q hq => ?_, hroot'⟩
    have hq0 := (h.used q hq).1
    exact (hframe'.view q hq0 hq0).trans (hframe.view q hq0 hq0)

namespace BTree

variable {t : BTree BufferPool} {K : Set PageId} {d : Nat} {c : PTree d}

/-- A tree in a pool with a free list in order is one in the pool without it. -/
theorem HoldsTree.closed {strict : Bool} (ht : HoldsTree (BufferPool.laws strict) t K c) :
    HoldsTree BufferPool.closedLaws t K c := by
  obtain ⟨v, hat, hrep, hK⟩ := ht
  exact ⟨v, ⟨hat.inv.1, hat.view, hat.rootId, hat.stored⟩, hrep, hK⟩

/-- What is proved of a call over the closed pool, up to being stopped, is what the pool does. -/
theorem ends_of_closed {α : Type} {x : PageStore BufferPool → Nat → Prog Fail (BTree BufferPool) α}
    {Q : α → BTree BufferPool → Prop} (fuel : Nat)
    (hagrees : ∀ {n m}, n ≤ m → Upto GaveUp (x closedPool n) (x BufferPool.store m))
    (havoids : ∀ n, Avoids .stopped (x closedPool n))
    (hwp : ∀ n, fuel ≤ n → (x closedPool n).wp t Q Stopped) :
    ∃ a t', Ends (x BufferPool.store) t (.ok a, t') ∧ Q a t' :=
  ends_of_wp fuel hagrees ⟨0, fun n _ => havoids n t⟩ hwp

end BTree

end MagnumDB
