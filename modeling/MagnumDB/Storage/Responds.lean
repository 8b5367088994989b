import MagnumDB.Storage.MemStore
import MagnumDB.Storage.NodeRead

/-!
# Stores that answer

The laws of a page store allow each call to be stopped. A store whose pages can always be fetched,
written and freed stops at most when it has no page left to hand out. On such a store the operations
that allocate nothing are never stopped, so what is proved of them up to being stopped is what they do.
-/

namespace MagnumDB

open Prog

/-- Fetching, writing and freeing a page never fail. -/
structure PageStore.Responds {σ : Type} (S : PageStore σ) : Prop where
  fetch : ∀ p s, ∃ page s', S.fetchPage p s = (.ok page, s')
  write : ∀ p page s, ∃ s', S.writePage p page s = (.ok (), s')
  free : ∀ p s, ∃ s', S.freePage p s = (.ok (), s')

theorem MemStore.store_responds : MemStore.store.Responds where
  fetch _ _ := ⟨_, _, rfl⟩
  write _ _ _ := ⟨_, rfl⟩
  free _ _ := ⟨_, rfl⟩

namespace BTree

variable {σ : Type} {S : PageStore σ} (hS : S.Responds)

include hS

theorem avoids_fetchPage (p : PageId) : Avoids .stopped (onPool (S.fetchPage p)) := by
  refine Avoids.zoom fun s he => ?_
  obtain ⟨page, s', hrun⟩ := hS.fetch p s
  rw [hrun] at he
  exact nomatch he

theorem avoids_writePage (p : PageId) (page : Page) : Avoids .stopped (onPool (S.writePage p page)) := by
  refine Avoids.zoom fun s he => ?_
  obtain ⟨s', hrun⟩ := hS.write p page s
  rw [hrun] at he
  exact nomatch he

theorem avoids_freePage (p : PageId) : Avoids .stopped (onPool (S.freePage p)) := by
  refine Avoids.zoom fun s he => ?_
  obtain ⟨s', hrun⟩ := hS.free p s
  rw [hrun] at he
  exact nomatch he

/-! ## Overflow chains -/

theorem avoids_resolveChain (len fuel : Nat) : ∀ (p : PageId) (acc : Bytes),
    Avoids .stopped (resolveChain S len fuel p acc) := by
  induction fuel with
  | zero =>
    intro p acc
    exact (avoids_pure _).ite (avoids_fail (by decide))
  | succ fuel ih =>
    intro p acc
    refine (avoids_pure _).ite ((avoids_fetchPage hS p).bind fun page => ?_)
    refine (avoids_lift ?_).bind fun part => ih page.next (acc ++ part)
    -- a slice out of range is a panic
    unfold Page.slice
    split
    · exact nofun
    · exact nofun

theorem avoids_readValue (fuel : Nat) (stored : Bytes) :
    Avoids .stopped (readValueResolveOverflow S fuel stored) :=
  (avoids_resolveChain hS _ fuel _ _).ite (avoids_pure _)

theorem avoids_freeChain (fuel : Nat) : ∀ p : PageId, Avoids .stopped (freeChain S fuel p) := by
  induction fuel with
  | zero =>
    intro p
    exact (avoids_pure _).ite (avoids_fail (by decide))
  | succ fuel ih =>
    intro p
    refine (avoids_pure _).ite ((avoids_fetchPage hS p).bind fun page => ?_)
    exact (avoids_freePage hS p).bind fun _ => ih page.next

theorem avoids_freeOverflowChain (fuel : Nat) (stored : Bytes) :
    Avoids .stopped (freeOverflowChain S fuel stored) :=
  (avoids_freeChain hS fuel _).ite (avoids_pure _)

/-! ## Nodes, descents and scans -/

theorem avoids_readNode (p : PageId) : Avoids .stopped (readNode S p) := by
  refine (avoids_fetchPage hS p).bind fun page => avoids_lift ?_
  obtain ⟨n, hn⟩ := Node.exists_fromPage page
  rw [hn]
  exact nofun

theorem avoids_writeNode (p : PageId) (n : Node) : Avoids .stopped (writeNode S p n) := by
  refine (avoids_lift ?_).bind fun page => avoids_writePage hS p page
  by_cases hfit : n.encodedSize ≤ pageSize
  · obtain ⟨page, hpage, -⟩ := Node.toPage_of_fits hfit
    rw [hpage]
    exact nofun
  · rw [Node.toPage_of_not_fits hfit]
    exact nofun

theorem avoids_findLeafForInsert (key : Bytes) (fuel : Nat) : ∀ (p : PageId) (n : Node),
    Avoids .stopped (findLeafForInsert S key fuel p n) := by
  induction fuel with
  | zero =>
    intro p n
    cases n with
    | leaf l => exact avoids_pure _
    | internal i => exact avoids_fail (by decide)
  | succ fuel ih =>
    intro p n
    cases n with
    | leaf l => exact avoids_pure _
    | internal i =>
      rw [findLeafForInsert]
      cases i.children[childIndex i.keys key]? with
      | none => exact avoids_fail (by decide)
      | some child => exact (avoids_readNode hS child).bind fun node => ih child node

theorem avoids_findLeaf (fuel : Nat) (key : Bytes) : Avoids .stopped (findLeaf S fuel key) :=
  avoids_get.bind fun t => (avoids_readNode hS t.rootPageId).bind fun node =>
    avoids_findLeafForInsert hS key fuel t.rootPageId node

theorem avoids_search (fuel : Nat) (key : Bytes) : Avoids .stopped (search S fuel key) := by
  refine (avoids_findLeaf hS fuel key).bind fun ⟨leafId, l⟩ => ?_
  dsimp only
  split
  · exact avoids_pure _
  · split
    · exact avoids_fail (by decide)
    · exact (avoids_readValue hS fuel _).bind fun _ => avoids_pure _

theorem avoids_scanRecords (fuel : Nat) (pre : Bytes) : ∀ recs : List (Bytes × Bytes),
    Avoids .stopped (scanRecords S fuel pre recs)
  | [] => avoids_pure _
  | r :: rest => by
    have ih := avoids_scanRecords fuel pre rest
    rw [scanRecords]
    refine Avoids.ite ?_ ((avoids_pure _).ite ih)
    exact (avoids_readValue hS fuel r.2).bind fun _ => ih.bind fun _ => avoids_pure _

theorem avoids_scanLeaves (pre : Bytes) (fuel : Nat) : ∀ l : LeafNode,
    Avoids .stopped (scanLeaves S pre fuel l) := by
  induction fuel with
  | zero => exact fun l => avoids_fail (by decide)
  | succ fuel ih =>
    intro l
    rw [scanLeaves]
    refine (avoids_scanRecords hS (fuel + 1) pre l.records).bind fun found => (avoids_pure _).ite ?_
    rcases l.nextLeaf with _ | next
    · exact avoids_pure _
    · refine (avoids_readNode hS next).bind fun node => ?_
      cases node with
      | internal i => exact avoids_pure _
      | leaf l' => exact (ih l').bind fun _ => avoids_pure _

theorem avoids_scanPrefix (fuel : Nat) (pre : Bytes) : Avoids .stopped (scanPrefix S fuel pre) :=
  (avoids_findLeaf hS fuel pre).bind fun leaf => avoids_scanLeaves hS pre fuel leaf.2

/-! ## Deletion -/

theorem avoids_findLeftmostLeaf (fuel : Nat) : ∀ p : PageId,
    Avoids .stopped (findLeftmostLeaf S fuel p) := by
  induction fuel with
  | zero => exact fun p => avoids_fail (by decide)
  | succ fuel ih =>
    intro p
    rw [findLeftmostLeaf]
    refine (avoids_readNode hS p).bind fun node => ?_
    cases node with
    | leaf l => exact avoids_pure _
    | internal i =>
      obtain ⟨parent, keys, children⟩ := i
      cases children with
      | nil => exact avoids_pure _
      | cons child rest => exact ih child

theorem avoids_unlinkWalk (leafId : PageId) (l : LeafNode) (fuel : Nat) : ∀ p : PageId,
    Avoids .stopped (unlinkWalk S leafId l fuel p) := by
  induction fuel with
  | zero => exact fun p => avoids_fail (by decide)
  | succ fuel ih =>
    intro p
    rw [unlinkWalk]
    refine (avoids_readNode hS p).bind fun node => ?_
    cases node with
    | internal i => exact avoids_pure _
    | leaf prev =>
      refine Avoids.ite ?_ ?_
      · exact (avoids_writeNode hS p _).bind fun _ =>
          (avoids_freePage hS leafId).bind fun _ => avoids_pure _
      · obtain ⟨parent, next, records⟩ := prev
        cases next with
        | none => exact avoids_pure _
        | some next => exact ih next

theorem avoids_writeOrUnlinkLeaf (fuel : Nat) (rootId leafId : PageId) (l : LeafNode) :
    Avoids .stopped (writeOrUnlinkLeaf S fuel rootId leafId l) := by
  refine Avoids.ite ?_ (avoids_writeNode hS leafId _)
  refine avoids_get.bind fun t => (avoids_findLeftmostLeaf hS fuel t.rootPageId).bind fun leftmost => ?_
  refine (avoids_writeNode hS leafId _).ite ?_
  exact (avoids_unlinkWalk hS leafId l fuel leftmost).bind fun found =>
    (avoids_pure _).ite (avoids_writeNode hS leafId _)

theorem avoids_delete (fuel : Nat) (key : Bytes) : Avoids .stopped (delete S fuel key) := by
  refine avoids_get.bind fun t => (avoids_findLeaf hS fuel key).bind fun ⟨leafId, l⟩ => ?_
  dsimp only
  split
  · exact avoids_pure _
  · split
    · exact avoids_fail (by decide)
    · exact (avoids_freeOverflowChain hS fuel _).bind fun _ => avoids_writeOrUnlinkLeaf hS fuel _ _ _

end BTree

end MagnumDB
