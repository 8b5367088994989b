import MagnumDB.Storage.ClosedPool

/-!
# Deletion and the chain of leaves

After a deletion the walk from the leftmost leaf along the pointers lists the records that were there,
without the one of the key (`BTree.delete_leafChain`). This holds for every tree, and also when
the last record of a leaf is deleted and the leaf is taken out of the chain: the walk that looks for the
leaf before it ends there, since each leaf is on the chain once, and only that leaf is written.

A deletion allocates nothing, so all of this is about the pool without a monitor.
-/

namespace MagnumDB

open BPlus SortedAssoc Prog

namespace BTree

section Walk

variable {σ : Type} {S S' : PageStore σ}

theorem leafChain_agrees (hS : S.Agrees S') {n m : Nat} (h : n ≤ m) (p : PageId) :
    Follows Eq (leafChain S n p) (leafChain S' m p) := by
  induction h using fuel_induction generalizing p with
  | zero m => exact sim_outOfFuel _
  | succ n m h ih =>
    refine .bind (readNode_sim hS p) fun x => ?_
    cases x with
    | internal i => exact .const _
    | leaf l =>
      dsimp only
      cases l.nextLeaf with
      | none => exact .const _
      | some next => exact .bind (ih next) fun _ => .const _

theorem leafRecords_agrees (hS : S.Agrees S') {n m : Nat} (hnm : n ≤ m) :
    Upto GaveUp (leafRecords S n) (leafRecords S' m) := by
  refine upto_of_over (sim_get fun t t' hroot => ?_)
  rw [hroot]
  exact .bind (findLeftmostLeaf_sim hS hnm _) fun first => leafChain_agrees hS hnm first

theorem avoids_leafChain (hS : S.Responds) (fuel : Nat) : ∀ p : PageId,
    Avoids .stopped (leafChain S fuel p) := by
  induction fuel with
  | zero => exact fun p => avoids_fail (by decide)
  | succ fuel ih =>
    intro p
    rw [leafChain]
    refine (avoids_readNode hS p).bind fun node => ?_
    cases node with
    | internal i => exact avoids_pure _
    | leaf l =>
      obtain ⟨parent, next, records⟩ := l
      cases next with
      | none => exact avoids_pure _
      | some next => exact (ih next).bind fun _ => avoids_pure _

theorem avoids_leafRecords (hS : S.Responds) (fuel : Nat) : Avoids .stopped (leafRecords S fuel) :=
  avoids_get.bind fun t => (avoids_findLeftmostLeaf hS fuel t.rootPageId).bind fun first =>
    avoids_leafChain hS fuel first

end Walk

variable {t : BTree BufferPool} {K : Set PageId} {d : Nat} {c : PTree d}

/-- On the pool, leaves that are in order are listed. -/
theorem leafRecords_ends {U : Set PageId} {v : PageId → Page} {r : PageId} {recs : List (Bytes × Slot)}
    (hat : At BufferPool.closedLaws t U v r) (hlists : ListsRecords v U d r recs) :
    ∃ t', Ends (fun n => leafRecords BufferPool.store n) t (.ok (storedRecords recs), t') := by
  obtain ⟨fuel, hwp⟩ := wp_leafRecords (E := Stopped) hlists hat (fun _ => rfl)
  obtain ⟨found, t', hends, rfl, -⟩ := ends_of_closed (x := fun S n => leafRecords S n) fuel
    (fun hnm => leafRecords_agrees closedPool_agrees hnm)
    (fun n => avoids_leafRecords closedPool_responds n) hwp
  exact ⟨t', hends⟩

/-- The leaves of a tree in the pool. -/
theorem HoldsTree.leafRecords (ht : HoldsTree BufferPool.closedLaws t K c) :
    ∃ t', Ends (fun n => leafRecords BufferPool.store n) t (.ok (storedRecords c.records), t') := by
  obtain ⟨v, hat, hrep, -⟩ := ht
  refine leafRecords_ends hat (listsRecords_of_cells hrep.shaped fun e he => ⟨?_, hrep.cells e he⟩)
  exact Or.inl (PlusTree.cells_owned Slot.pages c he)

/-- **A deletion keeps the chain of leaves right.** It ends with `Ok`, and the walk along the leaves,
which listed the records of the tree before, lists them without that of the key. -/
theorem delete_leafChain (ht : HoldsTree BufferPool.closedLaws t K c) (hgen : Genuine c) (key : Bytes) :
    (∃ t₀, Ends (fun n => leafRecords BufferPool.store n) t (.ok (storedRecords c.records), t₀)) ∧
    ∃ t₁ t₂, Ends (fun n => delete BufferPool.store n key) t (.ok (), t₁) ∧
      Ends (fun n => leafRecords BufferPool.store n) t₁ (.ok (storedRecords (erase key c.records)), t₂) := by
  refine ⟨ht.leafRecords, ?_⟩
  have hwp : ∀ n, (pagesOf c).length ≤ n → (delete closedPool n key).wp t (fun _ t₁ =>
      ∃ t₂, Ends (fun n => leafRecords BufferPool.store n) t₁
        (.ok (storedRecords (erase key c.records)), t₂)) Stopped := by
    intro n hn
    refine wp_delete_any ht (fun _ => rfl) (fun s hs => hgen _ (mem_of_lookup hs)) hn ?_ ?_
    · -- the pages hold a tree again
      intro c' t₁ ht₁ hrecs
      rw [← hrecs]
      exact ht₁.leafRecords
    · -- the leaf is out of the chain
      intro ctx id s _ _ _ _ _ U' v' t₁ hat₁ hlists
      exact leafRecords_ends hat₁ hlists
  obtain ⟨⟨⟩, t₁, hends, t₂, hlists⟩ := ends_of_closed (x := fun S n => delete S n key) _
    (fun hnm => delete_agrees closedPool_agrees hnm key)
    (fun n => avoids_delete closedPool_responds n key) hwp
  exact ⟨t₁, t₂, hends, hlists⟩

/-- Three values that do not fit one leaf; the right leaf is left with the last of them. -/
def twoLeavesRun : List TreeOp :=
  [.insert [1] (List.replicate 2000 7), .insert [2] (List.replicate 2000 7),
    .insert [3] (List.replicate 2000 7), .delete [2]]

set_option maxRecDepth 100000 in
/-- Deleting the record of the right leaf, which is then taken out of the chain. -/
theorem delete_leafChain_unlinked : ∃ (t : BTree BufferPool) (K : Set PageId) (d : Nat) (c : PTree d),
    HoldsTree BufferPool.closedLaws t K c ∧
    (∀ k, (lookup k c.records).map Slot.value = finalMap twoLeavesRun k) ∧
    (∃ t₀, Ends (fun n => leafRecords BufferPool.store n) t (.ok (storedRecords c.records), t₀)) ∧
    ∃ t₁ t₂, Ends (fun n => delete BufferPool.store n [3]) t (.ok (), t₁) ∧
      Ends (fun n => leafRecords BufferPool.store n) t₁ (.ok (storedRecords (erase [3] c.records)), t₂) := by
  obtain ⟨t₀, _, hfresh, _⟩ := fresh_holds false 1024 1000
  have hcheck : (fresh 1024 1000).toOption.all (checkRun false 5 twoLeavesRun) := by
    decide +kernel
  rw [hfresh] at hcheck
  obtain ⟨K, d, c, ht, hread, hm⟩ := (fresh_holdsMap hfresh).eval
    (by simp [twoLeavesRun, TreeOp.Sized, maxKeySize]) hcheck
  exact ⟨_, K, d, c, ht.closed, hm, delete_leafChain ht.closed hread.genuine [3]⟩

end BTree

end MagnumDB
