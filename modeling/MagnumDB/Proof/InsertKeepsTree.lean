import MagnumDB.Storage.MemStore

/-!
# Insertion keeps the tree

Over any lawful page store, an insertion that returns `Ok` turns pages that hold a
tree into pages that hold a tree, and the records of the new tree are the old ones
with one record inserted or replaced. `Represents` collects what makes pages hold
a tree: sorted records and separators that bound their subtrees (`Ordered`), one
more child than keys and leaves at one depth (`Shaped`), parent pointers, leaf
chain and sizes (`cells`), chains (`slots`), and that no page has two uses
(`nodup`).
-/

namespace MagnumDB

open BPlus SortedAssoc Prog

namespace BTree

variable {σ : Type} {S : PageStore σ}

/-- **Insertion keeps the tree and changes one binding.** -/
theorem insert_keeps_tree {d : Nat} (L : S.Laws) {t t' : BTree σ} {K : Set PageId} {c : PTree d}
    {fuel : Nat} {key value : Bytes} (ht : HoldsTree L t K c)
    (hold : ∀ s ∈ lookup key c.records, s.Genuine)
    (hrun : insert S fuel key value t = (.ok (), t')) :
    ∃ (h : Nat) (c' : PTree h) (s : Slot), HoldsTree L t' K c' ∧ SlotFor value s ∧
      c'.records = upsert key s c.records := by
  have hmore := insert_more_fuel hrun (Nat.le_max_left fuel (pagesOf c).length)
  -- errors do not matter: this run returned
  exact wp_ok (wp_insert_any ht (key_le_of_insert_ok hrun) hold (Nat.le_max_right fuel _)) hmore

/-- On the ideal store, inserting into the empty tree gives the tree of one record. -/
theorem insert_keeps_tree_fresh : ∃ t', insert MemStore.store 5 [1] [2] MemStore.freshTree
      = (.ok (), t') ∧
    ∃ (h : Nat) (c' : PTree h) (s : Slot), HoldsTree MemStore.laws t' ∅ c' ∧ SlotFor [2] s ∧
      c'.records = upsert [1] s (PlusTree.leaf 1 [] : PTree 0).records := by
  have hok : (insert MemStore.store 5 [1] [2] MemStore.freshTree).1 = .ok () := by decide +kernel
  refine ⟨_, Prod.ext hok rfl, insert_keeps_tree MemStore.laws MemStore.freshTree_holds ?_
    (Prod.ext hok rfl)⟩
  intro s hs
  exact absurd hs (by simp [PlusTree.records, lookup])

end BTree

end MagnumDB
