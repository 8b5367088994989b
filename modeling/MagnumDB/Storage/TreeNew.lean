import MagnumDB.Storage.TreeInsert

/-!
# Opening a tree

`BTree::new` reads the root from page 0. If page 0 names no root it allocates an
empty leaf and stores its number there; otherwise it takes the root as it is, and
the tree is the one the pages hold.
-/

namespace MagnumDB

open BPlus Prog

namespace BTree

variable {σ : Type} {S : PageStore σ} {L : S.Laws} {s : σ} {U : Set PageId}
  {E : Fail → σ → Prop} {Q : PageId → σ → Prop}

/-- The empty leaf `BTree::new` starts from. -/
def emptyLeaf : Node := .leaf ⟨none, none, []⟩

theorem represents_emptyLeaf {v : PageId → Page} {id : PageId}
    (h : Node.fromPage (v id) = .ok emptyLeaf) : Represents v (PlusTree.leaf id [] : PTree 0) := by
  refine ⟨trivial, List.Pairwise.nil, ?_, ?_, ?_⟩
  · exact List.nodup_singleton id
  · intro e he
    rw [PlusTree.cells_leaf, List.mem_singleton] at he
    subst he
    exact ⟨h, show emptyLeaf.encodedSize ≤ pageSize by decide⟩
  · intro l hl r hr
    rw [PlusTree.leaves_leaf, List.mem_singleton] at hl
    subst hl
    exact absurd hr (List.not_mem_nil)

/-- Page 0 names no root: the tree is a new empty leaf. -/
theorem wp_newRoot_empty (h : L.Inv s U) (hE : ∀ s', E .stopped s')
    (hroot : L.root s = 0 ∨ L.root s = u32Max)
    (hQ : ∀ id s', HoldsTree L ⟨s', id⟩ U (PlusTree.leaf id [] : PTree 0) → Q id s') :
    (newRoot S).wp s Q E := by
  have hstop : ∀ e s', Stopped e s' → E e s' := fun e s' he => he ▸ hE s'
  obtain ⟨page, hpage, -⟩ := Node.toPage_of_fits (n := emptyLeaf) (by decide)
  refine wp_seq (L.fetchMeta h) ?_ hstop
  rintro mp s₁ ⟨hmp, hinv₁, -, hroot₁⟩
  rw [if_pos (hmp ▸ hroot)]
  refine wp_seq (L.alloc hinv₁) ?_ hstop
  rintro id s₂ ⟨hfresh, hinv₂, -, hroot₂⟩
  refine wp_bind (wp_lift_ok hpage ?_)
  refine wp_seq (L.write hinv₂ (Or.inr rfl)) ?_ hstop
  rintro ⟨⟩ s₃ ⟨hinv₃, hself, -, hroot₃⟩
  rw [← bind_assoc]
  refine wp_seq (L.persist hinv₃ (Or.inr rfl)) ?_ hstop
  rintro ⟨⟩ s₄ ⟨hinv₄, hview, hroot₄⟩
  refine wp_pure (hQ id s₄ ⟨L.view s₄, ⟨?_, fun _ _ => rfl, rfl, hroot₄⟩, ?_, ?_⟩)
  · have hset : {p | p ∈ pagesOf (PlusTree.leaf id [] : PTree 0)} ∪ U = U ∪ {id} := by
      ext p
      simp [pagesOf, Set.union_comm U, or_comm]
    rw [hset]
    exact hinv₄
  · refine represents_emptyLeaf ?_
    rw [hview id (Or.inr rfl), hself]
    exact Node.fromPage_toPage ⟨by simp, by simp⟩ hpage
  · intro p hp
    rw [pagesOf, PlusTree.owned_leaf] at hp
    simp only [List.flatMap_nil, List.mem_singleton] at hp
    exact hp ▸ hfresh

end BTree

end MagnumDB
