import MagnumDB.Storage.Responds

/-!
# Long values

A value that is too long for a record is cut into chunks, and each chunk goes to a page of its own.
Over any lawful store the value is read back from the handle that the record gets
(`BTree.overflow_roundTrip`), the pages that were in use keep what they hold, and freeing the chain gives
back as many pages as there are chunks, each of them once.

Of the calls only the allocation may be refused, when there is no page left: a store cannot have more
than `2 ^ 32` of them.
-/

namespace MagnumDB

open ByteString Prog

theorem ChainHolds.length_eq {v : PageId → Page} : ∀ {ps : List PageId} {cs : List Bytes},
    ChainHolds v ps cs → ps.length = cs.length
  | [], [], _ => rfl
  | [], _ :: _, hholds => hholds.elim
  | _ :: _, [], hholds => hholds.elim
  | _ :: _, _ :: _, hholds => congrArg Nat.succ hholds.2.length_eq

namespace BTree

variable {σ : Type} {S : PageStore σ}

/-- **A long value is kept in a chain.** The pages of the chain were not in use, they are as many as
the value has chunks, the pages in use are untouched; reading the handle returns the value, and
freeing it takes exactly the pages of the chain out of use. -/
theorem overflow_roundTrip (L : S.Laws) (hS : S.Responds) {t : BTree σ} {U : Set PageId}
    {v : PageId → Page} {r : PageId} (hat : At L t U v r) {value : Bytes}
    (hlong : maxInlineValSize < value.length) (hlen : value.length < 2 ^ 32) :
    (writeOverflowValue S value).wp t (fun handle t' => ∃ (chain : List PageId) (v' : PageId → Page),
      chain.Nodup ∧ (∀ p ∈ chain, p ∉ U ∧ p ≠ 0 ∧ p ≠ u32Max) ∧
      chain.length = (value.length + (pageSize - 4) - 1) / (pageSize - 4) ∧
      (∀ q ∈ U, v' q = v q) ∧ At L t' (U ∪ {p | p ∈ chain}) v' r ∧
      ∀ fuel, chain.length ≤ fuel →
        (∃ t'', readValueResolveOverflow S fuel handle t' = (.ok value, t'') ∧
          At L t'' (U ∪ {p | p ∈ chain}) v' r) ∧
        ∃ t'', freeOverflowChain S fuel handle t' = (.ok (), t'') ∧ At L t'' U v' r) Stopped := by
  have hne : value ≠ [] := by
    rintro rfl
    exact absurd hlong (by decide)
  refine wp_bind (wp_writeChunks hat (fun _ => rfl) (chunks_cut chunkSize_pos value).length_le ?_)
  intro chain v' t' hnd hfresh hholds hsame hat'
  refine wp_pure ⟨chain, v', hnd, ?_, ?_, hsame, hat', ?_⟩
  · intro p hp
    exact ⟨hfresh p hp, L.valid hat'.inv (Or.inr hp)⟩
  · rw [hholds.length_eq, (chunks_cut chunkSize_pos value).length_eq chunkSize_pos,
      chunks_flatten chunkSize_pos]
    rfl
  · intro fuel hfuel
    -- the handle is what a record with this chain has in it
    have hstored : overflowHandle value.length (chain.head?.getD 0) = (Slot.overflow value chain).stored := by
      rw [Slot.stored, List.headD_eq_head?_getD]
    have hin : ∀ p ∈ (Slot.overflow value chain).pages, p ∈ U ∪ {p | p ∈ chain} := fun p hp => Or.inr hp
    rw [hstored]
    constructor
    · have hread : (readValueResolveOverflow S fuel (Slot.overflow value chain).stored).wp t'
          (fun bs t'' => bs = value ∧ At L t'' (U ∪ {p | p ∈ chain}) v' r) Stopped :=
        wp_readValue hat' (fun _ => rfl) ⟨hne, hholds⟩ hlen hin hfuel (fun t'' hat'' => ⟨rfl, hat''⟩)
      obtain ⟨bs, t'', hrun, rfl, hat''⟩ :=
        (avoids_readValue hS fuel _).returns hread (fun _ _ he => he)
      exact ⟨t'', hrun, hat''⟩
    · have hfree : (freeOverflowChain S fuel (Slot.overflow value chain).stored).wp t'
          (fun _ t'' => At L t'' U v' r) Stopped := by
        refine wp_freeOverflowChain hat' (fun _ => rfl) ⟨hne, hholds⟩ trivial hnd hin hfuel
          (fun t'' hat'' => hat''.congr_pages ?_)
        -- none of the pages of the chain was in use before
        ext p
        have hp := hfresh p
        show (p ∈ U ∨ p ∈ chain) ∧ ¬ p ∈ chain ↔ p ∈ U
        tauto
      obtain ⟨⟨⟩, t'', hrun, hat''⟩ :=
        (avoids_freeOverflowChain hS fuel _).returns hfree (fun _ _ he => he)
      exact ⟨t'', hrun, hat''⟩

/-- On the ideal store: 5000 bytes go to two pages. -/
theorem overflow_roundTrip_mem : ∃ (U : Set PageId) (v : PageId → Page) (r : PageId),
    (writeOverflowValue MemStore.store (List.replicate 5000 7)).wp MemStore.freshTree
      (fun handle t' => ∃ (chain : List PageId) (v' : PageId → Page),
        chain.Nodup ∧ (∀ p ∈ chain, p ∉ U ∧ p ≠ 0 ∧ p ≠ u32Max) ∧
        chain.length = ((List.replicate 5000 (7 : UInt8)).length + (pageSize - 4) - 1) / (pageSize - 4) ∧
        (∀ q ∈ U, v' q = v q) ∧ At MemStore.laws t' (U ∪ {p | p ∈ chain}) v' r ∧
        ∀ fuel, chain.length ≤ fuel →
          (∃ t'', readValueResolveOverflow MemStore.store fuel handle t'
              = (.ok (List.replicate 5000 7), t'') ∧
            At MemStore.laws t'' (U ∪ {p | p ∈ chain}) v' r) ∧
          ∃ t'', freeOverflowChain MemStore.store fuel handle t' = (.ok (), t'') ∧
            At MemStore.laws t'' U v' r) Stopped := by
  obtain ⟨v, hat, -, -⟩ := MemStore.freshTree_holds
  have hlength : (List.replicate 5000 (7 : UInt8)).length = 5000 := List.length_replicate
  generalize List.replicate 5000 (7 : UInt8) = value at hlength ⊢
  refine ⟨_, v, _, overflow_roundTrip MemStore.laws MemStore.store_responds hat ?_ ?_⟩
  · rw [hlength]
    decide
  · rw [hlength]
    decide

end BTree

end MagnumDB
