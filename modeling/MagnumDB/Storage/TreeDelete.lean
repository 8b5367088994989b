import MagnumDB.Storage.LeafChain
import MagnumDB.Storage.TreeInsert

/-!
# Deletion

`BTree::delete` frees the chain of the value and takes the record out of its leaf.
As long as the leaf keeps a record, or is the root, or is the leftmost leaf, the
leaf is written back where it is, possibly empty, and the pages hold a tree again
(`wp_delete`). Otherwise the source takes the leaf out of the chain and frees its page
while the node above still points to it. The pages then hold no tree, but the chain
of leaves has the right records (`wp_delete_any`).
-/

namespace MagnumDB

open BPlus SortedAssoc Prog
open List hiding lookup

namespace BTree

variable {σ : Type} {S : PageStore σ} {L : S.Laws} {t : BTree σ} {U : Set PageId}
  {v : PageId → Page} {E : Fail → BTree σ → Prop} {d : Nat}

variable {key : Bytes} {K : Set PageId} {c : PTree d}

/-- Erasing the record of a key from its leaf. -/
theorem erase_leaf {o : Option Slot} {l₁ l₂ : List (Bytes × Slot)} (h₁ : AllBelow key l₁)
    (h₂ : AllAbove key l₂) : erase key (l₁ ++ (recordOf key o ++ l₂)) = l₁ ++ l₂ := by
  cases o with
  | none => exact erase_absent h₁ h₂
  | some s => exact erase_found h₁ h₂

/-- A leaf gets smaller when records are taken out. -/
theorem leafSize_remove (l₁ o l₂ : List (Bytes × Slot)) :
    leafSize (storedSizes (l₁ ++ l₂)) ≤ leafSize (storedSizes (l₁ ++ (o ++ l₂))) := by
  unfold leafSize storedSizes
  simp only [map_append, sum_append]
  omega

variable {Q : Unit → BTree σ → Prop}

theorem wp_writeShrunk {ctx : PCtx 0 d} {id : PageId} {o : Option Slot}
    {l₁ l₂ : List (Bytes × Slot)}
    (hat : At L t (({p | p ∈ pagesOf c} ∪ K) \ {p | p ∈ pagesOfOption o}) v c.id)
    (hE : ∀ t', E .stopped t') (hK : ∀ p ∈ pagesOf c, p ∉ K)
    (hf : Focus v ctx (PlusTree.leaf id (l₁ ++ (recordOf key o ++ l₂))))
    (hplug : ctx.plug (PlusTree.leaf id (l₁ ++ (recordOf key o ++ l₂))) = c)
    (hloc : ctx.Located key) (h₁ : AllBelow key l₁) (h₂ : AllAbove key l₂)
    (hosub : (pagesOfOption o).Sublist (pagesOf c))
    (hQ : ∀ (c' : PTree d) t', HoldsTree L t' K c' → c'.records = erase key c.records → Q () t') :
    (writeNode S id (.leaf ⟨ctx.parent, ctx.after, storedRecords (l₁ ++ l₂)⟩)).wp t Q E := by
  have hwithout := mem_pages_without hf hplug
  obtain ⟨hnode, hfit⟩ := hf.cells _ (mem_cons_self ..)
  obtain ⟨hparent, hafter⟩ := Node.fromPage_pointers hnode
  have hidmem : id ∈ pagesOf (PlusTree.leaf id (l₁ ++ l₂)) ++ ctx.owned Slot.pages :=
    mem_append_left _ (mem_cons_self ..)
  have hidc := (hwithout id).mp hidmem
  refine wp_writeNode hat hE ⟨Or.inl hidc.1, hidc.2⟩ ⟨hparent, hafter⟩ (fun t' hno => ?_) ?_
  · have hle := leafSize_remove l₁ (recordOf key o) l₂
    have hfit' : leafSize (storedSizes (l₁ ++ (recordOf key o ++ l₂))) ≤ pageSize := by
      rw [← leafSize_eq ctx.parent ctx.after]; exact hfit
    rw [leafSize_eq] at hno
    exact absurd (hle.trans hfit') hno
  · intro page t' hsz hpage hat'
    have hp : CellAt (fun _ => page) (id, .leaf ctx.parent ctx.after (l₁ ++ l₂)) := ⟨hpage, hsz⟩
    have hfocus := hf.loose.remove.focus hp
    have hpages : ∀ p, p ∈ pagesOf (ctx.plug (PlusTree.leaf id (l₁ ++ l₂))) ↔
        p ∈ pagesOf c ∧ p ∉ pagesOfOption o := by
      intro p
      rw [pagesOf, (Ctx.plug_owned Slot.pages ctx _).mem_iff]
      exact hwithout p
    have hid : c.id = (ctx.plug (PlusTree.leaf id (l₁ ++ l₂))).id := by
      rw [← hplug]; exact Ctx.plug_id ctx rfl
    rw [hid] at hat'
    refine hQ _ t' ⟨_, hat'.congr_pages ?_, hfocus.represents, fun p hp hk => ?_⟩ ?_
    · ext p
      have hKo : p ∈ K → p ∉ pagesOfOption o := fun hk hpo => hK p (hosub.subset hpo) hk
      simp only [Set.mem_union, Set.mem_sdiff, Set.mem_ofPred_eq, hpages p]
      tauto
    · exact hK p ((hpages p).mp hp).1 hk
    · have hrec : ∀ recs, (PlusTree.leaf id recs : PTree 0).records = recs := fun _ => recordsOf_rcds _
      rw [← hplug, Ctx.plug_records ctx _ hf.ctxShaped, Ctx.plug_records ctx _ hf.ctxShaped, hrec,
        hrec, erase_mid (allBelow_recordsOf hloc.1) (allAbove_recordsOf hloc.2), erase_leaf h₁ h₂]

/-- The nodes are still in use when a chain has been freed: it was on pages of its own. -/
theorem cells_without {ctx : PCtx 0 d} {id : PageId} (l₁ : List (Bytes × Slot)) (o : Option Slot)
    (l₂ : List (Bytes × Slot)) (hrep : Represents v c)
    (hf : Focus v ctx (PlusTree.leaf id (l₁ ++ (recordOf key o ++ l₂))))
    (hplug : ctx.plug (PlusTree.leaf id (l₁ ++ (recordOf key o ++ l₂))) = c) :
    ∀ e ∈ PlusTree.cells none none c,
      e.1 ∈ ({p | p ∈ pagesOf c} ∪ K) \ {p | p ∈ pagesOfOption o} ∧ CellAt v e := by
  intro e he
  refine ⟨?_, hrep.cells e he⟩
  have hmem : e.1 ∈ pagesOf (PlusTree.leaf id (l₁ ++ l₂)) ++ ctx.owned Slot.pages := by
    rw [← hplug] at he
    rcases mem_append.mp ((ctx.plug_cells _).mem_iff.mp he) with he | he
    · rw [PlusTree.cells_leaf, mem_singleton] at he
      rw [he]
      exact mem_append_left _ (mem_cons_self ..)
    · exact mem_append_right _ (ctx.cells_owned Slot.pages he)
  obtain ⟨hc, hno⟩ := (mem_pages_without hf hplug e.1).mp hmem
  exact ⟨Or.inl hc, hno⟩

section Emptied

variable {K : Set PageId} {c : PTree d} {ctx : PCtx 0 d} {id : PageId} {key : Bytes} {s : Slot} {fuel : Nat}
  {Q : Unit → BTree σ → Prop}
  (hat : At L t (({p | p ∈ pagesOf c} ∪ K) \ {p | p ∈ pagesOfOption (some s)}) v c.id)
  (hE : ∀ t', E .stopped t') (hrep : Represents v c)
  (hf : Focus v ctx (PlusTree.leaf id [(key, s)])) (hplug : ctx.plug (PlusTree.leaf id [(key, s)]) = c)

include hat hE hrep hf hplug

/-- The empty leftmost leaf is written back. -/
theorem wp_unlinkLeftmost (hfirst : ctx.leavesL = []) (hfuel : d < fuel) (l : LeafNode)
    (hQ : ∀ t', At L t' (({p | p ∈ pagesOf c} ∪ K) \ {p | p ∈ pagesOfOption (some s)}) v c.id →
      (writeNode S id (.leaf l)).wp t' Q E) :
    (unlinkEmptyLeaf S fuel id l).wp t Q E := by
  have hcells := cells_without (K := K) [] (some s) [] hrep hf hplug
  obtain ⟨x, hx, hspine⟩ := leftSpine_of_cells hrep.shaped hcells
  have hid : x.id = id := by
    rw [← hplug, Ctx.plug_leaves, hfirst] at hx
    exact congrArg Leaf.id (Option.some.inj hx).symm
  refine wp_bind (wp_get ?_)
  rw [hat.rootId]
  refine wp_bind (wp_findLeftmostLeaf hspine hat hE hfuel fun t' hat' => ?_)
  rw [if_pos hid]
  exact hQ t' hat'

/-- An empty leaf with another one before it is taken out of the chain. -/
theorem wp_unlinkOther (hother : ctx.leavesL ≠ []) (hloc : ctx.Located key)
    (hfuel : (pagesOf c).length ≤ fuel)
    (hQ : ∀ U' v' t', At L t' U' v' c.id → ListsRecords v' U' d c.id (erase key c.records) → Q () t') :
    (unlinkEmptyLeaf S fuel id ⟨ctx.parent, ctx.after, []⟩).wp t Q E := by
  have hcells := cells_without (K := K) [] (some s) [] hrep hf hplug
  have hd := height_lt hrep.shaped
  obtain ⟨A, prev, hleft⟩ : ∃ A prev, ctx.leavesL = A ++ [prev] := by
    rcases eq_nil_or_concat ctx.leavesL with hnil | ⟨A, prev, hcons⟩
    · exact absurd hnil hother
    · exact ⟨A, prev, by rw [hcons, concat_eq_append]⟩
  have hleaves : c.leaves = A ++ prev :: ⟨id, [(key, s)]⟩ :: ctx.leavesR := by
    rw [← hplug, Ctx.plug_leaves, hleft, append_assoc]
    rfl
  have hsub : (c.leaves.map Leaf.id).Sublist (pagesOf c) := PlusTree.leaves_sublist Slot.pages c
  have hcount := hsub.length_le
  rw [hleaves] at hsub hcount
  rw [length_map, length_append, length_cons] at hcount
  obtain ⟨first, hfirst, hspine⟩ := leftSpine_of_cells hrep.shaped hcells
  have hhead : (A ++ [prev]).head?.map Leaf.id = some first.id := by
    rw [hleaves] at hfirst
    cases A with
    | nil => exact congrArg (Option.map Leaf.id) hfirst
    | cons a A => exact congrArg (Option.map Leaf.id) hfirst
  have hafter : ctx.after ≠ some u32Max :=
    (Node.fromPage_pointers (hf.cells _ (mem_cons_self ..)).1).2
  refine wp_unlinkEmptyLeaf (x := ⟨id, [(key, s)]⟩) (l := ⟨ctx.parent, ctx.after, []⟩) ctx.after_eq hafter
    hspine hhead (leafRow_of_cells hcells (A := []) hleaves) (hrep.nodup.sublist hsub) hat hE
    (hd.trans_le hfuel) (by omega) ?_
  intro v' t' hat' hlists
  refine hQ _ v' t' hat' ?_
  have hrecs : (A ++ prev :: ctx.leavesR).flatMap Leaf.recs = erase key c.records := by
    have hleaf : (PlusTree.leaf id [(key, s)] : PTree 0).records = [(key, s)] := recordsOf_rcds _
    rw [← hplug, Ctx.plug_records ctx _ hf.ctxShaped, hleaf,
      erase_mid (allBelow_recordsOf hloc.1) (allAbove_recordsOf hloc.2), Ctx.left_records ctx hf.ctxShaped,
      Ctx.right_records ctx hf.ctxShaped, hleft, append_cons, flatMap_append]
    simp [erase]
  rw [← hrecs]
  exact hlists

end Emptied

/-- **Deletion.** Either the pages hold a tree without the key, or the leaf of the key is taken out of
the chain, and the leaves have all records but that of the key. -/
theorem wp_delete_any {fuel : Nat} (ht : HoldsTree L t K c) (hE : ∀ t', E .stopped t')
    (hold : ∀ s ∈ lookup key c.records, s.Genuine) (hfuel : (pagesOf c).length ≤ fuel)
    (hQ : ∀ (c' : PTree d) t', HoldsTree L t' K c' → c'.records = erase key c.records → Q () t')
    (hunlink : ∀ (ctx : PCtx 0 d) id s, ctx.Shaped → ctx.plug (PlusTree.leaf id [(key, s)]) = c →
      ctx.Located key → id ≠ c.id → ctx.leavesL ≠ [] → ∀ U' v' t', At L t' U' v' c.id →
        ListsRecords v' U' d c.id (erase key c.records) → Q () t') :
    (delete S fuel key).wp t Q E := by
  obtain ⟨v, hat, hrep, hK⟩ := ht
  have hd := height_lt hrep.shaped
  have hU : ∀ p ∈ pagesOf c, p ∈ {p | p ∈ pagesOf c} ∪ K := fun p hp => Or.inl hp
  refine wp_bind (wp_get ?_)
  rw [hat.rootId]
  refine wp_bind (wp_findLeaf hat hE hrep hU (by omega) ?_)
  intro ctx id recs t₁ hplug hf hloc hat₁
  obtain ⟨l₁, o, l₂, hrecs, h₁, h₂, hlook⟩ := split_leaf (leaf_sorted hf) key
  subst hrecs
  have hlookc : lookup key c.records = o := by
    rw [← hplug, lookup_leaf hf.ctxShaped hloc, hlook]
  have hosub := pagesOfOption_sublist hrep.shaped hlookc
  dsimp only
  cases o with
  | none =>
    -- nothing is bound to the key: nothing to do
    rw [show recordOf key none ++ l₂ = l₂ from rfl, leaf_binarySearch_absent h₁ h₂]
    refine wp_pure (hQ c t₁ ⟨v, hat₁, hrep, hK⟩ ?_)
    have hrec : ∀ recs, (PlusTree.leaf id recs : PTree 0).records = recs := fun _ => recordsOf_rcds _
    rw [← hplug, Ctx.plug_records ctx _ hf.ctxShaped, hrec,
      erase_mid (allBelow_recordsOf hloc.1) (allAbove_recordsOf hloc.2), erase_leaf h₁ h₂]
    rfl
  | some s =>
    have hpages : pagesOfOption (some s) = s.pages := by simp [pagesOfOption]
    have hmem : (key, s) ∈ c.records := mem_of_lookup hlookc
    have herase : (storedRecords (l₁ ++ (key, s) :: l₂)).eraseIdx l₁.length
        = storedRecords (l₁ ++ l₂) := by
      have hlen : l₁.length = (storedRecords l₁).length := by unfold storedRecords; simp
      rw [storedRecords_append, hlen, eraseIdx_append_of_length_le (Nat.le_refl _),
        Nat.sub_self, storedRecords_append]
      rfl
    rw [show recordOf key (some s) ++ l₂ = (key, s) :: l₂ from rfl, leaf_binarySearch_found h₁]
    dsimp only
    rw [leaf_getElem_found, herase]
    refine wp_bind (wp_freeOverflowChain hat₁ hE (record_holds hrep hmem) (hold s hlookc)
      ?_ (fun p hp => Or.inl ((hpages ▸ hosub).subset hp)) ((hpages ▸ hosub).length_le.trans hfuel)
      ?_)
    · exact hrep.nodup.sublist (hpages ▸ hosub)
    intro t₂ hat₂
    rw [← hpages] at hat₂
    have hwrite := fun t' hat' => wp_writeShrunk (Q := Q) (t := t') hat' hE hK hf hplug hloc h₁ h₂
      hosub hQ
    unfold writeOrUnlinkLeaf
    split
    · rename_i hempty
      -- the leaf is left empty
      have hnil : l₁ ++ l₂ = [] := by
        have := hempty.1
        unfold storedRecords at this
        simpa using this
      obtain ⟨rfl, rfl⟩ := append_eq_nil_iff.mp hnil
      by_cases hfirst : ctx.leavesL = []
      · exact wp_unlinkLeftmost hat₂ hE hrep hf hplug hfirst (by omega) _ hwrite
      · exact wp_unlinkOther hat₂ hE hrep hf hplug hfirst hloc hfuel
          (hunlink ctx id s hf.ctxShaped hplug hloc hempty.2 hfirst)
    · exact hwrite t₂ hat₂

/-- **Deletion**, when the leaf of the key is not emptied, or is the root, or is the leftmost. -/
theorem wp_delete {fuel : Nat} (ht : HoldsTree L t K c) (hE : ∀ t', E .stopped t')
    (hold : ∀ s ∈ lookup key c.records, s.Genuine) (hfuel : (pagesOf c).length ≤ fuel)
    (hkeep : ∀ (ctx : PCtx 0 d) id s, ctx.Shaped → ctx.plug (PlusTree.leaf id [(key, s)]) = c →
      ctx.Located key → id = c.id ∨ ctx.leavesL = [])
    (hQ : ∀ (c' : PTree d) t', HoldsTree L t' K c' → c'.records = erase key c.records → Q () t') :
    (delete S fuel key).wp t Q E := by
  refine wp_delete_any ht hE hold hfuel hQ ?_
  intro ctx id s hs hplug hloc hroot hother
  rcases hkeep ctx id s hs hplug hloc with hid | hfirst
  · exact absurd hid hroot
  · exact absurd hfirst hother

end BTree

end MagnumDB
