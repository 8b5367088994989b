import MagnumDB.Storage.TreeSplit

/-!
# Insertion

`BTree::insert` stores the value, finds the leaf, frees the chain of a value that
is replaced, and writes the leaf back or splits it. In between, the tree is whole
except for the page of that one leaf: `Loose`. The main result, `wp_insert`, says
that every run that is not stopped ends in a tree with exactly one binding changed,
or with the error of a node too large for its page. The latter only happens when a
half of a split is too large, which `leafFits` decides beforehand.
-/

namespace MagnumDB

open BPlus SortedAssoc Prog
open List hiding lookup

/-! ## When the leaf or its halves fit -/

/-- Bytes a leaf takes, given its keys and the lengths of what is stored with them. -/
def leafSize (recs : List (Bytes × Nat)) : Nat :=
  leafHeaderSize + (recs.map (fun r => 4 + r.1.length + 4 + r.2)).sum

/-- The keys of a leaf and the lengths of what is stored with them. -/
def storedSizes (recs : List (Bytes × Slot)) : List (Bytes × Nat) :=
  recs.map (fun r => (r.1, r.2.stored.length))

/-- The length of what `insert` puts into the record for a value. -/
def storedLen (value : Bytes) : Nat := if value.length > maxInlineValSize then 12 else value.length

/-- Whether every node written fits a page, when a leaf below the given ancestors comes to have
the given records. -/
def leafFits (path : List (List Bytes)) (recs : List (Bytes × Nat)) : Bool :=
  let mid := recs.length / 2
  decide (leafSize recs ≤ pageSize) ||
    (decide (leafSize (recs.take mid) ≤ pageSize) && decide (leafSize (recs.drop mid) ≤ pageSize) &&
      splitsFit path ((recs.drop mid).headD ([], 0)).1)

theorem leafSize_eq (parent next : Option PageId) (recs : List (Bytes × Slot)) :
    (Node.leaf ⟨parent, next, storedRecords recs⟩).encodedSize = leafSize (storedSizes recs) := by
  show leafHeaderSize + ((storedRecords recs).map recordSize).sum = _
  unfold leafSize storedSizes storedRecords
  rw [map_map, map_map]
  rfl

/-! ## A leaf whose page is still to be written -/

section States

variable {h : Nat} {v : PageId → Page}

/-- Apart from the page of one leaf, the pages hold the tree in which that leaf has `recs`. -/
structure Loose (v : PageId → Page) (ctx : PCtx 0 h) (id : PageId) (recs : List (Bytes × Slot)) :
    Prop where
  ctxShaped : ctx.Shaped
  ordered : Ordered (ctx.left ++ ((PlusTree.leaf id recs).inorder ++ ctx.right))
  nodup : (pagesOf (PlusTree.leaf id recs) ++ ctx.owned Slot.pages).Nodup
  ctxCells : ∀ e ∈ ctx.cells id (some id), CellAt v e
  slots : ∀ x ∈ recs, x.2.Holds v
  ctxSlots : SlotsAt v (ctx.leavesL ++ ctx.leavesR)

variable {ctx : PCtx 0 h} {id : PageId} {recs : List (Bytes × Slot)}

theorem slotsAt_leaf : SlotsAt v (PlusTree.leaf id recs).leaves ↔ ∀ x ∈ recs, x.2.Holds v :=
  forall_mem_singleton

theorem Loose.focus {page : Page} (hl : Loose v ctx id recs)
    (hp : CellAt (fun _ => page) (id, .leaf ctx.parent ctx.after recs)) :
    Focus (Function.update v id page) ctx (PlusTree.leaf id recs) := by
  have hnd := hl.nodup
  rw [pagesOf, PlusTree.owned_leaf, cons_append, nodup_cons, mem_append, not_or] at hnd
  have hself := update_notMem (v := v) page hnd.1.1
  have hctx := update_notMem (v := v) page hnd.1.2
  refine ⟨hl.ctxShaped, trivial, hl.ordered, hl.nodup, ?_, ?_, slotsAt_leaf.mpr fun x hx => ?_,
    ctxSlotsAt_congr hl.ctxSlots hctx⟩
  · exact forall_mem_singleton.mpr (cellAt_of_page (Function.update_self ..) hp.1 hp.2)
  · rw [firstOf_leaf]
    exact ctxCellsAt_congr hl.ctxCells hctx
  · exact (hl.slots x hx).congr (fun p hp => hself p (mem_flatMap.mpr ⟨x, hx, hp⟩))

/-- Writing the two halves of the leaf makes it a split, with the first key of the right half as
separator. The left half must not be empty. -/
theorem Loose.split {q : PageId} {A B : List (Bytes × Slot)} {x y : Bytes × Slot}
    {v' : PageId → Page} (hl : Loose v ctx id ((A ++ [x]) ++ y :: B))
    (hq : q ∉ pagesOf (PlusTree.leaf id ((A ++ [x]) ++ y :: B)) ++ ctx.owned Slot.pages)
    (hid : CellAt v' (id, .leaf ctx.parent (some q) (A ++ [x])))
    (hqc : CellAt v' (q, .leaf ctx.parent ctx.after (y :: B)))
    (hsame : ∀ p, p ≠ id → p ≠ q → v' p = v p) :
    Split v' ctx (PlusTree.leaf id (A ++ [x])) y.1 (PlusTree.leaf q (y :: B)) := by
  have hnd := hl.nodup
  rw [pagesOf, PlusTree.owned_leaf, flatMap_append] at hnd hq
  rw [cons_append, append_assoc] at hnd hq
  obtain ⟨hidn, hnd'⟩ := nodup_cons.mp hnd
  have hkeep : ∀ p ∈ (A ++ [x]).flatMap (fun r => r.2.pages) ++
      ((y :: B).flatMap (fun r => r.2.pages) ++ ctx.owned Slot.pages), v' p = v p := fun p hp =>
    hsame p (fun he => hidn (he ▸ hp)) (fun he => hq (he ▸ mem_cons_of_mem _ hp))
  simp only [forall_mem_append] at hkeep
  obtain ⟨hkeepA, hkeepB, hctx⟩ := hkeep
  obtain ⟨hslotsA, hslotsB⟩ := forall_mem_append.mp hl.slots
  refine ⟨hl.ctxShaped, trivial, trivial, ?_, ?_, ?_, forall_mem_singleton.mpr hqc, ?_, ?_, ?_,
    ctxSlotsAt_congr hl.ctxSlots hctx⟩
  · have ho := hl.ordered
    simp only [PlusTree.inorder_leaf, map_append, map_cons, map_nil] at ho ⊢
    have ho' : Ordered (((ctx.left ++ A.map (fun r => Item.rcd r.1 r.2)) ++ [Item.rcd x.1 x.2]) ++
        Item.rcd y.1 y.2 :: (B.map (fun r => Item.rcd r.1 r.2) ++ ctx.right)) := by
      simpa only [append_assoc, cons_append, nil_append] using ho
    have := ordered_insert_sep ho'
    simpa only [append_assoc, cons_append, nil_append] using this
  · rw [pagesOf, pagesOf, PlusTree.owned_leaf, PlusTree.owned_leaf, cons_append, cons_append]
    exact ((List.Perm.cons _ perm_middle).trans (List.Perm.swap ..)).nodup_iff.mpr
      (nodup_cons.mpr ⟨hq, hnd⟩)
  · rw [PlusTree.cells_leaf, firstOf_leaf]
    exact forall_mem_singleton.mpr hid
  · rw [firstOf_leaf]
    exact ctxCellsAt_congr hl.ctxCells hctx
  · exact slotsAt_leaf.mpr fun z hz => (hslotsA z hz).congr fun p hp =>
      hkeepA p (mem_flatMap.mpr ⟨z, hz, hp⟩)
  · exact slotsAt_leaf.mpr fun z hz => (hslotsB z hz).congr fun p hp =>
      hkeepB p (mem_flatMap.mpr ⟨z, hz, hp⟩)

theorem Focus.loose (hf : Focus v ctx (PlusTree.leaf id recs)) : Loose v ctx id recs := by
  refine ⟨hf.ctxShaped, hf.ordered, hf.nodup, ?_, slotsAt_leaf.mp hf.slots, hf.ctxSlots⟩
  have hcells := hf.ctxCells
  rwa [firstOf_leaf] at hcells

theorem Loose.remove {l₁ o l₂ : List (Bytes × Slot)} (hl : Loose v ctx id (l₁ ++ (o ++ l₂))) :
    Loose v ctx id (l₁ ++ l₂) := by
  have hsub : (l₁ ++ l₂).Sublist (l₁ ++ (o ++ l₂)) :=
    (List.Sublist.refl l₁).append (sublist_append_right o l₂)
  refine ⟨hl.ctxShaped, ?_, ?_, hl.ctxCells, fun x hx => hl.slots x (hsub.subset hx), hl.ctxSlots⟩
  · refine List.Pairwise.sublist ?_ hl.ordered
    exact (List.Sublist.refl _).append ((hsub.map _).append (List.Sublist.refl _))
  · refine hl.nodup.sublist (List.Sublist.append ?_ (List.Sublist.refl _))
    exact (hsub.flatMap _).cons_cons id

/-- The pages of some records of a leaf, counted first. -/
theorem leaf_pages_perm (id : PageId) (l₁ m l₂ : List (Bytes × Slot)) (ps : List PageId) :
    (pagesOf (PlusTree.leaf id (l₁ ++ (m ++ l₂))) ++ ps).Perm
      (m.flatMap (fun x => x.2.pages) ++ (pagesOf (PlusTree.leaf id (l₁ ++ l₂)) ++ ps)) := by
  simp only [pagesOf, PlusTree.owned_leaf, flatMap_append, cons_append, append_assoc]
  refine List.Perm.trans (List.Perm.cons _ ?_) perm_middle.symm
  exact perm_append_comm_assoc ..

/-- Putting a record into the leaf, at the place for its key. -/
theorem Loose.add {l₁ l₂ : List (Bytes × Slot)} {key : Bytes} {s : Slot}
    (hl : Loose v ctx id (l₁ ++ l₂)) (hloc : ctx.Located key) (h₁ : AllBelow key l₁)
    (h₂ : AllAbove key l₂) (hs : s.Holds v) (hnd : s.pages.Nodup)
    (hdis : ∀ p ∈ s.pages, p ∉ pagesOf (PlusTree.leaf id (l₁ ++ l₂)) ++ ctx.owned Slot.pages) :
    Loose v ctx id (l₁ ++ (key, s) :: l₂) := by
  refine ⟨hl.ctxShaped, ?_, ?_, hl.ctxCells, ?_, hl.ctxSlots⟩
  · have ho := hl.ordered
    rw [PlusTree.inorder_leaf, map_append, append_assoc] at ho
    rw [PlusTree.inorder_leaf, map_append, map_cons, append_assoc, cons_append]
    obtain ⟨hL, hM, hR, hLM, hLR, hMR⟩ := ordered_mid.mp ho
    -- everything before the new record is below its key, everything after is above
    refine ordered_mid.mpr ⟨hL, hM, pairwise_cons.mpr ⟨fun y hy => ?_, hR⟩, hLM,
      fun x hx => forall_mem_cons.mpr ⟨?_, hLR x hx⟩,
      fun x hx => forall_mem_cons.mpr ⟨?_, hMR x hx⟩⟩
    · rw [Item.rcd_before]
      rcases mem_append.mp hy with hy | hy
      · obtain ⟨r, hr, rfl⟩ := mem_map.mp hy
        exact h₂ r hr
      · exact hloc.2 y hy
    · exact Item.before_rcd.mpr (hloc.1 x hx)
    · obtain ⟨r, hr, rfl⟩ := mem_map.mp hx
      exact Item.before_rcd.mpr (h₁ r hr)
  · have hperm := leaf_pages_perm id l₁ [(key, s)] l₂ (ctx.owned Slot.pages)
    rw [flatMap_singleton, singleton_append] at hperm
    refine hperm.nodup_iff.mpr (nodup_append.mpr ⟨hnd, hl.nodup, fun p hp q hq he => ?_⟩)
    exact hdis p hp (he ▸ hq)
  · obtain ⟨hslots₁, hslots₂⟩ := forall_mem_append.mp hl.slots
    exact forall_mem_append.mpr ⟨hslots₁, forall_mem_cons.mpr ⟨hs, hslots₂⟩⟩

end States

namespace BTree

variable {σ : Type} {S : PageStore σ} {L : S.Laws} {t : BTree σ} {U : Set PageId}
  {v : PageId → Page} {E : Fail → BTree σ → Prop} {d h : Nat}

/-! ## Writing the leaf back -/

/-- The tree that comes out when the leaf in the hole of `ctx` has come to have `recs`. -/
def LeafPost (L : S.Laws) (U : Set PageId) (ctx : PCtx 0 h) (id : PageId)
    (recs : List (Bytes × Slot)) (Q : Unit → BTree σ → Prop) : Prop :=
  ∀ (h' : Nat) (c : PTree h') (fresh : List PageId) v' t', Represents v' c →
    c.records = recordsOf ctx.left ++ (recs ++ recordsOf ctx.right) →
    (∀ p, p ∈ pagesOf c ↔
      p ∈ pagesOf (PlusTree.leaf id recs) ++ ctx.owned Slot.pages ∨ p ∈ fresh) →
    (∀ p ∈ fresh, p ∉ U) → At L t' (U ∪ {p | p ∈ fresh}) v' c.id → Q () t'

theorem leafFits_cut {path : List (List Bytes)} {R₁ R₂ : List (Bytes × Slot)} {y : Bytes × Slot}
    (hmid : (R₁ ++ y :: R₂).length / 2 = R₁.length)
    (hbig : ¬ leafSize (storedSizes (R₁ ++ y :: R₂)) ≤ pageSize) :
    leafFits path (storedSizes (R₁ ++ y :: R₂)) = (decide (leafSize (storedSizes R₁) ≤ pageSize) &&
      decide (leafSize (storedSizes (y :: R₂)) ≤ pageSize) && splitsFit path y.1) := by
  have hlen : (storedSizes (R₁ ++ y :: R₂)).length / 2 = (storedSizes R₁).length := by
    unfold storedSizes; rw [length_map, length_map]; exact hmid
  have happ : storedSizes (R₁ ++ y :: R₂) = storedSizes R₁ ++ storedSizes (y :: R₂) :=
    map_append ..
  unfold leafFits
  rw [decide_eq_false hbig, Bool.false_or, hlen, happ, take_left, drop_left]
  rfl

variable {recs : List (Bytes × Slot)} {Q : Unit → BTree σ → Prop} {fuel : Nat} {value : Bytes}

/-- The split of a leaf that has grown too large. -/
theorem wp_splitLeafAndInsert {ctx : PCtx 0 h} {id : PageId}
    (hat : At L t U v (ctx.plug (PlusTree.leaf id recs)).id) (hE : ∀ t', E .stopped t')
    (hl : Loose v ctx id recs) (hparent : ctx.parent ≠ some u32Max)
    (hafter : ctx.after ≠ some u32Max)
    (hU : ∀ p ∈ pagesOf (PlusTree.leaf id recs) ++ ctx.owned Slot.pages, p ∈ U)
    (hfuel : ctx.depth ≤ fuel) (hlarge : ¬ leafSize (storedSizes recs) ≤ pageSize)
    (hbig : TooLarge E (leafFits ctx.path (storedSizes recs)))
    (hQ : leafFits ctx.path (storedSizes recs) → LeafPost L U ctx id recs Q) :
    (splitLeafAndInsert S fuel id ⟨ctx.parent, ctx.after, storedRecords recs⟩).wp t Q E := by
  have hne : recs ≠ [] := by
    rintro rfl
    exact hlarge (by decide)
  -- cut the records in the middle
  obtain ⟨R₁, y, R₂, rfl, hmid⟩ := cut_middle recs hne
  rw [leafFits_cut hmid hlarge] at hbig hQ
  have hmid' : (storedRecords (R₁ ++ y :: R₂)).length / 2 = (storedRecords R₁).length := by
    unfold storedRecords; rw [length_map, length_map]; exact hmid
  have hright : storedRecords (y :: R₂) = (y.1, y.2.stored) :: storedRecords R₂ := rfl
  unfold splitLeafAndInsert
  dsimp only
  rw [hmid', storedRecords_append, drop_left, take_left, hright]
  rw [← hright]
  refine wp_bind (wp_allocatePage hat hE ?_)
  intro q t₁ page₀ hqU hqmax hat₁
  have hidP : id ∈ pagesOf (PlusTree.leaf id (R₁ ++ y :: R₂)) ++ ctx.owned Slot.pages :=
    mem_append_left _ mem_cons_self
  have hidq : id ≠ q := fun he => hqU (he ▸ hU id hidP)
  have hqne : some q ≠ some u32Max := fun he => hqmax (Option.some.inj he)
  refine wp_bind (wp_writeNode hat₁ hE (Or.inl (hU id hidP)) ⟨hparent, hqne⟩ ?_ ?_)
  · intro t' hno
    rw [leafSize_eq] at hno ⊢
    exact hbig (by simp [hno]) _ t'
  intro pageL t₂ hfitL hpageL hat₂
  refine wp_bind (wp_writeNode hat₂ hE (Or.inr rfl) ⟨hparent, hafter⟩ ?_ ?_)
  · intro t' hno
    rw [leafSize_eq] at hno ⊢
    exact hbig (by simp [hno]) _ t'
  intro pageR t₃ hfitR hpageR hat₃
  -- a single record cannot be split, but then the right half would not have fitted
  have hne : R₁ ≠ [] := by
    rintro rfl
    rw [leafSize_eq] at hfitR
    exact hlarge hfitR
  obtain ⟨A, x, rfl⟩ : ∃ A x, R₁ = A ++ [x] :=
    ⟨R₁.dropLast, R₁.getLast hne, (dropLast_append_getLast hne).symm⟩
  have hsplit : Split (Function.update (Function.update (Function.update v q page₀) id pageL) q
      pageR) ctx (PlusTree.leaf id (A ++ [x])) y.1 (PlusTree.leaf q (y :: R₂)) := by
    refine hl.split (fun hp => hqU (hU q hp)) (cellAt_of_page ?_ hpageL hfitL)
      (cellAt_of_page (Function.update_self ..) hpageR hfitR) fun p hpid hpq => ?_
    · rw [Function.update_of_ne hidq, Function.update_self]
    · rw [Function.update_of_ne hpq, Function.update_of_ne hpid, Function.update_of_ne hpq]
  have hid : (ctx.plug (PlusTree.leaf id (A ++ [x]))).id
      = (ctx.plug (PlusTree.leaf id ((A ++ [x]) ++ y :: R₂))).id := Ctx.plug_id ctx rfl
  have hpages : ∀ p, p ∈ pagesOf (PlusTree.leaf id (A ++ [x])) ++ (pagesOf (PlusTree.leaf q (y :: R₂)) ++
      ctx.owned Slot.pages) ↔ p ∈ pagesOf (PlusTree.leaf id ((A ++ [x]) ++ y :: R₂)) ++
        ctx.owned Slot.pages ∨ p = q := by
    intro p
    simp only [pagesOf, PlusTree.owned_leaf, flatMap_append, mem_append, mem_cons]
    tauto
  rw [leafSize_eq] at hfitL hfitR
  rw [decide_eq_true hfitL, decide_eq_true hfitR, Bool.true_and] at hbig hQ
  refine wp_climb (U := U ∪ {q}) ctx (hid ▸ hat₃) hE hsplit (fun p hp => ((hpages p).mp hp).imp_left (hU p)) hfuel
    (fun hno n t' => hbig (by rw [hno, Bool.true_and]) n t') ?_
  intro hup h' c fresh v'' t₄ hrep hino hpg hfresh hat₄
  refine hQ hup h' c (q :: fresh) v'' t₄ hrep ?_ (fun p => ?_) ?_ ?_
  · rw [PlusTree.records, hino]
    simp only [recordsOf_append, recordsOf_sep, PlusTree.inorder_leaf, recordsOf_rcds,
      append_assoc]
  · rw [hpg p, hpages p, mem_cons, or_assoc]
  · exact forall_mem_cons.mpr ⟨hqU, fun p hp hu => hfresh p hp (Or.inl hu)⟩
  · refine hat₄.congr_pages ?_
    ext p
    simp only [Set.mem_union, Set.mem_ofPred_eq, Set.mem_singleton_iff, mem_cons, or_assoc]

/-- The end of `insert`. -/
theorem wp_writeOrSplitLeaf {ctx : PCtx 0 h} {id : PageId}
    (hat : At L t U v (ctx.plug (PlusTree.leaf id recs)).id) (hE : ∀ t', E .stopped t')
    (hl : Loose v ctx id recs) (hparent : ctx.parent ≠ some u32Max)
    (hafter : ctx.after ≠ some u32Max)
    (hU : ∀ p ∈ pagesOf (PlusTree.leaf id recs) ++ ctx.owned Slot.pages, p ∈ U)
    (hfuel : ctx.depth ≤ fuel) (hbig : TooLarge E (leafFits ctx.path (storedSizes recs)))
    (hQ : leafFits ctx.path (storedSizes recs) → LeafPost L U ctx id recs Q) :
    (writeOrSplitLeaf S fuel id ⟨ctx.parent, ctx.after, storedRecords recs⟩).wp t Q E := by
  unfold writeOrSplitLeaf
  rw [leafSize_eq]
  by_cases hfit : leafSize (storedSizes recs) ≤ pageSize
  · rw [if_neg (Nat.not_lt.mpr hfit)]
    have hidU : id ∈ U := hU id (mem_append_left _ mem_cons_self)
    refine wp_writeNode hat hE hidU ⟨hparent, hafter⟩ (fun t' hno => ?_) ?_
    · rw [leafSize_eq] at hno; exact absurd hfit hno
    · intro page t' hsz hpage hat'
      have hfits : leafFits ctx.path (storedSizes recs) := by
        unfold leafFits
        rw [decide_eq_true hfit, Bool.true_or]
      refine hQ hfits h _ [] _ t' (hl.focus ⟨hpage, hsz⟩).represents ?_ ?_ nofun ?_
      · rw [Ctx.plug_records ctx _ hl.ctxShaped]
        congr 2
        exact recordsOf_rcds recs
      · intro p
        rw [(Ctx.plug_owned Slot.pages ctx _).mem_iff]
        simp
      · exact hat'.congr_pages (by ext p; simp)
  · rw [if_pos (Nat.lt_of_not_le hfit)]
    exact wp_splitLeafAndInsert hat hE hl hparent hafter hU hfuel hfit hbig hQ

/-! ## The whole insertion -/

/-- The record of a key, if there is one, as a piece of the list of records. -/
def recordOf (key : Bytes) (o : Option Slot) : List (Bytes × Slot) := o.toList.map (fun s => (key, s))

/-- The pages of a record that may be missing. -/
def pagesOfOption (o : Option Slot) : List PageId := o.toList.flatMap Slot.pages

theorem recordOf_pages (key : Bytes) (o : Option Slot) :
    (recordOf key o).flatMap (fun x => x.2.pages) = pagesOfOption o := by
  cases o <;> rfl

/-- A leaf around a key. -/
theorem split_leaf (hs : Sorted recs) (key : Bytes) :
    ∃ l₁ o l₂, recs = l₁ ++ (recordOf key o ++ l₂) ∧ AllBelow key l₁ ∧ AllAbove key l₂ ∧
      lookup key recs = o := by
  rcases split_key hs key with ⟨l₁, s, l₂, rfl, h₁, h₂⟩ | ⟨l₁, l₂, rfl, h₁, h₂⟩
  · exact ⟨l₁, some s, l₂, rfl, h₁, h₂, lookup_found h₁⟩
  · exact ⟨l₁, none, l₂, rfl, h₁, h₂, lookup_absent h₁ h₂⟩

section

variable {key : Bytes} {o : Option Slot} {l₁ l₂ : List (Bytes × Slot)}

theorem leaf_searchPos (h₁ : AllBelow key l₁) (h₂ : AllAbove key l₂) :
    searchPos ((storedRecords (l₁ ++ (recordOf key o ++ l₂))).map Prod.fst) key = l₁.length := by
  unfold searchPos
  cases o with
  | none => rw [show recordOf key none ++ l₂ = l₂ from rfl, leaf_binarySearch_absent h₁ h₂]
  | some s =>
    rw [show recordOf key (some s) ++ l₂ = (key, s) :: l₂ from rfl, leaf_binarySearch_found h₁]

theorem upsertAt_eq (h₂ : AllAbove key l₂) (s : Slot) :
    upsertAt (storedRecords (l₁ ++ (recordOf key o ++ l₂))) l₁.length key s.stored
      = storedRecords (l₁ ++ (key, s) :: l₂) := by
  have hlen : l₁.length = (storedRecords l₁).length := by unfold storedRecords; simp
  unfold upsertAt
  cases o with
  | none =>
    have hins : (storedRecords (l₁ ++ l₂)).insertIdx l₁.length (key, s.stored)
        = storedRecords (l₁ ++ (key, s) :: l₂) := by
      rw [storedRecords_append, hlen, insertIdx_length, storedRecords_append]; rfl
    rw [show recordOf key none ++ l₂ = l₂ from rfl, leaf_getElem_absent]
    cases l₂ with
    | nil => exact hins
    | cons x l₂ =>
      have hne : x.1 ≠ key := ne_of_gt (h₂ x mem_cons_self)
      simp only [head?_cons, Option.map_some]
      rw [if_neg hne]
      exact hins
  | some s₀ =>
    rw [show recordOf key (some s₀) ++ l₂ = (key, s₀) :: l₂ from rfl, leaf_getElem_found]
    simp only [if_true]
    rw [storedRecords_append, hlen, set_append_right _ _ (Nat.le_refl _), Nat.sub_self,
      storedRecords_append]
    rfl

/-- The chain of a replaced value is freed. -/
theorem wp_freeReplaced {r : PageId} {fuel : Nat} {Q : Unit → BTree σ → Prop} (hat : At L t U v r)
    (hE : ∀ t', E .stopped t') (h₂ : AllAbove key l₂) (hs : ∀ s ∈ o, s.Holds v ∧ s.Genuine)
    (hnd : (pagesOfOption o).Nodup) (hU : ∀ p ∈ pagesOfOption o, p ∈ U)
    (hfuel : (pagesOfOption o).length ≤ fuel)
    (hQ : ∀ t', At L t' (U \ {p | p ∈ pagesOfOption o}) v r → Q () t') :
    (freeReplaced S fuel (storedRecords (l₁ ++ (recordOf key o ++ l₂))) l₁.length key).wp t Q E := by
  unfold freeReplaced
  cases o with
  | none =>
    have hQ' := hQ t (hat.congr_pages (by ext p; simp [pagesOfOption]))
    rw [show recordOf key none ++ l₂ = l₂ from rfl, leaf_getElem_absent]
    cases l₂ with
    | nil => exact wp_pure hQ'
    | cons x l₂ =>
      have hne : x.1 ≠ key := ne_of_gt (h₂ x mem_cons_self)
      simp only [head?_cons, Option.map_some]
      rw [if_neg hne]
      exact wp_pure hQ'
  | some s =>
    have hpages : pagesOfOption (some s) = s.pages := by simp [pagesOfOption]
    rw [hpages] at hnd hU hfuel hQ
    rw [show recordOf key (some s) ++ l₂ = (key, s) :: l₂ from rfl, leaf_getElem_found]
    simp only [if_true]
    obtain ⟨hh, hg⟩ := hs s rfl
    exact wp_freeOverflowChain hat hE hh hg hnd hU hfuel hQ

end

/-- The tree over the store is `c`; the pages of `K` are in use besides. -/
def HoldsTree (L : S.Laws) (t : BTree σ) (K : Set PageId) (c : PTree d) : Prop :=
  ∃ v, At L t ({p | p ∈ pagesOf c} ∪ K) v c.id ∧ Represents v c ∧ ∀ p ∈ pagesOf c, p ∉ K

/-- The slot `insert` makes for a value. -/
def SlotFor (value : Bytes) (s : Slot) : Prop :=
  (value.length ≤ maxInlineValSize ∧ s = .inline value) ∨
    (maxInlineValSize < value.length ∧ ∃ chain, s = .overflow value chain)

theorem SlotFor.value_eq {s : Slot} (h : SlotFor value s) : s.value = value := by
  rcases h with ⟨_, rfl⟩ | ⟨_, chain, rfl⟩
  · rfl
  · rfl

theorem SlotFor.stored_length {s : Slot} (h : SlotFor value s) :
    s.stored.length = storedLen value := by
  unfold storedLen
  rcases h with ⟨hle, rfl⟩ | ⟨hlt, chain, rfl⟩
  · rw [if_neg (Nat.not_lt.mpr hle)]; rfl
  · rw [if_pos hlt]
    simp [Slot.stored, overflowHandle, overflowMagic]

section

variable {K : Set PageId} {c : PTree d} {ctx : PCtx 0 d} {id : PageId} {key : Bytes}
  {o : Option Slot} {l₁ l₂ : List (Bytes × Slot)}

/-- What the leaf and its surroundings occupy without the record of the key. -/
theorem mem_pages_without (hf : Focus v ctx (PlusTree.leaf id (l₁ ++ (recordOf key o ++ l₂))))
    (hplug : ctx.plug (PlusTree.leaf id (l₁ ++ (recordOf key o ++ l₂))) = c) (p : PageId) :
    p ∈ pagesOf (PlusTree.leaf id (l₁ ++ l₂)) ++ ctx.owned Slot.pages ↔
      p ∈ pagesOf c ∧ p ∉ pagesOfOption o := by
  have hperm := leaf_pages_perm id l₁ (recordOf key o) l₂ (ctx.owned Slot.pages)
  rw [recordOf_pages] at hperm
  have hdis := (nodup_append.mp (hperm.nodup_iff.mp hf.nodup)).2.2
  rw [← hplug, (Ctx.plug_owned Slot.pages ctx _).mem_iff, hperm.mem_iff]
  constructor
  · exact fun hp => ⟨mem_append_right _ hp, fun hpo => hdis p hpo p hp rfl⟩
  · rintro ⟨hp, hno⟩
    rcases mem_append.mp hp with hp | hp
    · exact absurd hp hno
    · exact hp

/-- The same with a new record in its place. -/
theorem mem_pages_with (hf : Focus v ctx (PlusTree.leaf id (l₁ ++ (recordOf key o ++ l₂))))
    (hplug : ctx.plug (PlusTree.leaf id (l₁ ++ (recordOf key o ++ l₂))) = c) (s : Slot) (p : PageId) :
    p ∈ pagesOf (PlusTree.leaf id (l₁ ++ (key, s) :: l₂)) ++ ctx.owned Slot.pages ↔
      p ∈ s.pages ∨ (p ∈ pagesOf c ∧ p ∉ pagesOfOption o) := by
  have hperm := leaf_pages_perm id l₁ [(key, s)] l₂ (ctx.owned Slot.pages)
  rw [flatMap_singleton, singleton_append] at hperm
  rw [hperm.mem_iff, mem_append, mem_pages_without hf hplug p]

/-- The chain of the record of the key is part of the tree. -/
theorem pagesOfOption_sublist (hs : c.Shaped) (hlook : lookup key c.records = o) :
    (pagesOfOption o).Sublist (pagesOf c) := by
  cases o with
  | none => exact nil_sublist _
  | some s₀ =>
    have hp : pagesOfOption (some s₀) = s₀.pages := by simp [pagesOfOption]
    rw [hp]
    exact record_sublist hs (mem_of_lookup hlook)

theorem upsert_leaf (h₁ : AllBelow key l₁) (h₂ : AllAbove key l₂) (s : Slot) :
    upsert key s (l₁ ++ (recordOf key o ++ l₂)) = l₁ ++ (key, s) :: l₂ := by
  cases o with
  | none => exact upsert_absent h₁ h₂
  | some s₀ => exact upsert_found h₁

/-- The state in which an insertion puts the record into its leaf: the new value is stored, the
chain of the old one is free, and the leaf is still to be written. -/
structure Putting (L : S.Laws) (K : Set PageId) (c : PTree d) (key value : Bytes) (ctx : PCtx 0 d)
    (id : PageId) (l₁ : List (Bytes × Slot)) (o : Option Slot) (l₂ : List (Bytes × Slot)) (s : Slot)
    (v : PageId → Page) (t : BTree σ) : Prop where
  pages : At L t ((({p | p ∈ pagesOf c} ∪ K) ∪ {p | p ∈ s.pages}) \ {p | p ∈ pagesOfOption o}) v c.id
  apart : ∀ p ∈ pagesOf c, p ∉ K
  holds : Represents v c
  focus : Focus v ctx (PlusTree.leaf id (l₁ ++ (recordOf key o ++ l₂)))
  plug : ctx.plug (PlusTree.leaf id (l₁ ++ (recordOf key o ++ l₂))) = c
  located : ctx.Located key
  below : AllBelow key l₁
  above : AllAbove key l₂
  old : lookup key c.records = o
  slot : SlotFor value s
  stored : s.Holds v
  nodup : s.pages.Nodup
  fresh : ∀ p ∈ s.pages, p ∉ pagesOf c ∧ p ∉ K

variable {value : Bytes}

/-- The sizes of the records the leaf comes to have. -/
theorem Putting.sizes {s : Slot} (hp : Putting L K c key value ctx id l₁ o l₂ s v t) :
    storedSizes (l₁ ++ (key, s) :: l₂)
      = upsert key (storedLen value) (storedSizes (l₁ ++ (recordOf key o ++ l₂))) := by
  rw [← upsert_leaf hp.below hp.above s, ← hp.slot.stored_length]
  exact upsert_map (fun x : Slot => x.stored.length) key s _

/-- Everything an insertion does before it puts the record into its leaf. -/
theorem wp_insert_put {fuel : Nat} {Q : Unit → BTree σ → Prop} (ht : HoldsTree L t K c)
    (hE : ∀ t', E .stopped t') (hkey : key.length ≤ maxKeySize)
    (hold : ∀ s ∈ lookup key c.records, s.Genuine) (hfuel : (pagesOf c).length ≤ fuel)
    (hput : ∀ ctx id l₁ o l₂ s v t', Putting L K c key value ctx id l₁ o l₂ s v t' →
      (writeOrSplitLeaf S fuel id
        ⟨ctx.parent, ctx.after, storedRecords (l₁ ++ (key, s) :: l₂)⟩).wp t' Q E) :
    (insert S fuel key value).wp t Q E := by
  obtain ⟨v, hat, hrep, hK⟩ := ht
  have hd := height_lt hrep.shaped
  unfold insert
  rw [if_neg (Nat.not_lt.mpr hkey)]
  -- the value
  refine wp_bind (wp_storedForm hat hE ?_)
  intro s v₁ t₁ hval hholds hsnd hfresh hsame hat₁ hin hov
  have hslot : SlotFor value s := by
    rcases Nat.lt_or_ge maxInlineValSize value.length with hlt | hge
    · exact Or.inr ⟨hlt, hov hlt⟩
    · exact Or.inl ⟨hge, hin hge⟩
  have hrep₁ : Represents v₁ c := hrep.congr (fun p hp => hsame p (Or.inl hp))
  -- the leaf
  refine wp_bind (wp_findLeaf hat₁ hE hrep₁ (fun p hp => Or.inl (Or.inl hp)) (by omega) ?_)
  intro ctx id recs t₂ hplug hf hloc hat₂
  obtain ⟨l₁, o, l₂, hrecs, h₁, h₂, hlook⟩ := split_leaf (leaf_sorted hf) key
  subst hrecs
  have hlookc : lookup key c.records = o := by
    rw [← hplug, lookup_leaf hf.ctxShaped hloc, hlook]
  have hosub := pagesOfOption_sublist hrep.shaped hlookc
  dsimp only
  rw [leaf_searchPos h₁ h₂]
  -- the chain of the old value, then the leaf
  refine wp_bind (wp_freeReplaced hat₂ hE h₂ ?_ (hrep.nodup.sublist hosub)
    (fun p hp => Or.inl (Or.inl (hosub.subset hp))) (hosub.length_le.trans hfuel) ?_)
  · intro s₀ hs₀
    rw [Option.mem_def] at hs₀
    subst hs₀
    exact ⟨record_holds hrep₁ (mem_of_lookup hlookc), hold s₀ hlookc⟩
  · intro t₃ hat₃
    rw [upsertAt_eq h₂]
    exact hput ctx id l₁ o l₂ s v₁ t₃ ⟨hat₃, hK, hrep₁, hf, hplug, hloc, h₁, h₂, hlookc, hslot, hholds,
      hsnd, fun p hp => ⟨fun hc => hfresh p hp (Or.inl hc), fun hk => hfresh p hp (Or.inr hk)⟩⟩

/-- The last part of an insertion. -/
theorem wp_putRecord {s : Slot} {fuel : Nat} {Q : Unit → BTree σ → Prop}
    (hp : Putting L K c key value ctx id l₁ o l₂ s v t) (hE : ∀ t', E .stopped t')
    (hfuel : d ≤ fuel) (hbig : TooLarge E (leafFits ctx.path (upsert key (storedLen value)
      (storedSizes (l₁ ++ (recordOf key o ++ l₂))))))
    (hQ : leafFits ctx.path (upsert key (storedLen value)
        (storedSizes (l₁ ++ (recordOf key o ++ l₂)))) →
      ∀ (h' : Nat) (c' : PTree h') s t', HoldsTree L t' K c' → SlotFor value s →
        c'.records = upsert key s c.records → Q () t') :
    (writeOrSplitLeaf S fuel id
      ⟨ctx.parent, ctx.after, storedRecords (l₁ ++ (key, s) :: l₂)⟩).wp t Q E := by
  have hsizes := hp.sizes
  obtain ⟨hat, hK, hrep, hf, hplug, hloc, h₁, h₂, hold, hslot, hs, hnd, hfresh⟩ := hp
  have hosub := pagesOfOption_sublist hrep.shaped hold
  have hnew := mem_pages_with hf hplug s
  have hcell := (hf.cells _ mem_cons_self).1
  obtain ⟨hparent, hafter⟩ := Node.fromPage_pointers hcell
  have hso : ∀ p ∈ s.pages, p ∉ pagesOfOption o := fun p hp hpo =>
    (hfresh p hp).1 (hosub.subset hpo)
  have hKo : ∀ p ∈ K, p ∉ pagesOfOption o := fun p hk hpo => hK p (hosub.subset hpo) hk
  have hloose : Loose v ctx id (l₁ ++ (key, s) :: l₂) := by
    refine hf.loose.remove.add hloc h₁ h₂ hs hnd (fun p hp hm => ?_)
    exact (hfresh p hp).1 ((mem_pages_without hf hplug p).mp hm).1
  have hid : c.id = (ctx.plug (PlusTree.leaf id (l₁ ++ (key, s) :: l₂))).id := by
    rw [← hplug]; exact Ctx.plug_id ctx rfl
  have hdepth := ctx.depth_eq
  rw [hid] at hat
  rw [← hsizes] at hbig hQ
  refine wp_writeOrSplitLeaf hat hE hloose hparent hafter (fun p hp => ?_) (by omega) hbig ?_
  · rcases (hnew p).mp hp with hp | ⟨hp, hno⟩
    · exact ⟨Or.inr hp, hso p hp⟩
    · exact ⟨Or.inl (Or.inl hp), hno⟩
  · intro hfits h' c' fresh v' t' hrep' hrec' hpg hfr hat'
    refine hQ hfits h' c' s t' ⟨v', hat'.congr_pages ?_, hrep', fun p hp hk => ?_⟩ hslot ?_
    · ext p
      have h₁ := hso p
      have h₂ := hKo p
      simp only [Set.mem_union, Set.mem_sdiff, Set.mem_ofPred_eq, hpg p, hnew p]
      tauto
    · rcases (hpg p).mp hp with hp | hp
      · rcases (hnew p).mp hp with hp | ⟨hp, _⟩
        · exact (hfresh p hp).2 hk
        · exact hK p hp hk
      · exact hfr p hp ⟨Or.inl (Or.inr hk), hKo p hk⟩
    · have hrecs : (PlusTree.leaf id (l₁ ++ (recordOf key o ++ l₂))).records
          = l₁ ++ (recordOf key o ++ l₂) := recordsOf_rcds _
      rw [hrec', ← hplug, Ctx.plug_records ctx _ hf.ctxShaped, hrecs,
        upsert_mid (allBelow_recordsOf hloc.1) (allAbove_recordsOf hloc.2), upsert_leaf h₁ h₂]

end

/-- **Insertion.** A run that is not stopped ends with one binding changed if every half of a split
fits, and with the error of an oversized node if some half does not. -/
theorem wp_insert {K : Set PageId} {c : PTree d} {key : Bytes} (ht : HoldsTree L t K c)
    (hE : ∀ t', E .stopped t') (hkey : key.length ≤ maxKeySize)
    (hold : ∀ s ∈ lookup key c.records, s.Genuine) (hfuel : (pagesOf c).length ≤ fuel)
    (hbig : ∀ (ctx : PCtx 0 d) id recs, ctx.Shaped → ctx.plug (PlusTree.leaf id recs) = c →
      ctx.Located key →
      TooLarge E (leafFits ctx.path (upsert key (storedLen value) (storedSizes recs))))
    (hQ : ∀ (ctx : PCtx 0 d) id recs, ctx.Shaped → ctx.plug (PlusTree.leaf id recs) = c →
      ctx.Located key →
      leafFits ctx.path (upsert key (storedLen value) (storedSizes recs)) →
      ∀ (h' : Nat) (c' : PTree h') s t', HoldsTree L t' K c' → SlotFor value s →
        c'.records = upsert key s c.records → Q () t') : (insert S fuel key value).wp t Q E := by
  have hd : d < (pagesOf c).length := by
    obtain ⟨_, _, hrep, _⟩ := ht
    exact height_lt hrep.shaped
  refine wp_insert_put ht hE hkey hold hfuel (fun ctx id l₁ o l₂ s v t' hp => ?_)
  have hs := hp.focus.ctxShaped
  exact wp_putRecord hp hE (by omega) (hbig ctx id _ hs hp.plug hp.located)
    (hQ ctx id _ hs hp.plug hp.located)

/-- An insertion that returns has changed one binding; how else it may end is left open. -/
theorem wp_insert_any {K : Set PageId} {c : PTree d} {key : Bytes} (ht : HoldsTree L t K c)
    (hkey : key.length ≤ maxKeySize) (hold : ∀ s ∈ lookup key c.records, s.Genuine)
    (hfuel : (pagesOf c).length ≤ fuel) :
    (insert S fuel key value).wp t (fun _ t' => ∃ (h : Nat) (c' : PTree h) (s : Slot),
      HoldsTree L t' K c' ∧ SlotFor value s ∧ c'.records = upsert key s c.records)
      (fun _ _ => True) :=
  wp_insert ht (fun _ => trivial) hkey hold hfuel (fun _ _ _ _ _ _ _ _ _ => trivial)
    (fun _ _ _ _ _ _ _ h c' s _ h₁ h₂ h₃ => ⟨h, c', s, h₁, h₂, h₃⟩)

/-- A successful insertion had a key within the limit. -/
theorem key_le_of_insert_ok {key : Bytes} {t t' : BTree σ}
    (hrun : insert S fuel key value t = (.ok (), t')) : key.length ≤ maxKeySize := by
  by_contra hkey
  unfold insert at hrun
  rw [if_pos (Nat.lt_of_not_le hkey)] at hrun
  injection hrun with hrun _
  exact absurd hrun (by simp)

/-- More fuel does not change a run that returned. -/
theorem insert_more_fuel {fuel' : Nat} {key : Bytes} {t t' : BTree σ}
    (hrun : insert S fuel key value t = (.ok (), t')) (hle : fuel ≤ fuel') :
    insert S fuel' key value t = (.ok (), t') := by
  rw [← hrun]
  refine ((insert_agrees (.refl S) hle key value).eq_of_not (fun e _ he => ?_)).symm
  rw [hrun] at he
  exact absurd he (by simp)

end BTree

end MagnumDB
