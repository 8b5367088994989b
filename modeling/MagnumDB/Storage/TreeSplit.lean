import MagnumDB.Storage.TreeSearch

/-!
# Splitting nodes

When a leaf has been split there are two neighbouring subtrees where the node above
expects one, and a separator that belongs between them: `Split`. The functions
`insert_into_internal`, `split_internal_and_insert` and the creation of a new root
bring the tree back in order. Going up one level either absorbs the separator
or splits the node, which is the same situation one level higher.

An internal split does not change the in-order traversal of the tree at all: the
separator that moves up stays where it was. So nothing about the order of keys has
to be proved again on the way.
-/

namespace MagnumDB

open BPlus Prog List

/-! ## When halves fit -/

/-- Bytes an internal node with these separators takes. -/
def innerSize (keys : List Bytes) : Nat :=
  internalHeaderSize + (keys.length + 1) * 4 + (keys.map keySize).sum

/-- Whether every node written on the way up fits a page, when separator `k` arrives at a node
with the given ancestors' separators, nearest first. -/
def splitsFit : List (List Bytes) → Bytes → Bool
  | [], k => decide (innerSize [k] ≤ pageSize)
  | keys :: up, k =>
    let keys := keys.insertIdx (searchPos keys k) k
    let mid := keys.length / 2
    decide (innerSize keys ≤ pageSize) ||
      (decide (innerSize (keys.take mid) ≤ pageSize) &&
        decide (innerSize (keys.drop (mid + 1)) ≤ pageSize) && splitsFit up (keys.getD mid []))

theorem innerSize_eq {i : InternalNode} (h : i.children.length = i.keys.length + 1) :
    (Node.internal i).encodedSize = innerSize i.keys := by
  show internalHeaderSize + i.children.length * 4 + (i.keys.map keySize).sum = _
  rw [h]
  rfl

theorem encodedSize_setParent (n : Node) (id : PageId) :
    (n.setParent id).encodedSize = n.encodedSize := by
  cases n <;> rfl

theorem nodeOf_setParent (c : Cell PageId Bytes Slot) (id : PageId) :
    (nodeOf c).setParent id = nodeOf (c.setParent id) := by
  cases c <;> rfl

theorem cellAt_of_page {v : PageId → Page} {id : PageId} {c : Cell PageId Bytes Slot} {page : Page}
    (hv : v id = page) (hpage : Node.fromPage page = .ok (nodeOf c))
    (hfit : (nodeOf c).encodedSize ≤ pageSize) : CellAt v (id, c) := by
  subst hv
  exact ⟨hpage, hfit⟩

/-! ## Two subtrees for one -/

section States

variable {d h : Nat}

/-- In the hole of the context there are two subtrees, to be separated by `k`. -/
structure Split (v : PageId → Page) (ctx : PCtx d h) (l : PTree d) (k : Bytes) (r : PTree d) :
    Prop where
  ctxShaped : ctx.Shaped
  lShaped : l.Shaped
  rShaped : r.Shaped
  ordered : Ordered (ctx.left ++ ((l.inorder ++ Item.sep k :: r.inorder) ++ ctx.right))
  nodup : (pagesOf l ++ (pagesOf r ++ ctx.owned Slot.pages)).Nodup
  lCells : ∀ e ∈ PlusTree.cells ctx.parent (firstOf [r] ctx.after) l, CellAt v e
  rCells : ∀ e ∈ PlusTree.cells ctx.parent ctx.after r, CellAt v e
  ctxCells : ∀ e ∈ ctx.cells l.id (firstOf [l] ctx.after), CellAt v e
  lSlots : SlotsAt v l.leaves
  rSlots : SlotsAt v r.leaves
  ctxSlots : SlotsAt v (ctx.leavesL ++ ctx.leavesR)

/-- In the hole of the context there is an inner node, not yet written, over children that are
all in order. -/
structure Wide (v : PageId → Page) (up : PCtx (d + 1) h) (i : PageId) (keys : List Bytes)
    (kids : List (PTree d)) : Prop where
  ctxShaped : up.Shaped
  shaped : (PlusTree.node i keys kids).Shaped
  ordered : Ordered (up.left ++ ((PlusTree.node i keys kids).inorder ++ up.right))
  nodup : (pagesOf (PlusTree.node i keys kids) ++ up.owned Slot.pages).Nodup
  row : ∀ e ∈ PlusTree.row (some i) up.after kids, CellAt v e
  ctxCells : ∀ e ∈ up.cells i (firstOf kids up.after), CellAt v e
  slots : SlotsAt v (PlusTree.node i keys kids).leaves
  ctxSlots : SlotsAt v (up.leavesL ++ up.leavesR)

variable {v : PageId → Page}

/-- The pages of a split below a frame, counted as the pages of the node with both subtrees. -/
theorem pages_split_perm (up : PCtx (d + 1) h) (i : PageId) (ks₁ ks₂ keys : List Bytes)
    (cs₁ cs₂ : List (PTree d)) (l r : PTree d) :
    (pagesOf (PlusTree.node i keys (cs₁ ++ l :: r :: cs₂)) ++ up.owned Slot.pages).Perm
      (pagesOf l ++ (pagesOf r ++ (Ctx.frame i ks₁ cs₁ ks₂ cs₂ up).owned Slot.pages)) := by
  rw [pagesOf, PlusTree.owned_node, flatMap_append, flatMap_cons, flatMap_cons,
    Ctx.owned, cons_append]
  refine List.Perm.trans ?_ (List.Perm.append_left _ perm_middle.symm)
  refine List.Perm.trans ?_ perm_middle.symm
  refine List.Perm.cons _ ?_
  simp only [append_assoc]
  refine (perm_append_comm_assoc ..).trans (List.Perm.append_left _ ?_)
  exact perm_append_comm_assoc ..

variable {up : PCtx (d + 1) h} {i : PageId} {k : Bytes} {v' : PageId → Page}

/-- A split below a frame is a wide node in place of the frame. -/
theorem Split.wide {ks₁ ks₂ : List Bytes} {cs₁ cs₂ : List (PTree d)} {l r : PTree d}
    (hs : Split v (Ctx.frame i ks₁ cs₁ ks₂ cs₂ up) l k r) :
    Wide v up i (ks₁ ++ k :: ks₂) (cs₁ ++ l :: r :: cs₂) := by
  obtain ⟨h1, h2, hc1, hc2, hup⟩ := hs.ctxShaped
  have hcells := hs.ctxCells
  rw [Ctx.cells, forall_mem_cons, forall_mem_append, forall_mem_append] at hcells
  obtain ⟨-, hleft, hright, habove⟩ := hcells
  have hslots := hs.ctxSlots
  rw [Ctx.leavesL, Ctx.leavesR, SlotsAt.append_iff, SlotsAt.append_iff, SlotsAt.append_iff] at hslots
  obtain ⟨⟨hslotsL, hslots₁⟩, hslots₂, hslotsR⟩ := hslots
  have hfirst : firstOf (l :: r :: cs₂) up.after
      = firstOf [l] (Ctx.frame i ks₁ cs₁ ks₂ cs₂ up).after :=
    firstOf_shaped hs.lShaped _ _ _
  have hnext : firstOf (r :: cs₂) up.after
      = firstOf [r] (Ctx.frame i ks₁ cs₁ ks₂ cs₂ up).after :=
    firstOf_shaped hs.rShaped _ _ _
  refine ⟨hup, PlusTree.shaped_node.mpr ⟨?_, ?_⟩, ?_, ?_, ?_, ?_, ?_,
    SlotsAt.append_iff.mpr ⟨hslotsL, hslotsR⟩⟩
  · simp only [length_append, length_cons]; omega
  · simp only [forall_mem_append, forall_mem_cons]
    exact ⟨hc1, hs.lShaped, hs.rShaped, hc2⟩
  · have ho := hs.ordered
    rw [PlusTree.inorder_node, weave_split (k :: ks₂) l (r :: cs₂) h1, weaveR]
    simpa only [Ctx.left, Ctx.right, append_assoc, cons_append] using ho
  · exact (pages_split_perm up i ks₁ ks₂ _ cs₁ cs₂ l r).nodup_iff.mpr hs.nodup
  · -- the children: those to the left, the two new ones, those to the right
    rw [PlusTree.row_append, PlusTree.row_cons, PlusTree.row_cons, hfirst, hnext]
    simp only [forall_mem_append]
    exact ⟨hleft, hs.lCells, hs.rCells, hright⟩
  · rwa [firstOf_append, hfirst]
  · rw [PlusTree.leaves_node, flatMap_append, flatMap_cons, flatMap_cons]
    simp only [SlotsAt.append_iff]
    exact ⟨hslots₁, hs.lSlots, hs.rSlots, hslots₂⟩

theorem rowSlotsAt_congr {cs : List (PTree d)} (hs : SlotsAt v (cs.flatMap PlusTree.leaves))
    (hv : ∀ p ∈ cs.flatMap (PlusTree.owned Slot.pages), v' p = v p) :
    SlotsAt v' (cs.flatMap PlusTree.leaves) := by
  intro l hl x hx
  refine (hs l hl x hx).congr fun p hp => hv p ?_
  obtain ⟨c, hc, hlc⟩ := mem_flatMap.mp hl
  exact mem_flatMap.mpr ⟨c, hc, c.record_owned Slot.pages hlc hx hp⟩

/-- The roots of a row of subtrees are among its pages. -/
theorem ids_owned {cs : List (PTree d)} :
    ∀ p ∈ cs.map PlusTree.id, p ∈ cs.flatMap (PlusTree.owned Slot.pages) :=
  forall_mem_map.mpr fun c hc => mem_flatMap.mpr ⟨c, hc, PlusTree.id_mem_owned _ c⟩

/-- Writing the wide node itself completes the tree. -/
theorem Wide.focus {keys : List Bytes} {kids : List (PTree d)} (hw : Wide v up i keys kids)
    {page : Page} (hp : CellAt (fun _ => page) (i, .inner up.parent keys (kids.map PlusTree.id))) :
    Focus (Function.update v i page) up (PlusTree.node i keys kids) := by
  have hnd := hw.nodup
  rw [pagesOf, PlusTree.owned_node, cons_append, nodup_cons, mem_append, not_or] at hnd
  have hrow := update_notMem (v := v) page hnd.1.1
  have hup := update_notMem (v := v) page hnd.1.2
  refine ⟨hw.ctxShaped, hw.shaped, hw.ordered, hw.nodup, ?_, ?_, rowSlotsAt_congr hw.slots hrow,
    ctxSlotsAt_congr hw.ctxSlots hup⟩
  · rw [PlusTree.cells_node]
    refine forall_mem_cons.mpr ⟨cellAt_of_page (Function.update_self ..) hp.1 hp.2, fun e he => ?_⟩
    exact (hw.row e he).congr (hrow e.1 (PlusTree.row_owned Slot.pages he))
  · rw [firstOf_node]
    exact ctxCellsAt_congr hw.ctxCells hup

/-- Cutting the wide node in two, once both halves are written and the children of the right
half point to it. -/
theorem Wide.split {q : PageId} {keys₁ keys₂ : List Bytes} {m : Bytes}
    {kids₁ kids₂ : List (PTree d)} (hw : Wide v up i (keys₁ ++ m :: keys₂) (kids₁ ++ kids₂))
    (hlen₁ : kids₁.length = keys₁.length + 1) (hlen₂ : kids₂.length = keys₂.length + 1)
    (hq : q ∉ pagesOf (PlusTree.node i (keys₁ ++ m :: keys₂) (kids₁ ++ kids₂)) ++ up.owned Slot.pages)
    (hi : CellAt v' (i, .inner up.parent keys₁ (kids₁.map PlusTree.id)))
    (hqc : CellAt v' (q, .inner up.parent keys₂ (kids₂.map PlusTree.id)))
    (hrow : ∀ e ∈ PlusTree.row (some q) up.after kids₂, CellAt v' e)
    (hsame : ∀ p, p ≠ i → p ≠ q → p ∉ kids₂.map PlusTree.id → v' p = v p)
    (hslots : SlotsAt v' (kids₂.flatMap PlusTree.leaves)) :
    Split v' up (PlusTree.node i keys₁ kids₁) m (PlusTree.node q keys₂ kids₂) := by
  obtain ⟨-, hkids⟩ := PlusTree.shaped_node.mp hw.shaped
  obtain ⟨hkids₁, hkids₂⟩ := forall_mem_append.mp hkids
  have hnd := hw.nodup
  have hwrow := hw.row
  have hwslots := hw.slots
  rw [PlusTree.row_append, forall_mem_append] at hwrow
  rw [PlusTree.leaves_node, flatMap_append, SlotsAt.append_iff] at hwslots
  rw [pagesOf, PlusTree.owned_node, flatMap_append] at hnd hq
  -- pages that are not touched: the left children and everything above
  rw [cons_append, nodup_cons, append_assoc] at hnd
  obtain ⟨hi', hnd'⟩ := hnd
  obtain ⟨-, hnd₂, hdis₁⟩ := nodup_append.mp hnd'
  obtain ⟨-, -, hdis₂⟩ := nodup_append.mp hnd₂
  simp only [cons_append, append_assoc, mem_cons, mem_append, not_or] at hq hi'
  have hleft : ∀ p ∈ kids₁.flatMap (PlusTree.owned Slot.pages), v' p = v p := by
    intro p hp
    refine hsame p (fun he => hi'.1 (he ▸ hp)) (fun he => hq.2.1 (he ▸ hp)) (fun hm => ?_)
    exact hdis₁ p hp p (mem_append_left _ (ids_owned p hm)) rfl
  have hup : ∀ p ∈ up.owned Slot.pages, v' p = v p := by
    intro p hp
    refine hsame p (fun he => hi'.2.2 (he ▸ hp)) (fun he => hq.2.2.2 (he ▸ hp)) (fun hm => ?_)
    exact hdis₂ p (ids_owned p hm) p hp rfl
  refine ⟨hw.ctxShaped, PlusTree.shaped_node.mpr ⟨hlen₁, hkids₁⟩,
    PlusTree.shaped_node.mpr ⟨hlen₂, hkids₂⟩, ?_, ?_, ?_, ?_, ?_, rowSlotsAt_congr hwslots.1 hleft, hslots,
    ctxSlotsAt_congr hw.ctxSlots hup⟩
  · have ho := hw.ordered
    rwa [PlusTree.inorder_node, weave_cut hlen₁ (by rintro rfl; simp at hlen₂)] at ho
  · rw [pagesOf, pagesOf, PlusTree.owned_node, PlusTree.owned_node, cons_append, cons_append]
    refine ((List.Perm.cons _ perm_middle).trans (List.Perm.swap ..)).nodup_iff.mpr
      (nodup_cons.mpr ⟨?_, nodup_cons.mpr ⟨?_, hnd'⟩⟩)
    · simp only [mem_cons, mem_append, not_or]
      exact hq
    · simp only [mem_append, not_or]
      exact hi'
  · rw [PlusTree.cells_node, firstOf_node]
    refine forall_mem_cons.mpr ⟨hi, fun e he => ?_⟩
    exact (hwrow.1 e he).congr (hleft e.1 (PlusTree.row_owned Slot.pages he))
  · rw [PlusTree.cells_node]
    exact forall_mem_cons.mpr ⟨hqc, hrow⟩
  · have hfirst : firstOf [PlusTree.node i keys₁ kids₁] up.after = firstOf (kids₁ ++ kids₂) up.after := by
      cases kids₁ with
      | nil => exact absurd hlen₁ (by simp)
      | cons c cs =>
        have hc : c.Shaped := hkids₁ c mem_cons_self
        rw [firstOf_node, cons_append]
        exact (firstOf_shaped hc cs _ none).trans (firstOf_shaped hc _ _ none).symm
    rw [hfirst]
    exact ctxCellsAt_congr hw.ctxCells hup

/-- Two subtrees at the top, once a root over them is written and they point to it. -/
theorem Split.newRoot {l r : PTree d} {q : PageId} (hs : Split v (Ctx.top : PCtx d d) l k r)
    (hq : q ∉ pagesOf l ++ pagesOf r) (hqc : CellAt v' (q, .inner none [k] [l.id, r.id]))
    (hl : ∀ e ∈ PlusTree.cells (some q) (firstOf [r] none) l, CellAt v' e)
    (hr : ∀ e ∈ PlusTree.cells (some q) none r, CellAt v' e)
    (hsame : ∀ p, p ≠ q → p ≠ l.id → p ≠ r.id → v' p = v p) :
    Represents v' (PlusTree.node q [k] [l, r]) := by
  have hnd := hs.nodup
  rw [Ctx.owned, append_nil] at hnd
  obtain ⟨hndl, hndr, hdis⟩ := nodup_append.mp hnd
  refine ⟨?_, ?_, ?_, ?_, ?_⟩
  · exact PlusTree.shaped_node.mpr ⟨rfl, by simpa using ⟨hs.lShaped, hs.rShaped⟩⟩
  · have ho := hs.ordered
    simpa [weave, weaveR, Ctx.left, Ctx.right] using ho
  · rw [pagesOf, PlusTree.owned_node]
    simp only [flatMap_cons, flatMap_nil, append_nil]
    exact nodup_cons.mpr ⟨hq, hnd⟩
  · rw [PlusTree.cells_node, PlusTree.row_cons, PlusTree.row_cons]
    simp only [forall_mem_cons, forall_mem_append]
    exact ⟨hqc, hl, hr, fun _ he => by cases he⟩
  · rw [PlusTree.leaves_node]
    simp only [flatMap_cons, flatMap_nil, append_nil]
    rw [mem_append, not_or] at hq
    -- chains are on pages of their own, so the three writes did not touch them
    refine SlotsAt.append_iff.mpr ⟨fun x hx y hy => ?_, fun x hx y hy => ?_⟩
    · refine (hs.lSlots x hx y hy).congr (fun p hp => ?_)
      have hpl := l.record_owned Slot.pages hx hy hp
      refine hsame p (fun he => hq.1 (he ▸ hpl)) (fun he => ?_) (fun he => ?_)
      · exact PlusTree.record_ne_id Slot.pages hndl hx hy (he ▸ hp)
      · exact hdis p hpl r.id (PlusTree.id_mem_owned _ r) he
    · refine (hs.rSlots x hx y hy).congr (fun p hp => ?_)
      have hpr := r.record_owned Slot.pages hx hy hp
      refine hsame p (fun he => hq.2 (he ▸ hpr)) (fun he => ?_) (fun he => ?_)
      · exact hdis l.id (PlusTree.id_mem_owned _ l) p hpr he.symm
      · exact PlusTree.record_ne_id Slot.pages hndr hx hy (he ▸ hp)

/-- The new separator goes exactly where the frame has its hole. -/
theorem Split.searchPos {ks₁ ks₂ : List Bytes} {cs₁ cs₂ : List (PTree d)} {l r : PTree d}
    (hs : Split v (Ctx.frame i ks₁ cs₁ ks₂ cs₂ up) l k r) :
    searchPos (ks₁ ++ ks₂) k = ks₁.length := by
  obtain ⟨h1, h2, _, _, _⟩ := hs.ctxShaped
  obtain ⟨_, _, _, hlm, _, hmr⟩ := ordered_mid.mp hs.ordered
  have hk : Item.sep k ∈ l.inorder ++ Item.sep k :: r.inorder :=
    mem_append_right _ mem_cons_self
  refine searchPos_absent (fun s hm => ?_) (fun s hm => ?_)
  · have hsep : Item.sep s ∈ (Ctx.frame i ks₁ cs₁ ks₂ cs₂ up).left :=
      mem_append_right _ (mem_weaveL h1 hm)
    exact hlm _ hsep _ hk
  · have hsep : Item.sep s ∈ (Ctx.frame i ks₁ cs₁ ks₂ cs₂ up).right :=
      mem_append_left _ (mem_weaveR h2 hm)
    exact hmr _ hk _ hsep

end States

/-! ## Pointers to a new parent -/

namespace BTree

variable {σ : Type} {S : PageStore σ} {L : S.Laws} {U : Set PageId} {r : PageId}
  {E : Fail → BTree σ → Prop} {d h : Nat}

/-- A node that was read and gets another parent can be written back. -/
theorem valid_setParent {n : Node} {page : Page} {id : PageId} (hn : Node.fromPage page = .ok n)
    (hlen : ∀ i, n = .internal i → i.children.length = i.keys.length + 1) (hid : id ≠ u32Max) :
    (n.setParent id).Valid := by
  have hp := Node.fromPage_pointers hn
  have hne : some id ≠ some u32Max := fun he => hid (Option.some.inj he)
  cases n with
  | leaf l => exact ⟨hne, hp.2⟩
  | internal i => exact ⟨hne, hlen i rfl⟩

variable {parent : Option PageId} {t : BTree σ} {v : PageId → Page} {k : Bytes} {α : Type}

/-- The top cell of a well-shaped tree, as a node, has one child more than keys. -/
theorem topCell_children {c : PTree d} (hs : c.Shaped) {after : Option PageId} {i : InternalNode}
    (hi : nodeOf (PlusTree.topCell parent after c) = .internal i) :
    i.children.length = i.keys.length + 1 := by
  cases d with
  | zero => exact absurd hi (by simp [nodeOf, PlusTree.topCell])
  | succ d =>
    obtain ⟨id, keys, kids, rfl⟩ := c.exists_node
    obtain ⟨hlen, _⟩ := PlusTree.shaped_node.mp hs
    have hi' : Node.internal ⟨parent, keys, kids.map PlusTree.id⟩ = .internal i := hi
    injection hi' with hi'
    rw [← hi']
    simpa using hlen

variable {Q : Unit → BTree σ → Prop}

/-- Writing a node over its own page with another parent changes its top cell only. -/
theorem wp_setParent {c : PTree d} {after : Option PageId} {q : PageId} (hat : At L t U v r)
    (hE : ∀ t', E .stopped t') (hs : c.Shaped) (hnd : (pagesOf c).Nodup)
    (hc : ∀ e ∈ PlusTree.cells parent after c, CellAt v e) (hid : c.id ∈ U) (hq : q ∈ U)
    (hQ : ∀ page t', (∀ e ∈ PlusTree.cells (some q) after c, CellAt (Function.update v c.id page) e) →
      At L t' U (Function.update v c.id page) r → Q () t') :
    (writeNode S c.id ((nodeOf (PlusTree.topCell parent after c)).setParent q)).wp t Q E := by
  obtain ⟨⟨hnode, hfit⟩, hbelow⟩ := forall_mem_cons.mp hc
  have hv := valid_setParent hnode (fun i hi => topCell_children hs hi) (L.valid hat.inv hq).2
  refine wp_writeNode hat hE hid hv (fun t' hbig => ?_) (fun page t' hfit' hpage hat' => ?_)
  · rw [encodedSize_setParent] at hbig
    exact absurd hfit hbig
  · rw [nodeOf_setParent, PlusTree.topCell_setParent] at hpage hfit'
    refine hQ page t' (forall_mem_cons.mpr
      ⟨cellAt_of_page (Function.update_self ..) hpage hfit', fun e he => ?_⟩) hat'
    exact (hbelow e he).congr (Function.update_of_ne (PlusTree.below_ne Slot.pages hnd he).2 ..)

/-- The loop over the children that moved to a new node. -/
theorem wp_reparent (i : PageId) {q : PageId} (after : Option PageId) (hE : ∀ t', E .stopped t')
    (hq : q ∈ U) : ∀ {cs : List (PTree d)} {v : PageId → Page} {t : BTree σ}
      {Q : Unit → BTree σ → Prop},
    At L t U v r → (∀ c ∈ cs, c.Shaped) → (cs.flatMap (PlusTree.owned Slot.pages)).Nodup →
    (∀ p ∈ cs.flatMap (PlusTree.owned Slot.pages), p ∈ U) →
    (∀ e ∈ PlusTree.row (some i) after cs, CellAt v e) →
    (∀ v' t', (∀ e ∈ PlusTree.row (some q) after cs, CellAt v' e) →
      (∀ p, p ∉ cs.map PlusTree.id → v' p = v p) → At L t' U v' r → Q () t') →
    (reparent S q (cs.map PlusTree.id)).wp t Q E
  | [], v, t, Q, hat, _, _, _, _, hQ => wp_pure (hQ v t nofun (fun _ _ => rfl) hat)
  | c :: cs, v, t, Q, hat, hs, hnd, hU, hrow, hQ => by
    rw [flatMap_cons] at hnd hU
    obtain ⟨hndc, hndcs, hdis⟩ := nodup_append.mp hnd
    obtain ⟨hsc, hscs⟩ := forall_mem_cons.mp hs
    obtain ⟨hUc, hUcs⟩ := forall_mem_append.mp hU
    rw [PlusTree.row_cons] at hrow
    obtain ⟨hc, hcs⟩ := forall_mem_append.mp hrow
    have hcid : c.id ∈ PlusTree.owned Slot.pages c := PlusTree.id_mem_owned _ c
    rw [map_cons, reparent]
    refine wp_bind (wp_readNode hat hE (hUc _ hcid) (topCell_at hc) (fun t₁ hat₁ => ?_))
    refine wp_bind (wp_setParent hat₁ hE hsc hndc hc (hUc _ hcid) hq ?_)
    intro page t₂ hcells hat₂
    have hnotcs : c.id ∉ cs.flatMap (PlusTree.owned Slot.pages) := fun hm => hdis _ hcid _ hm rfl
    -- the other children are where they were
    refine wp_reparent i after hE hq hat₂ hscs hndcs hUcs (fun e he => ?_) ?_
    · exact (hcs e he).congr (update_notMem _ hnotcs _ (PlusTree.row_owned Slot.pages he))
    · intro v' t₃ hrow' hsame hat₃
      refine hQ v' t₃ ?_ (fun p hp => ?_) hat₃
      · rw [PlusTree.row_cons]
        refine forall_mem_append.mpr ⟨fun e he => (hcells e he).congr (hsame e.1 fun hm => ?_), hrow'⟩
        exact hdis e.1 (PlusTree.cells_owned Slot.pages c he) e.1 (ids_owned _ hm) rfl
      · rw [map_cons, mem_cons, not_or] at hp
        rw [hsame p hp.2, Function.update_of_ne hp.1]

/-! ## Going up -/

/-- How the caller is told about an oversized node: only if some half did not fit. -/
def TooLarge (E : Fail → BTree σ → Prop) (fits : Bool) : Prop :=
  fits = false → ∀ n t', E (.err (.nodeTooLarge n pageSize)) t'

/-- The tree that comes out of a split at `ctx`: the traversal is the one announced, and the
pages are the old ones and some that were not in use. -/
def SplitPost (L : S.Laws) (U : Set PageId) (ctx : PCtx d h) (l : PTree d) (k : Bytes)
    (r : PTree d) (Q : Unit → BTree σ → Prop) : Prop :=
  ∀ (h' : Nat) (c : PTree h') (fresh : List PageId) v' t', Represents v' c →
    c.inorder = ctx.left ++ ((l.inorder ++ Item.sep k :: r.inorder) ++ ctx.right) →
    (∀ p, p ∈ pagesOf c ↔
      p ∈ pagesOf l ++ (pagesOf r ++ ctx.owned Slot.pages) ∨ p ∈ fresh) →
    (∀ p ∈ fresh, p ∉ U) → At L t' (U ∪ {p | p ∈ fresh}) v' c.id → Q () t'

/-- A new root over the two halves of the old one. -/
theorem wp_growRoot {l r : PTree d} {root : PageId} (hat : At L t U v root)
    (hE : ∀ t', E .stopped t') (hs : Split v (Ctx.top : PCtx d d) l k r)
    (hU : ∀ p ∈ pagesOf l ++ (pagesOf r ++ []), p ∈ U) (hbig : TooLarge E (splitsFit [] k))
    (hQ : splitsFit [] k → SplitPost L U (Ctx.top : PCtx d d) l k r Q) :
    (growRoot S k l.id (nodeOf (PlusTree.topCell none (firstOf [r] none) l)) r.id).wp t Q E := by
  have hnd := hs.nodup
  obtain ⟨hndl, hndr, hdis⟩ := nodup_append.mp hnd
  rw [Ctx.owned, append_nil] at hndr hdis
  rw [append_nil] at hU
  obtain ⟨hlU, hrU⟩ := forall_mem_append.mp hU
  refine wp_bind (wp_allocatePage hat hE ?_)
  intro q t₁ page₀ hqU hqmax hat₁
  have hql : q ∉ pagesOf l := fun hm => hqU (hlU q hm)
  have hqr : q ∉ pagesOf r := fun hm => hqU (hrU q hm)
  have hsub : ∀ {p}, p ∈ U → p ∈ U ∪ {q} := Or.inl
  -- the new root
  refine wp_bind (wp_writeNode hat₁ hE (Or.inr rfl) ⟨by simp, rfl⟩ ?_ ?_)
  · exact fun t' hno => hbig (decide_eq_false hno) _ t'
  intro page₁ t₂ hfit₁ hpage₁ hat₂
  rw [Function.update_idem] at hat₂
  -- the left half
  have hl₂ := cellsAt_congr hs.lCells (update_notMem page₁ hql)
  refine wp_bind (wp_setParent hat₂ hE hs.lShaped hndl hl₂ (hsub (hlU _ (id_mem_pages l)))
    (Or.inr rfl) ?_)
  intro page₂ t₃ hl₃ hat₃
  have hlr : l.id ∉ pagesOf r := fun hm => hdis _ (id_mem_pages l) _ hm rfl
  have hr₃ := cellsAt_congr (cellsAt_congr hs.rCells (update_notMem page₁ hqr))
    (update_notMem page₂ hlr)
  -- the right half, which is read back first
  refine wp_bind (wp_readNode hat₃ hE (hsub (hrU _ (id_mem_pages r))) (topCell_at hr₃) ?_)
  intro t₄ hat₄
  refine wp_bind (wp_setParent hat₄ hE hs.rShaped hndr hr₃ (hsub (hrU _ (id_mem_pages r)))
    (Or.inr rfl) ?_)
  intro page₃ t₅ hr₅ hat₅
  have hrl : r.id ∉ pagesOf l := fun hm => hdis _ hm _ (id_mem_pages r) rfl
  have hqr' : q ≠ r.id := fun he => hqr (he ▸ id_mem_pages r)
  have hql' : q ≠ l.id := fun he => hql (he ▸ id_mem_pages l)
  refine wp_moveRoot hat₅ hE (Or.inr rfl) (fun t₆ hat₆ => ?_)
  have hqc := @cellAt_of_page (Function.update (Function.update (Function.update v q page₁) l.id page₂)
    r.id page₃) q (.inner none [k] [l.id, r.id]) page₁
    (by rw [Function.update_of_ne hqr', Function.update_of_ne hql', Function.update_self]) hpage₁ hfit₁
  have hrep := hs.newRoot (by rw [mem_append, not_or]; exact ⟨hql, hqr⟩) hqc
    (cellsAt_congr hl₃ (update_notMem page₃ hrl)) hr₅ fun p hpq hpl hpr => by
      rw [Function.update_of_ne hpr, Function.update_of_ne hpl, Function.update_of_ne hpq]
  refine hQ (decide_eq_true hfit₁) (d + 1) (PlusTree.node q [k] [l, r]) [q] _ t₆ hrep ?_ ?_ ?_ ?_
  · simp [weave, weaveR, Ctx.left, Ctx.right]
  · intro p
    simp only [pagesOf, PlusTree.owned_node, flatMap_cons, flatMap_nil, append_nil,
      mem_cons, mem_append, Ctx.owned, not_mem_nil, or_false]
    tauto
  · exact forall_mem_singleton.mpr hqU
  · exact hat₆.congr_pages (by ext p; simp)

/-- What is done above a node that was split. -/
def goUp (S : PageStore σ) (climb : PageId → Bytes → PageId → Prog Fail (BTree σ) Unit)
    (parent : Option PageId) (k : Bytes) (left : PageId) (node : Node) (right : PageId) :
    Prog Fail (BTree σ) Unit :=
  match parent with
  | some parentId => climb parentId k right
  | none => growRoot S k left node right

theorem insertIdx_length (x : α) (l₂ : List α) : ∀ (l₁ : List α),
    (l₁ ++ l₂).insertIdx l₁.length x = l₁ ++ x :: l₂
  | [] => insertIdx_zero
  | a :: l₁ => by
    rw [cons_append, length_cons, insertIdx_succ_cons, insertIdx_length x l₂ l₁,
      cons_append]

/-- A node with the separator and the right child added. -/
theorem addChild_eq {ks₁ ks₂ : List Bytes} {cs₁ cs₂ : List PageId} {l r : PageId}
    (hpos : searchPos (ks₁ ++ ks₂) k = ks₁.length) (hlen : ks₁.length = cs₁.length) :
    addChild ⟨parent, ks₁ ++ ks₂, cs₁ ++ l :: cs₂⟩ k r
      = ⟨parent, ks₁ ++ k :: ks₂, cs₁ ++ l :: r :: cs₂⟩ := by
  have hkids : (cs₁ ++ l :: cs₂).insertIdx (ks₁.length + 1) r = cs₁ ++ l :: r :: cs₂ := by
    have h := insertIdx_length r cs₂ (cs₁ ++ [l])
    rwa [append_assoc, append_assoc, length_append, ← hlen] at h
  unfold addChild
  simp only [hpos, insertIdx_length, hkids]

theorem drop_length_succ (l₁ l₂ : List α) (a : α) : (l₁ ++ a :: l₂).drop (l₁.length + 1) = l₂ := by
  rw [← drop_drop, drop_left, drop_one, tail_cons]

/-- `split_internal_and_insert` turns a wide node into a split one level up. -/
theorem wp_splitInternalAndInsert {up : PCtx (d + 1) h} {i root : PageId} {K₁ K₂ : List Bytes}
    {m : Bytes} {C₁ C₂ : List (PTree d)}
    {climb : PageId → Bytes → PageId → Prog Fail (BTree σ) Unit} (hat : At L t U v root)
    (hE : ∀ t', E .stopped t') (hw : Wide v up i (K₁ ++ m :: K₂) (C₁ ++ C₂))
    (hmid : (K₁ ++ m :: K₂).length / 2 = K₁.length) (hlenL : C₁.length = K₁.length + 1)
    (hparent : up.parent ≠ some u32Max)
    (hU : ∀ p ∈ pagesOf (PlusTree.node i (K₁ ++ m :: K₂) (C₁ ++ C₂)) ++ up.owned Slot.pages, p ∈ U)
    (hbig : TooLarge E (decide (innerSize K₁ ≤ pageSize) && decide (innerSize K₂ ≤ pageSize)))
    (hclimb : ∀ q v' t', q ∉ U → At L t' (U ∪ {q}) v' root →
      Split v' up (PlusTree.node i K₁ C₁) m (PlusTree.node q K₂ C₂) →
      innerSize K₁ ≤ pageSize → innerSize K₂ ≤ pageSize →
      (goUp S climb up.parent m i (.internal ⟨up.parent, K₁, C₁.map PlusTree.id⟩) q).wp t' Q E) :
    (splitInternalAndInsert S climb i ⟨up.parent, K₁ ++ m :: K₂, (C₁ ++ C₂).map PlusTree.id⟩).wp t Q
      E := by
  obtain ⟨hlen, hkids⟩ := PlusTree.shaped_node.mp hw.shaped
  obtain ⟨-, hkids₂⟩ := forall_mem_append.mp hkids
  have hlenR : C₂.length = K₂.length + 1 := by
    simp only [length_append, length_cons] at hlen; omega
  have hleft : splitLeft ⟨up.parent, K₁ ++ m :: K₂, (C₁ ++ C₂).map PlusTree.id⟩
      = ⟨up.parent, K₁, C₁.map PlusTree.id⟩ := by
    unfold splitLeft
    simp only [hmid, take_left, ← map_take, ← hlenL]
  have hright : splitRight ⟨up.parent, K₁ ++ m :: K₂, (C₁ ++ C₂).map PlusTree.id⟩
      = ⟨up.parent, K₂, C₂.map PlusTree.id⟩ := by
    unfold splitRight
    simp only [hmid, ← map_drop, ← hlenL, drop_left]
    rw [hlenL, drop_length_succ]
  have hget : (K₁ ++ m :: K₂)[K₁.length]? = some m := by simp
  unfold splitInternalAndInsert
  dsimp only
  rw [hmid, hget]
  dsimp only
  rw [if_neg (by rw [length_map, length_append]; omega), hleft, hright]
  refine wp_bind (wp_allocatePage hat hE ?_)
  intro q t₁ page₀ hqU hqmax hat₁
  have hqP := fun hp => hqU (hU q hp)
  have hnd := hw.nodup
  rw [pagesOf, PlusTree.owned_node, flatMap_append] at hnd hU
  have hiU : i ∈ U := hU i (mem_append_left _ mem_cons_self)
  have hiq : i ≠ q := fun he => hqU (he ▸ hiU)
  have hC₂U : ∀ p ∈ C₂.flatMap (PlusTree.owned Slot.pages), p ∈ U := fun p hp =>
    hU p (mem_append_left _ (mem_cons_of_mem _ (mem_append_right _ hp)))
  have hqC₂ : q ∉ C₂.flatMap (PlusTree.owned Slot.pages) := fun hm => hqU (hC₂U q hm)
  obtain ⟨hiP, hndP⟩ := nodup_cons.mp hnd
  have hiC₂ : i ∉ C₂.flatMap (PlusTree.owned Slot.pages) := fun hm =>
    hiP (mem_append_left _ (mem_append_right _ hm))
  have hndC₂ := (nodup_append.mp (nodup_append.mp hndP).1).2.1
  have hsub : ∀ {p}, p ∈ U → p ∈ U ∪ {q} := Or.inl
  -- both halves are written, the left one in place
  have hsizeL := innerSize_eq (i := ⟨up.parent, K₁, C₁.map PlusTree.id⟩) (by simpa using hlenL)
  have hsizeR := innerSize_eq (i := ⟨up.parent, K₂, C₂.map PlusTree.id⟩) (by simpa using hlenR)
  refine wp_bind (wp_writeNode hat₁ hE (hsub hiU) ⟨hparent, by simpa using hlenL⟩ ?_ ?_)
  · intro t' hno
    rw [hsizeL] at hno ⊢
    exact hbig (by simp [hno]) _ t'
  intro pageL t₂ hfitL hpageL hat₂
  refine wp_bind (wp_writeNode hat₂ hE (Or.inr rfl) ⟨hparent, by simpa using hlenR⟩ ?_ ?_)
  · intro t' hno
    rw [hsizeR] at hno ⊢
    exact hbig (by simp [hno]) _ t'
  intro pageR t₃ hfitR hpageR hat₃
  have hkeep : ∀ p ∈ C₂.flatMap (PlusTree.owned Slot.pages),
      Function.update (Function.update (Function.update v q page₀) i pageL) q pageR p = v p := by
    intro p hp
    rw [update_notMem pageR hqC₂ p hp, update_notMem pageL hiC₂ p hp, update_notMem page₀ hqC₂ p hp]
  have hwrow := hw.row
  have hwslots := hw.slots
  rw [PlusTree.row_append, forall_mem_append] at hwrow
  rw [PlusTree.leaves_node, flatMap_append, SlotsAt.append_iff] at hwslots
  refine wp_bind (wp_reparent i up.after hE (Or.inr rfl) hat₃ hkids₂ hndC₂ (fun p hp => hsub (hC₂U p hp))
    (fun e he => (hwrow.2 e he).congr (hkeep e.1 (PlusTree.row_owned Slot.pages he))) ?_)
  intro v' t₄ hrow hsame hat₄
  have hi := hsame i (fun hm => hiC₂ (ids_owned i hm))
  have hq := hsame q (fun hm => hqC₂ (ids_owned q hm))
  rw [Function.update_of_ne hiq, Function.update_self] at hi
  rw [Function.update_self] at hq
  refine hclimb q v' t₄ hqU hat₄ (hw.split hlenL hlenR hqP (cellAt_of_page hi hpageL hfitL)
    (cellAt_of_page hq hpageR hfitR) hrow (fun p hpi hpq hpm => ?_) (fun l hl x hx => ?_))
    (hsizeL ▸ hfitL) (hsizeR ▸ hfitR)
  · rw [hsame p hpm, Function.update_of_ne hpq, Function.update_of_ne hpi,
      Function.update_of_ne hpq]
  · refine (rowSlotsAt_congr hwslots.2 hkeep l hl x hx).congr fun p hp => ?_
    exact hsame p (PlusTree.row_record_ne_id Slot.pages hndC₂ hl hx hp)

/-- A list cut where the splits cut it. -/
theorem cut_middle (l : List α) (hne : l ≠ []) :
    ∃ l₁ m l₂, l = l₁ ++ m :: l₂ ∧ l.length / 2 = l₁.length := by
  have hlt : l.length / 2 < l.length := by
    have : 0 < l.length := length_pos_iff.mpr hne
    omega
  refine ⟨l.take (l.length / 2), l[l.length / 2], l.drop (l.length / 2 + 1), ?_, ?_⟩
  · rw [← drop_eq_getElem_cons hlt, take_append_drop]
  · rw [length_take]; omega

theorem splitsFit_cons {ks₁ ks₂ K₁ K₂ : List Bytes} {m : Bytes} (up : List (List Bytes))
    (hpos : searchPos (ks₁ ++ ks₂) k = ks₁.length) (hcut : ks₁ ++ k :: ks₂ = K₁ ++ m :: K₂)
    (hmid : (ks₁ ++ k :: ks₂).length / 2 = K₁.length) :
    splitsFit ((ks₁ ++ ks₂) :: up) k = (decide (innerSize (ks₁ ++ k :: ks₂) ≤ pageSize) ||
      (decide (innerSize K₁ ≤ pageSize) && decide (innerSize K₂ ≤ pageSize) && splitsFit up m)) := by
  have hget : (K₁ ++ m :: K₂).getD K₁.length [] = m := by simp
  rw [splitsFit, hpos, insertIdx_length]
  rw [hmid, hcut, take_left, drop_length_succ, hget]

/-- **Going up after a split.** By induction on the ancestors: a node that has room takes the
separator in, a node that has none is split and the argument goes on one level higher, and above
the root a new root is made. -/
theorem wp_climb : ∀ {d h : Nat} (ctx : PCtx d h) {l r : PTree d} {k : Bytes} {v : PageId → Page}
    {U : Set PageId} {t : BTree σ} {fuel : Nat} {Q : Unit → BTree σ → Prop},
    At L t U v (ctx.plug l).id → (∀ t', E .stopped t') → Split v ctx l k r →
    (∀ p ∈ pagesOf l ++ (pagesOf r ++ ctx.owned Slot.pages), p ∈ U) → ctx.depth ≤ fuel →
    TooLarge E (splitsFit ctx.path k) → (splitsFit ctx.path k → SplitPost L U ctx l k r Q) →
    (goUp S (insertIntoInternal S fuel) ctx.parent k l.id
      (nodeOf (PlusTree.topCell ctx.parent (firstOf [r] ctx.after) l)) r.id).wp t Q E
  | _, _, .top, l, r, k, v, U, t, fuel, Q, hat, hE, hs, hU, _, hbig, hQ =>
    wp_growRoot hat hE hs hU hbig hQ
  | d, h, .frame i ks₁ cs₁ ks₂ cs₂ up, l, r, k, v, U, t, 0, Q, _, _, _, _, hd, _, _ =>
    absurd hd (by simp [Ctx.depth])
  | d, h, .frame i ks₁ cs₁ ks₂ cs₂ up, l, r, k, v, U, t, fuel + 1, Q, hat, hE, hs, hU, hd,
      hbig, hQ => by
      obtain ⟨h1, h2, _, _, _⟩ := hs.ctxShaped
      have hw := hs.wide
      have hpos := hs.searchPos
      have hlen := (PlusTree.shaped_node.mp hw.shaped).1
      have hperm := pages_split_perm up i ks₁ ks₂ (ks₁ ++ k :: ks₂) cs₁ cs₂ l r
      have hUw : ∀ p ∈ pagesOf (PlusTree.node i (ks₁ ++ k :: ks₂) (cs₁ ++ l :: r :: cs₂)) ++
          up.owned Slot.pages, p ∈ U := fun p hp => hU p (hperm.mem_iff.mp hp)
      have hiU : i ∈ U := hUw i (mem_append_left _ mem_cons_self)
      -- the node above, as it is on its page
      have hcell : CellAt v (i, .inner up.parent (ks₁ ++ ks₂)
          (cs₁.map PlusTree.id ++ l.id :: cs₂.map PlusTree.id)) := hs.ctxCells _ mem_cons_self
      have hparent : up.parent ≠ some u32Max := Node.fromPage_pointers hcell.1
      have hmap : cs₁.map PlusTree.id ++ l.id :: r.id :: cs₂.map PlusTree.id
          = (cs₁ ++ l :: r :: cs₂).map PlusTree.id := by simp
      have hinorder : up.left ++ ((PlusTree.node i (ks₁ ++ k :: ks₂) (cs₁ ++ l :: r :: cs₂)).inorder ++
          up.right) = (Ctx.frame i ks₁ cs₁ ks₂ cs₂ up).left ++
            ((l.inorder ++ Item.sep k :: r.inorder) ++ (Ctx.frame i ks₁ cs₁ ks₂ cs₂ up).right) := by
        rw [PlusTree.inorder_node, weave_split (k :: ks₂) l (r :: cs₂) h1, weaveR]
        simp only [Ctx.left, Ctx.right, append_assoc, cons_append]
      show (insertIntoInternal S (fuel + 1) i k r.id).wp t Q E
      rw [insertIntoInternal]
      refine wp_bind (wp_readNode hat hE hiU hcell.1 (fun t₁ hat₁ => ?_))
      dsimp only [nodeOf]
      rw [hpos, if_neg (by simp only [length_append, length_cons, length_map]; omega),
        addChild_eq hpos (by rw [length_map]; exact h1), hmap]
      have hsize := innerSize_eq
        (i := ⟨up.parent, ks₁ ++ k :: ks₂, (cs₁ ++ l :: r :: cs₂).map PlusTree.id⟩)
        (by rw [length_map]; exact hlen)
      obtain ⟨K₁, m, K₂, hcut, hmid⟩ := cut_middle (ks₁ ++ k :: ks₂) (by simp)
      rw [Ctx.path, splitsFit_cons up.path hpos hcut hmid] at hbig hQ
      by_cases hfit : innerSize (ks₁ ++ k :: ks₂) ≤ pageSize
      · -- there is room
        rw [decide_eq_true hfit, Bool.true_or] at hQ
        rw [hsize, if_neg (Nat.not_lt.mpr hfit)]
        refine wp_writeNode hat₁ hE hiU ⟨hparent, by rw [length_map]; exact hlen⟩
          (fun t' hno => ?_) ?_
        · rw [hsize] at hno; exact absurd hfit hno
        · intro page t₂ hsz hpage hat₂
          refine hQ rfl h _ [] _ t₂ (hw.focus ⟨hpage, hsz⟩).represents ?_ (fun p => ?_) (by simp) ?_
          · rw [Ctx.plug_inorder _ _ hw.ctxShaped, hinorder]
          · rw [(Ctx.plug_owned Slot.pages up _).mem_iff, hperm.mem_iff]
            simp
          · have hid : (up.plug (PlusTree.node i (ks₁ ++ k :: ks₂) (cs₁ ++ l :: r :: cs₂))).id
                = ((Ctx.frame i ks₁ cs₁ ks₂ cs₂ up).plug l).id := Ctx.plug_id up rfl
            rw [hid]
            exact hat₂.congr_pages (by ext p; simp)
      · -- no room: split this node, and go on above it
        rw [hsize, if_pos (Nat.lt_of_not_le hfit)]
        rw [decide_eq_false hfit, Bool.false_or] at hbig hQ
        obtain ⟨C₁, C₂, hkids, hlenC⟩ : ∃ C₁ C₂, cs₁ ++ l :: r :: cs₂ = C₁ ++ C₂ ∧
            C₁.length = K₁.length + 1 := by
          refine ⟨(cs₁ ++ l :: r :: cs₂).take (K₁.length + 1),
            (cs₁ ++ l :: r :: cs₂).drop (K₁.length + 1), (take_append_drop ..).symm, ?_⟩
          rw [length_take, hlen]
          omega
        have hC₂ : C₂ ≠ [] := by
          rintro rfl
          rw [append_nil] at hkids
          rw [hkids, hcut, length_append, length_cons, hlenC] at hlen
          omega
        rw [hcut, hkids] at hw hUw hinorder hperm ⊢
        rw [hcut] at hmid
        refine wp_splitInternalAndInsert hat₁ hE hw hmid hlenC hparent hUw
          (fun hno n t' => hbig (by rw [hno, Bool.false_and]) n t') ?_
        intro q v' t₂ hqU hat₂ hsplit hfit₁ hfit₂
        rw [decide_eq_true hfit₁, decide_eq_true hfit₂, Bool.true_and] at hbig hQ
        have hid : (up.plug (PlusTree.node i K₁ C₁)).id
            = ((Ctx.frame i ks₁ cs₁ ks₂ cs₂ up).plug l).id := Ctx.plug_id up rfl
        have hpages : ∀ p, p ∈ pagesOf (PlusTree.node i K₁ C₁) ++ (pagesOf (PlusTree.node q K₂ C₂) ++
            up.owned Slot.pages) ↔ p ∈ pagesOf l ++ (pagesOf r ++
              (Ctx.frame i ks₁ cs₁ ks₂ cs₂ up).owned Slot.pages) ∨ p = q := by
          intro p
          rw [← hperm.mem_iff]
          simp only [pagesOf, PlusTree.owned_node, flatMap_append, mem_append, mem_cons]
          tauto
        refine wp_climb (U := U ∪ {q}) up (hid ▸ hat₂) hE hsplit (fun p hp => ((hpages p).mp hp).imp_left (hU p))
          (Nat.le_of_succ_le_succ hd) (fun hno n t' => hbig (by rw [hno, Bool.true_and]) n t') ?_
        intro hup h' c fresh v'' t₃ hrep hino hpg hfresh hat₃
        refine hQ hup h' c (q :: fresh) v'' t₃ hrep ?_ (fun p => ?_) ?_ ?_
        · have hcutino : (PlusTree.node i (K₁ ++ m :: K₂) (C₁ ++ C₂)).inorder
              = (PlusTree.node i K₁ C₁).inorder ++ Item.sep m :: (PlusTree.node q K₂ C₂).inorder :=
            weave_cut hlenC hC₂
          rw [hino, ← hinorder, hcutino]
        · rw [hpg p, hpages p, mem_cons, or_assoc]
        · exact forall_mem_cons.mpr ⟨hqU, fun p hp hu => hfresh p hp (Or.inl hu)⟩
        · refine hat₃.congr_pages ?_
          ext p
          simp only [Set.mem_union, Set.mem_ofPred_eq, Set.mem_singleton_iff, mem_cons, or_assoc]

end BTree

end MagnumDB
