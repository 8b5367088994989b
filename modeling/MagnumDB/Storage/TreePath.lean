import MagnumDB.Storage.TreeDelete

/-!
# The way down, read off the pages

The conditions under which the tree works are conditions on the leaf of a key and
on the separators above it. Here they are computed from the pages alone:
`pathTo` follows the search of a key and collects the separators it passes,
`leftmostLeaf` follows the first children. On pages that hold a tree they find
what the tree has there.
-/

namespace MagnumDB

open BPlus SortedAssoc List

/-- Follow the search of a key from a node down: the separators of the nodes passed, nearest
first, and the leaf it ends in. -/
def pathTo (v : PageId → Page) (key : Bytes) :
    Nat → PageId → List (List Bytes) → Option (List (List Bytes) × PageId × LeafNode)
  | 0, _, _ => none
  | fuel + 1, id, up =>
    match Node.fromPage (v id) with
    | .ok (.leaf l) => some (up, id, l)
    | .ok (.internal i) =>
      match i.children[childIndex i.keys key]? with
      | some child => pathTo v key fuel child (i.keys :: up)
      | none => none
    | .error _ => none

/-- Follow the first children down. -/
def leftmostLeaf (v : PageId → Page) : Nat → PageId → Option PageId
  | 0, _ => none
  | fuel + 1, id =>
    match Node.fromPage (v id) with
    | .ok (.leaf _) => some id
    | .ok (.internal i) =>
      match i.children with
      | child :: _ => leftmostLeaf v fuel child
      | [] => none
    | .error _ => none

/-- Whether every node fits a page that an insertion writes. -/
def insertFits (v : PageId → Page) (fuel : Nat) (root : PageId) (key value : Bytes) : Bool :=
  match pathTo v key fuel root [] with
  | some (path, _, leaf) =>
    leafFits path (upsert key (storedLen value) (leaf.records.map (fun r => (r.1, r.2.length))))
  | none => false

/-- Whether a deletion leaves the nodes in place: it does not empty a leaf, or that leaf is the
root or the leftmost one. -/
def deleteKeeps (v : PageId → Page) (fuel : Nat) (root : PageId) (key : Bytes) : Bool :=
  match pathTo v key fuel root [] with
  | some (_, id, leaf) =>
    leaf.records.map Prod.fst != [key] || id == root || leftmostLeaf v fuel root == some id
  | none => false

variable {v : PageId → Page} {key : Bytes}

/-- Between the separators up to the key and those above it. -/
theorem childIndex_split {ks₁ ks₂ : List Bytes} (h₁ : ∀ k ∈ ks₁, k ≤ key)
    (h₂ : ∀ k ∈ ks₂, key < k) : childIndex (ks₁ ++ ks₂) key = ks₁.length := by
  unfold childIndex
  induction ks₁ with
  | nil =>
    cases ks₂ with
    | nil => rfl
    | cons k ks =>
      rw [nil_append, findIdx_cons, decide_eq_true (h₂ k (mem_cons_self ..))]
      rfl
  | cons k ks ih =>
    have hk : ¬ key < k := not_lt.mpr (h₁ k (mem_cons_self ..))
    rw [cons_append, findIdx_cons, decide_eq_false hk,
      ih (fun x hx => h₁ x (mem_cons_of_mem _ hx))]
    rfl

/-- The search of a key from the root arrives wherever the key belongs. -/
theorem pathTo_plug : ∀ {d h : Nat} (ctx : PCtx d h) (c : PTree d) (fuel : Nat), ctx.Shaped →
    c.Shaped → Represents v (ctx.plug c) → ctx.Located key →
    pathTo v key (ctx.depth + fuel) (ctx.plug c).id [] = pathTo v key fuel c.id ctx.path
  | _, _, .top, c, fuel, _, _, _, _ => by
    show pathTo v key (0 + fuel) c.id [] = _
    rw [Nat.zero_add]
    rfl
  | d, h, .frame id ks₁ cs₁ ks₂ cs₂ up, c, fuel, hs, hc, hr, hloc => by
    obtain ⟨h₁, h₂, hc₁, hc₂, hup⟩ := hs
    have hnode : (PlusTree.node id (ks₁ ++ ks₂) (cs₁ ++ c :: cs₂)).Shaped := by
      refine PlusTree.shaped_node.mpr ⟨?_, fun x hx => ?_⟩
      · simp only [length_append, length_cons]
        omega
      · rcases mem_append.mp hx with hx | hx
        · exact hc₁ x hx
        · rcases mem_cons.mp hx with hx | hx
          · rw [hx]; exact hc
          · exact hc₂ x hx
    have hup_loc : up.Located key :=
      ⟨fun x hx => hloc.1 x (mem_append_left _ hx),
        fun x hx => hloc.2 x (mem_append_right _ hx)⟩
    have ih := pathTo_plug up _ (fuel + 1) hup hnode hr hup_loc
    have hf : Focus v up (PlusTree.node id (ks₁ ++ ks₂) (cs₁ ++ c :: cs₂)) :=
      Represents.focus hr hup hnode
    have hcell := BTree.topCell_at hf.cells
    have hidx : childIndex (ks₁ ++ ks₂) key = cs₁.length := by
      rw [← h₁]
      refine childIndex_split (fun k hk => ?_) (fun k hk => ?_)
      · exact hloc.1 _ (mem_append_right _ (mem_weaveL h₁ hk))
      · exact hloc.2 _ (mem_append_left _ (mem_weaveR h₂ hk))
    have hdepth : (Ctx.frame id ks₁ cs₁ ks₂ cs₂ up).depth + fuel = up.depth + (fuel + 1) := by
      show up.depth + 1 + fuel = _
      omega
    rw [hdepth]
    refine ih.trans ?_
    rw [pathTo, hcell, nodeOf_topCell_node]
    dsimp only
    rw [hidx, map_append, map_cons, getElem?_append_right (by simp)]
    simp [Ctx.path]

section Leaf

variable {d : Nat} {c : PTree d} {ctx : PCtx 0 d} {id : PageId} {recs : List (Bytes × Slot)}
  {fuel : Nat}

theorem pathTo_leaf (hr : Represents v c) (hs : ctx.Shaped)
    (hplug : ctx.plug (PlusTree.leaf id recs) = c) (hloc : ctx.Located key) (hfuel : d < fuel) :
    pathTo v key fuel c.id []
      = some (ctx.path, id, ⟨ctx.parent, ctx.after, storedRecords recs⟩) := by
  subst hplug
  have hdepth := ctx.depth_eq
  obtain ⟨rest, rfl⟩ : ∃ rest, fuel = ctx.depth + (rest + 1) := ⟨fuel - ctx.depth - 1, by omega⟩
  have hcell := BTree.topCell_at (hr.focus hs trivial).cells
  rw [pathTo_plug ctx _ (rest + 1) hs trivial hr hloc]
  unfold pathTo
  rw [hcell]
  rfl

theorem insertFits_leaf {value : Bytes} (hr : Represents v c) (hs : ctx.Shaped)
    (hplug : ctx.plug (PlusTree.leaf id recs) = c) (hloc : ctx.Located key) (hfuel : d < fuel) :
    insertFits v fuel c.id key value
      = leafFits ctx.path (upsert key (storedLen value) (storedSizes recs)) := by
  unfold insertFits
  rw [pathTo_leaf hr hs hplug hloc hfuel]
  dsimp only
  unfold storedRecords storedSizes
  rw [map_map]
  rfl

theorem leftmostLeaf_eq : ∀ {d : Nat} {c : PTree d} {parent after : Option PageId} {fuel : Nat},
    c.Shaped → (∀ e ∈ PlusTree.cells parent after c, CellAt v e) → d < fuel →
    leftmostLeaf v fuel c.id = c.leaves.head?.map Leaf.id
  | _, _, _, _, 0, _, _, hf => absurd hf (by simp)
  | 0, c, parent, after, fuel + 1, _, hc, _ => by
    obtain ⟨id, recs, rfl⟩ := c.exists_leaf
    unfold leftmostLeaf
    rw [BTree.topCell_at hc]
    rfl
  | d + 1, c, parent, after, fuel + 1, hs, hc, hf => by
    obtain ⟨id, keys, kids, rfl⟩ := c.exists_node
    obtain ⟨hlen, hkids⟩ := PlusTree.shaped_node.mp hs
    cases kids with
    | nil => exact absurd hlen (by simp)
    | cons c cs =>
      have hcc : ∀ e ∈ PlusTree.cells (some id) (firstOf cs after) c, CellAt v e := by
        intro e he
        refine hc e ?_
        rw [PlusTree.cells_node, PlusTree.row_cons]
        exact mem_cons_of_mem _ (mem_append_left _ he)
      have ih := leftmostLeaf_eq (hkids c (mem_cons_self ..)) hcc
        (show d < fuel by omega)
      unfold leftmostLeaf
      rw [BTree.topCell_at hc]
      show leftmostLeaf v fuel c.id = _
      rw [ih, PlusTree.leaves_node, flatMap_cons, head?_append]
      cases hl : c.leaves with
      | nil => exact absurd hl (c.leaves_ne_nil (hkids c (mem_cons_self ..)))
      | cons l ls => rfl

theorem deleteKeeps_leaf {s : Slot} (hr : Represents v c) (hs : ctx.Shaped)
    (hplug : ctx.plug (PlusTree.leaf id [(key, s)]) = c) (hloc : ctx.Located key) (hfuel : d < fuel)
    (hkeep : deleteKeeps v fuel c.id key) : id = c.id ∨ ctx.leavesL = [] := by
  unfold deleteKeeps at hkeep
  rw [pathTo_leaf hr hs hplug hloc hfuel, leftmostLeaf_eq hr.shaped hr.cells hfuel] at hkeep
  simp only [storedRecords, map_cons, map_nil, bne_self_eq_false, Bool.false_or,
    Bool.or_eq_true, beq_iff_eq] at hkeep
  rcases hkeep with hroot | hfirst
  · exact Or.inl hroot
  · refine Or.inr ?_
    -- the first leaf is this one, and no leaf occurs twice
    have hnd : (c.leaves.map Leaf.id).Nodup := hr.nodup.sublist (PlusTree.leaves_sublist _ c)
    rw [← hplug, Ctx.plug_leaves] at hfirst hnd
    cases hl : ctx.leavesL with
    | nil => rfl
    | cons l ls =>
      rw [hl] at hfirst hnd
      have hid : l.id = id := by simpa using hfirst
      rw [cons_append, map_cons, nodup_cons] at hnd
      refine absurd ?_ hnd.1
      rw [hid]
      simp

end Leaf

end MagnumDB
