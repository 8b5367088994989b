import MagnumDB.Lib.BPlusCells
import MagnumDB.Storage.Overflow

/-!
# Pages that represent a tree

`Represents v t` says that the pages `v` hold the tree `t`: every node is stored
where the tree says, with its pointer to the node above it and, for a leaf, to the
next leaf; every chain holds its value; and no page is used twice. The tree itself
is a value of the library type `BPlus.PlusTree`, ordered and with all leaves at one
depth.

`Focus` is the same fact seen from one node of the tree. It is what the proofs
about insertion and deletion carry along as they move up and down.
-/

namespace MagnumDB

open BPlus

/-- A tree of pages with byte strings for keys. -/
abbrev PTree := PlusTree PageId Bytes Slot

/-- A tree of pages with a hole. -/
abbrev PCtx := Ctx PageId Bytes Slot

/-- The records of a leaf as its page has them. -/
def storedRecords (recs : List (Bytes × Slot)) : List (Bytes × Bytes) :=
  recs.map (fun r => (r.1, r.2.stored))

theorem storedRecords_append (l m : List (Bytes × Slot)) :
    storedRecords (l ++ m) = storedRecords l ++ storedRecords m := List.map_append ..

/-- A cell as a node of the source. -/
def nodeOf : Cell PageId Bytes Slot → Node
  | .leaf parent next recs => .leaf ⟨parent, next, storedRecords recs⟩
  | .inner parent keys children => .internal ⟨parent, keys, children⟩

variable {d : Nat}

theorem nodeOf_topCell_node {parent after : Option PageId} {id : PageId} {keys : List Bytes}
    {kids : List (PlusTree PageId Bytes Slot d)} :
    nodeOf (PlusTree.topCell parent after (PlusTree.node id keys kids))
      = .internal ⟨parent, keys, kids.map PlusTree.id⟩ := rfl

theorem nodeOf_internal {cell : Cell PageId Bytes Slot} {i : InternalNode}
    (h : nodeOf cell = .internal i) : cell = .inner i.parentPageId i.keys i.children := by
  cases cell with
  | leaf p n recs => exact absurd h (by simp [nodeOf])
  | inner p ks cs =>
    injection h with h
    rw [← h]

theorem nodeOf_leaf {cell : Cell PageId Bytes Slot} {l : LeafNode} (h : nodeOf cell = .leaf l) :
    ∃ recs, cell = .leaf l.parentPageId l.nextLeaf recs ∧ l.records = storedRecords recs := by
  cases cell with
  | leaf p n recs =>
    injection h with h
    rw [← h]
    exact ⟨recs, rfl, rfl⟩
  | inner p ks cs => exact absurd h (by simp [nodeOf])

/-- A page holds a cell. -/
def CellAt (v : PageId → Page) (e : PageId × Cell PageId Bytes Slot) : Prop :=
  Node.fromPage (v e.1) = .ok (nodeOf e.2) ∧ (nodeOf e.2).encodedSize ≤ pageSize

/-- The chains of the records of some leaves hold their values. -/
def SlotsAt (v : PageId → Page) (ls : List (Leaf PageId Bytes Slot)) : Prop :=
  ∀ l ∈ ls, ∀ r ∈ l.recs, r.2.Holds v

/-- The pages a tree occupies. -/
abbrev pagesOf {d : Nat} (t : PTree d) : List PageId := t.owned Slot.pages

/-- The pages hold the tree. -/
structure Represents (v : PageId → Page) {d : Nat} (t : PTree d) : Prop where
  shaped : t.Shaped
  ordered : Ordered t.inorder
  nodup : (pagesOf t).Nodup
  cells : ∀ e ∈ PlusTree.cells none none t, CellAt v e
  slots : SlotsAt v t.leaves

/-- The pages hold the tree that a subtree and its surroundings make up. -/
structure Focus (v : PageId → Page) {d h : Nat} (ctx : PCtx d h) (c : PTree d) : Prop where
  ctxShaped : ctx.Shaped
  shaped : c.Shaped
  ordered : Ordered (ctx.left ++ (c.inorder ++ ctx.right))
  nodup : (pagesOf c ++ ctx.owned Slot.pages).Nodup
  cells : ∀ e ∈ PlusTree.cells ctx.parent ctx.after c, CellAt v e
  ctxCells : ∀ e ∈ ctx.cells c.id (firstOf [c] ctx.after), CellAt v e
  slots : SlotsAt v c.leaves
  ctxSlots : SlotsAt v (ctx.leavesL ++ ctx.leavesR)

variable {v : PageId → Page}

theorem SlotsAt.append_iff {ls ms : List (Leaf PageId Bytes Slot)} :
    SlotsAt v (ls ++ ms) ↔ SlotsAt v ls ∧ SlotsAt v ms := by
  constructor
  · intro h
    exact ⟨fun l hl => h l (List.mem_append_left _ hl), fun l hl => h l (List.mem_append_right _ hl)⟩
  · rintro ⟨h₁, h₂⟩ l hl
    rcases List.mem_append.mp hl with hl | hl
    · exact h₁ l hl
    · exact h₂ l hl

theorem Represents.focus {h : Nat} {ctx : PCtx d h} {c : PTree d} (hr : Represents v (ctx.plug c))
    (hctx : ctx.Shaped) (hc : c.Shaped) : Focus v ctx c := by
  have hcells := fun e => (ctx.plug_cells c).mem_iff (a := e)
  have hslots := hr.slots
  rw [ctx.plug_leaves c, SlotsAt.append_iff, SlotsAt.append_iff] at hslots
  refine ⟨hctx, hc, ?_, ?_, ?_, ?_, hslots.2.1, SlotsAt.append_iff.mpr ⟨hslots.1, hslots.2.2⟩⟩
  · rw [← ctx.plug_inorder c hctx]; exact hr.ordered
  · exact (ctx.plug_owned Slot.pages c).nodup_iff.mp hr.nodup
  · intro e he
    exact hr.cells e ((hcells e).mpr (List.mem_append_left _ he))
  · intro e he
    exact hr.cells e ((hcells e).mpr (List.mem_append_right _ he))

theorem Focus.represents {h : Nat} {ctx : PCtx d h} {c : PTree d} (hf : Focus v ctx c) :
    Represents v (ctx.plug c) := by
  refine ⟨ctx.plug_shaped c hf.ctxShaped hf.shaped, ?_, ?_, ?_, ?_⟩
  · rw [ctx.plug_inorder c hf.ctxShaped]; exact hf.ordered
  · exact (ctx.plug_owned Slot.pages c).nodup_iff.mpr hf.nodup
  · intro e he
    rcases List.mem_append.mp ((ctx.plug_cells c).mem_iff.mp he) with he | he
    · exact hf.cells e he
    · exact hf.ctxCells e he
  · obtain ⟨hl, hr⟩ := SlotsAt.append_iff.mp hf.ctxSlots
    rw [ctx.plug_leaves c]
    exact SlotsAt.append_iff.mpr ⟨hl, SlotsAt.append_iff.mpr ⟨hf.slots, hr⟩⟩

theorem Represents.focus_top {t : PTree d} (hr : Represents v t) : Focus v (Ctx.top : PCtx d d) t :=
  Represents.focus hr trivial hr.shaped

/-! ## What a write leaves alone -/

theorem CellAt.congr {v' : PageId → Page} {e : PageId × Cell PageId Bytes Slot} (h : CellAt v e)
    (hv : v' e.1 = v e.1) : CellAt v' e := by
  unfold CellAt
  rw [hv]
  exact h

/-- A write does not change pages it is not to. -/
theorem update_notMem {i : PageId} (page : Page) {ps : List PageId} (h : i ∉ ps) :
    ∀ p ∈ ps, Function.update v i page p = v p := by
  intro p hp
  have hne : p ≠ i := fun he => h (he ▸ hp)
  exact Function.update_of_ne hne ..

section Frame

variable {v v' : PageId → Page} {d h : Nat}

theorem cellsAt_congr {parent after : Option PageId} {c : PTree d}
    (hc : ∀ e ∈ PlusTree.cells parent after c, CellAt v e) (hv : ∀ p ∈ pagesOf c, v' p = v p) :
    ∀ e ∈ PlusTree.cells parent after c, CellAt v' e :=
  fun e he => (hc e he).congr (hv e.1 (PlusTree.cells_owned Slot.pages c he))

theorem slotsAt_congr {c : PTree d} (hs : SlotsAt v c.leaves) (hv : ∀ p ∈ pagesOf c, v' p = v p) :
    SlotsAt v' c.leaves :=
  fun _ hl _ hr => (hs _ hl _ hr).congr (fun p hp => hv p (c.record_owned Slot.pages hl hr hp))

theorem ctxCellsAt_congr {ctx : PCtx d h} {hole : PageId} {first : Option PageId}
    (hc : ∀ e ∈ ctx.cells hole first, CellAt v e) (hv : ∀ p ∈ ctx.owned Slot.pages, v' p = v p) :
    ∀ e ∈ ctx.cells hole first, CellAt v' e :=
  fun e he => (hc e he).congr (hv e.1 (ctx.cells_owned Slot.pages he))

theorem ctxSlotsAt_congr {ctx : PCtx d h} (hs : SlotsAt v (ctx.leavesL ++ ctx.leavesR))
    (hv : ∀ p ∈ ctx.owned Slot.pages, v' p = v p) : SlotsAt v' (ctx.leavesL ++ ctx.leavesR) :=
  fun _ hl _ hr => (hs _ hl _ hr).congr
    (fun p hp => hv p (ctx.record_owned Slot.pages (List.mem_append.mp hl) hr hp))

theorem Represents.congr {t : PTree d} (hr : Represents v t) (hv : ∀ p ∈ pagesOf t, v' p = v p) :
    Represents v' t :=
  ⟨hr.shaped, hr.ordered, hr.nodup, cellsAt_congr hr.cells hv, slotsAt_congr hr.slots hv⟩

end Frame

/-! ## Pointers read from a page -/

/-- The pointers of a node are not the encoding of "no page". -/
def Node.PointersOk : Node → Prop
  | .leaf l => l.parentPageId ≠ some u32Max ∧ l.nextLeaf ≠ some u32Max
  | .internal i => i.parentPageId ≠ some u32Max

theorem optionOfId_ne (n : UInt32) : optionOfId n ≠ some u32Max := by
  unfold optionOfId
  split
  · exact fun h => absurd h (by simp)
  · rename_i hne
    intro h
    injection h with h
    exact hne h

/-- A node that was read from a page has proper pointers, whatever the page is. -/
theorem Node.fromPage_pointers {page : Page} {n : Node} (h : Node.fromPage page = .ok n) :
    n.PointersOk := by
  have hslice : ∀ a b, a ≤ b ∧ b ≤ pageSize →
      page.slice a b = .ok (ByteString.slice page.data a b) := fun a b hab => if_pos hab
  unfold Node.fromPage at h
  rw [hslice 0 1 (by decide), hslice 1 3 (by decide), hslice 3 7 (by decide)] at h
  simp only [bind, Except.bind] at h
  split at h
  · rw [hslice 7 11 (by decide)] at h
    dsimp only at h
    split at h
    · exact absurd h (by simp)
    · injection h with h
      rw [← h]
      exact ⟨optionOfId_ne _, optionOfId_ne _⟩
  · split at h
    · exact absurd h (by simp)
    · split at h
      · exact absurd h (by simp)
      · injection h with h
        rw [← h]
        exact optionOfId_ne _

end MagnumDB
