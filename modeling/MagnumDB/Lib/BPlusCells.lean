import MagnumDB.Lib.BPlusTree

/-!
# A B+ tree laid out in memory

What must be stored at each node of a tree: the separators and the places of the
children, the records, and two kinds of redundant pointers, one from every node
to the node above it and one from every leaf to the next leaf.

`cells` lists it for a whole tree, `Ctx.cells` for a tree with a hole, and
`plug_cells` says that nothing is lost when the two are put together. What a
context stores depends on the tree in its hole only through the place of that
tree and of its first leaf, which is why a node can be split without touching
anything to its left.
-/

namespace BPlus

open List

variable {P K V : Type} {d h : Nat}

/-- What is stored at one node. -/
inductive Cell (P K V : Type) where
  | leaf (parent next : Option P) (recs : List (K × V))
  | inner (parent : Option P) (keys : List K) (children : List P)

/-- The cell with another pointer upwards. -/
def Cell.setParent (p : P) : Cell P K V → Cell P K V
  | .leaf _ next recs => .leaf (some p) next recs
  | .inner _ keys children => .inner (some p) keys children

/-- Where the first leaf of a row of subtrees is, or `after` if there is none. -/
def firstOf (cs : List (PlusTree P K V d)) (after : Option P) : Option P :=
  ((cs.flatMap PlusTree.leaves).head?.map Leaf.id).or after

theorem firstOf_append (cs₁ cs₂ : List (PlusTree P K V d)) (after : Option P) :
    firstOf (cs₁ ++ cs₂) after = firstOf cs₁ (firstOf cs₂ after) := by
  unfold firstOf
  rw [flatMap_append, head?_append]
  cases (cs₁.flatMap PlusTree.leaves).head? <;> rfl

theorem firstOf_cons (c : PlusTree P K V d) (cs : List (PlusTree P K V d)) (after : Option P) :
    firstOf (c :: cs) after = firstOf [c] (firstOf cs after) :=
  firstOf_append [c] cs after

theorem firstOf_node (i : P) (keys : List K) (kids : List (PlusTree P K V d)) (after : Option P) :
    firstOf [PlusTree.node i keys kids] after = firstOf kids after := by
  simp [firstOf]

theorem firstOf_leaf (i : P) (recs : List (K × V)) (after : Option P) :
    firstOf [PlusTree.leaf i recs] after = some i := by
  simp [firstOf]

/-- A tree has a first leaf, so what comes after it does not matter. -/
theorem firstOf_shaped {c : PlusTree P K V d} (hs : c.Shaped) (cs : List (PlusTree P K V d))
    (a b : Option P) : firstOf (c :: cs) a = firstOf [c] b := by
  have hne := c.leaves_ne_nil hs
  unfold firstOf
  cases hl : c.leaves with
  | nil => exact absurd hl hne
  | cons l ls => simp [hl]

namespace PlusTree

/-- What is stored at the top node. -/
def topCell (parent after : Option P) : {d : Nat} → PlusTree P K V d → Cell P K V
  | 0, t => .leaf parent after (Leaf.recs t)
  | _ + 1, t => .inner parent (Branch.keys t) ((Branch.kids t).map PlusTree.id)

/-- What a row of subtrees stores, given what each of them does. -/
def rowWith {X : Type} (f : Option P → PlusTree P K V d → List X) (after : Option P) :
    List (PlusTree P K V d) → List X
  | [] => []
  | c :: cs => f (firstOf cs after) c ++ rowWith f after cs

/-- What is stored below the top node, `after` being the leaf that follows the tree. -/
def below : {d : Nat} → Option P → PlusTree P K V d → List (P × Cell P K V)
  | 0, _, _ => []
  | _ + 1, after, t =>
    rowWith (fun a c => (c.id, topCell (some (Branch.id t)) a c) :: below a c) after
      (Branch.kids t)

/-- What is stored at every node. -/
def cells (parent after : Option P) (t : PlusTree P K V d) : List (P × Cell P K V) :=
  (t.id, topCell parent after t) :: below after t

/-- What a row of siblings stores. -/
def row (parent after : Option P) (cs : List (PlusTree P K V d)) : List (P × Cell P K V) :=
  rowWith (cells parent) after cs

theorem cells_leaf (parent after : Option P) (i : P) (recs : List (K × V)) :
    cells parent after (leaf i recs) = [(i, .leaf parent after recs)] := rfl

theorem cells_node (parent after : Option P) (i : P) (keys : List K)
    (kids : List (PlusTree P K V d)) :
    cells parent after (node i keys kids)
      = (i, .inner parent keys (kids.map PlusTree.id)) :: row (some i) after kids := rfl

theorem row_cons (parent after : Option P) (c : PlusTree P K V d) (cs : List (PlusTree P K V d)) :
    row parent after (c :: cs) = cells parent (firstOf cs after) c ++ row parent after cs := rfl

theorem row_append (parent after : Option P) (cs₁ cs₂ : List (PlusTree P K V d)) :
    row parent after (cs₁ ++ cs₂) = row parent (firstOf cs₂ after) cs₁ ++ row parent after cs₂ := by
  induction cs₁ with
  | nil => rfl
  | cons c cs₁ ih =>
    rw [cons_append, row_cons, row_cons, ih, firstOf_append, append_assoc]

theorem topCell_setParent (parent after : Option P) (p : P) (t : PlusTree P K V d) :
    (topCell parent after t).setParent p = topCell (some p) after t := by
  cases d with
  | zero => rfl
  | succ d => rfl

variable {after : Option P} {cs : List (PlusTree P K V d)}

variable {X : Type} {parent : Option P} {e : P × Cell P K V} {l : Leaf P K V} {r : K × V}

theorem rowWith_mem {f : Option P → PlusTree P K V d → List X} {x : X}
    (hx : x ∈ rowWith f after cs) :
    ∃ c ∈ cs, ∃ a, x ∈ f a c := by
  induction cs with
  | nil => exact absurd hx (by simp [rowWith])
  | cons c cs ih =>
    rcases mem_append.mp hx with hx | hx
    · exact ⟨c, mem_cons_self .., _, hx⟩
    · obtain ⟨c', hc', a, ha⟩ := ih hx
      exact ⟨c', mem_cons_of_mem _ hc', a, ha⟩

/-- Cells are stored where the tree is. -/
theorem cells_owned (own : V → List P) (t : PlusTree P K V d) (he : e ∈ cells parent after t) :
    e.1 ∈ t.owned own := by
  induction t using PlusTree.inductionOn generalizing parent after with
  | leaf i recs =>
    rw [cells_leaf, mem_singleton] at he
    rw [he]
    exact mem_cons_self ..
  | node i keys kids ih =>
    rw [cells_node] at he
    rcases mem_cons.mp he with he | he
    · rw [he]; exact mem_cons_self ..
    · obtain ⟨c, hc, a, ha⟩ := rowWith_mem he
      exact mem_cons_of_mem _ (mem_flatMap.mpr ⟨c, hc, ih c hc ha⟩)

theorem row_owned (own : V → List P) (he : e ∈ row parent after cs) :
    e.1 ∈ cs.flatMap (owned own) := by
  obtain ⟨c, hc, a, ha⟩ := rowWith_mem he
  exact mem_flatMap.mpr ⟨c, hc, cells_owned own c ha⟩

/-- The cells below the top are stored elsewhere than the top. -/
theorem below_ne (own : V → List P) {t : PlusTree P K V d} (hn : (t.owned own).Nodup)
    (he : e ∈ below after t) : e.1 ∈ t.owned own ∧ e.1 ≠ t.id := by
  cases d with
  | zero => exact absurd he (by simp [below])
  | succ d =>
    obtain ⟨i, keys, kids, rfl⟩ := t.exists_node
    have hrow : e ∈ row (some i) after kids := he
    have hm : e.1 ∈ kids.flatMap (owned own) := row_owned own hrow
    rw [owned_node] at hn
    refine ⟨mem_cons_of_mem _ hm, fun heq => (nodup_cons.mp hn).1 ?_⟩
    rw [id_node] at heq
    rw [← heq]
    exact hm

theorem id_mem_owned (own : V → List P) (t : PlusTree P K V d) : t.id ∈ t.owned own := by
  cases d with
  | zero => exact mem_cons_self ..
  | succ d => exact mem_cons_self ..

theorem sublist_flatMap {α β : Type} {f : α → List β} {l : List α} {a : α} (h : a ∈ l) :
    (f a).Sublist (l.flatMap f) := by
  rw [flatMap_def]
  exact sublist_flatten_of_mem (mem_map_of_mem h)

theorem record_sublist (own : V → List P) (t : PlusTree P K V d) (hl : l ∈ t.leaves)
    (hr : r ∈ l.recs) : (own r.2).Sublist (t.owned own) := by
  induction t using PlusTree.inductionOn with
  | leaf i recs =>
    rw [leaves_leaf, mem_singleton] at hl
    subst hl
    have hsub : (own r.2).Sublist (recs.flatMap (fun x => own x.2)) :=
      sublist_flatMap (f := fun x : K × V => own x.2) hr
    exact hsub.trans (sublist_cons_self ..)
  | node i keys kids ih =>
    rw [leaves_node] at hl
    obtain ⟨c, hc, hlc⟩ := mem_flatMap.mp hl
    exact ((ih c hc hlc).trans (sublist_flatMap hc)).trans (sublist_cons_self ..)

theorem record_owned (own : V → List P) (t : PlusTree P K V d) (hl : l ∈ t.leaves) (hr : r ∈ l.recs)
    {p : P} (hp : p ∈ own r.2) : p ∈ t.owned own :=
  (t.record_sublist own hl hr).subset hp

theorem record_ne_id (own : V → List P) {t : PlusTree P K V d} (hn : (t.owned own).Nodup)
    (hl : l ∈ t.leaves) (hr : r ∈ l.recs) : t.id ∉ own r.2 := by
  have hsub : (t.id :: own r.2).Sublist (t.owned own) := by
    cases d with
    | zero =>
      obtain ⟨i, recs, rfl⟩ := t.exists_leaf
      rw [leaves_leaf, mem_singleton] at hl
      subst hl
      have hsub : (own r.2).Sublist (recs.flatMap (fun x => own x.2)) :=
        sublist_flatMap (f := fun x : K × V => own x.2) hr
      exact hsub.cons_cons i
    | succ d =>
      obtain ⟨i, keys, kids, rfl⟩ := t.exists_node
      rw [leaves_node] at hl
      obtain ⟨c, hc, hlc⟩ := mem_flatMap.mp hl
      exact ((c.record_sublist own hlc hr).trans (sublist_flatMap hc)).cons_cons i
  exact (nodup_cons.mp (hn.sublist hsub)).1

/-- What a record owns is not where any node of the row it is in starts. -/
theorem row_record_ne_id (own : V → List P) (hn : (cs.flatMap (owned own)).Nodup)
    (hl : l ∈ cs.flatMap leaves) (hr : r ∈ l.recs) {p : P} (hp : p ∈ own r.2) :
    p ∉ cs.map PlusTree.id := by
  induction cs with
  | nil => exact not_mem_nil
  | cons c cs ih =>
    rw [flatMap_cons] at hn hl
    obtain ⟨hc, hcs, hdis⟩ := nodup_append.mp hn
    have hrest : ∀ q ∈ cs.map PlusTree.id, q ∈ cs.flatMap (owned own) := by
      intro q hq
      obtain ⟨x, hx, hxe⟩ := mem_map.mp hq
      exact mem_flatMap.mpr ⟨x, hx, hxe ▸ x.id_mem_owned own⟩
    rw [map_cons, mem_cons, not_or]
    rcases mem_append.mp hl with hl | hl
    · have hpc := c.record_owned own hl hr hp
      exact ⟨fun he => record_ne_id own hc hl hr (he ▸ hp),
        fun hm => hdis p hpc p (hrest p hm) rfl⟩
    · obtain ⟨x, hx, hlx⟩ := mem_flatMap.mp hl
      have hpcs : p ∈ cs.flatMap (owned own) :=
        mem_flatMap.mpr ⟨x, hx, x.record_owned own hlx hr hp⟩
      exact ⟨fun he => hdis c.id (c.id_mem_owned own) p hpcs he.symm, ih hcs hl⟩

theorem leaves_sublist (own : V → List P) (t : PlusTree P K V d) :
    (t.leaves.map Leaf.id).Sublist (t.owned own) := by
  induction t using PlusTree.inductionOn with
  | leaf i recs => exact (nil_sublist _).cons_cons i
  | node i keys kids ih =>
    have hrow : ((kids.flatMap leaves).map Leaf.id).Sublist (kids.flatMap (owned own)) := by
      induction kids with
      | nil => exact List.Sublist.refl _
      | cons c cs ihk =>
        rw [flatMap_cons, map_append, flatMap_cons]
        exact (ih c (mem_cons_self ..)).append
          (ihk (fun x hx => ih x (mem_cons_of_mem _ hx)))
    exact hrow.trans (sublist_cons_self ..)

/-- Every leaf is stored with a pointer to the leaf after it. -/
theorem leaf_cell (parent after : Option P) (t : PlusTree P K V d) :
    ∀ {A : List (Leaf P K V)} {l : Leaf P K V} {B : List (Leaf P K V)}, t.leaves = A ++ l :: B →
    ∃ q, (l.id, Cell.leaf q ((B.head?.map Leaf.id).or after) l.recs) ∈ cells parent after t := by
  induction t using PlusTree.inductionOn generalizing parent after with
  | leaf i recs =>
    intro A l B h
    rw [leaves_leaf, singleton_eq_append_iff] at h
    rcases h with ⟨rfl, h⟩ | ⟨_, h⟩
    · injection h with hl hB
      subst hl hB
      exact ⟨parent, mem_singleton.mpr rfl⟩
    · exact absurd h (by simp)
  | node i keys kids ih =>
    intro A l B h
    rw [leaves_node] at h
    rw [cells_node]
    -- along the row of children, to the one the leaf is in
    have hrow : ∃ q, (l.id, Cell.leaf q ((B.head?.map Leaf.id).or after) l.recs)
        ∈ row (some i) after kids := by
      induction kids generalizing A with
      | nil => exact absurd h (by simp)
      | cons c cs ihk =>
        rw [flatMap_cons] at h
        rw [row_cons]
        rcases append_eq_append_iff.mp h with ⟨A', hA, hrest⟩ | ⟨B', hc, hB⟩
        · obtain ⟨q, hq⟩ := ihk (fun x hx => ih x (mem_cons_of_mem _ hx)) hrest
          exact ⟨q, mem_append_right _ hq⟩
        · cases B' with
          | nil =>
            have hrest : cs.flatMap leaves = [] ++ l :: B := hB.symm
            obtain ⟨q, hq⟩ := ihk (fun x hx => ih x (mem_cons_of_mem _ hx)) hrest
            exact ⟨q, mem_append_right _ hq⟩
          | cons x B' =>
            rw [cons_append] at hB
            injection hB with hx hB
            subst hx
            obtain ⟨q, hq⟩ := ih c (mem_cons_self ..) (some i) (firstOf cs after) hc
            refine ⟨q, mem_append_left _ ?_⟩
            have hnext : ((B.head?.map Leaf.id).or after)
                = (B'.head?.map Leaf.id).or (firstOf cs after) := by
              rw [hB, head?_append, firstOf]
              cases B'.head? <;> rfl
            rw [hnext]
            exact hq
    obtain ⟨q, hq⟩ := hrow
    exact ⟨q, mem_cons_of_mem _ hq⟩

/-- A member of a row comes from one of the trees, all of which is in the row. -/
theorem rowWith_cover {f : Option P → PlusTree P K V d → List X} {x : X}
    (hx : x ∈ rowWith f after cs) :
    ∃ c ∈ cs, ∃ a, x ∈ f a c ∧ ∀ y ∈ f a c, y ∈ rowWith f after cs := by
  induction cs with
  | nil => exact absurd hx (by simp [rowWith])
  | cons c cs ih =>
    rcases mem_append.mp hx with hx | hx
    · exact ⟨c, mem_cons_self .., _, hx, fun y hy => mem_append_left _ hy⟩
    · obtain ⟨c', hc', a, ha, hall⟩ := ih hx
      exact ⟨c', mem_cons_of_mem _ hc', a, ha, fun y hy => mem_append_right _ (hall y hy)⟩

theorem rowWith_of_mem (f : Option P → PlusTree P K V d → List X) (after : Option P)
    {c : PlusTree P K V d} (hc : c ∈ cs) : ∃ a, ∀ y ∈ f a c, y ∈ rowWith f after cs := by
  induction cs with
  | nil => exact absurd hc not_mem_nil
  | cons c' cs ih =>
    rcases mem_cons.mp hc with rfl | hc
    · exact ⟨_, fun y hy => mem_append_left _ hy⟩
    · obtain ⟨a, ha⟩ := ih hc
      exact ⟨a, fun y hy => mem_append_right _ (ha y hy)⟩

theorem cell_child (t : PlusTree P K V d) {i q : P} {p : Option P} {keys : List K}
    {children : List P} (he : (i, Cell.inner p keys children) ∈ cells parent after t)
    (hq : q ∈ children) : ∃ cell, (q, cell) ∈ cells parent after t := by
  induction t using PlusTree.inductionOn generalizing parent after with
  | leaf j recs =>
    rw [cells_leaf, mem_singleton] at he
    exact absurd (Prod.mk.inj he).2 (by simp)
  | node j ks kids ih =>
    rw [cells_node] at he ⊢
    rcases mem_cons.mp he with he | he
    · injection (Prod.mk.inj he).2 with _ _ hch
      rw [hch] at hq
      obtain ⟨c, hc, rfl⟩ := mem_map.mp hq
      obtain ⟨a, ha⟩ := rowWith_of_mem (cells (some j)) after hc
      exact ⟨_, mem_cons_of_mem _ (ha _ (mem_cons_self ..))⟩
    · obtain ⟨c, hc, a, ha, hall⟩ := rowWith_cover he
      obtain ⟨cell, hcell⟩ := ih c hc ha
      exact ⟨cell, mem_cons_of_mem _ (hall _ hcell)⟩

/-- What is stored as a leaf is a leaf of the tree. -/
theorem cell_leaf (t : PlusTree P K V d) {i : P} {p n : Option P} {recs : List (K × V)}
    (he : (i, Cell.leaf p n recs) ∈ cells parent after t) : ⟨i, recs⟩ ∈ t.leaves := by
  induction t using PlusTree.inductionOn generalizing parent after with
  | leaf j rs =>
    rw [cells_leaf, mem_singleton] at he
    obtain ⟨rfl, hc⟩ := Prod.mk.inj he
    injection hc with _ _ hr
    rw [hr]
    exact mem_singleton.mpr rfl
  | node j ks kids ih =>
    rw [cells_node] at he
    rcases mem_cons.mp he with he | he
    · exact absurd (Prod.mk.inj he).2 (by simp)
    · obtain ⟨c, hc, a, ha⟩ := rowWith_mem he
      rw [leaves_node]
      exact mem_flatMap.mpr ⟨c, hc, ih c hc ha⟩

/-- A tree occupies the places of its nodes and what its records own. -/
theorem owned_perm (own : V → List P) (parent after : Option P) (t : PlusTree P K V d) :
    (t.owned own).Perm ((cells parent after t).map Prod.fst ++
      t.leaves.flatMap (fun l => l.recs.flatMap (fun r => own r.2))) := by
  induction t using PlusTree.inductionOn generalizing parent after with
  | leaf j recs => simp [cells_leaf]
  | node j ks kids ih =>
    rw [cells_node, owned_node, leaves_node, map_cons, cons_append]
    refine List.Perm.cons _ ?_
    induction kids with
    | nil => exact List.Perm.refl _
    | cons c cs ihk =>
      have hc := ih c (mem_cons_self ..) (some j) (firstOf cs after)
      have hcs := ihk (fun x hx => ih x (mem_cons_of_mem _ hx))
      rw [flatMap_cons, row_cons, map_append, flatMap_cons, flatMap_append,
        append_assoc]
      refine (hc.append hcs).trans ?_
      rw [append_assoc]
      refine List.Perm.append_left _ ?_
      exact perm_append_comm_assoc ..

end PlusTree

/-! ## Around a hole -/

namespace Ctx

/-- Where the first leaf to the right of the hole is. -/
def after : {d h : Nat} → Ctx P K V d h → Option P
  | _, _, .top => none
  | _, _, .frame _ _ _ _ cs₂ up => firstOf cs₂ (after up)

theorem after_eq : ∀ {d h : Nat} (ctx : Ctx P K V d h),
    ctx.after = ctx.leavesR.head?.map Leaf.id
  | _, _, .top => rfl
  | _, _, .frame _ _ _ _ cs₂ up => by
    rw [after, after_eq up, leavesR, head?_append, firstOf]
    cases (cs₂.flatMap PlusTree.leaves).head? <;> rfl

/-- What a context stores, around a tree placed at `hole` whose first leaf is at `first`. -/
def cells (hole : P) (first : Option P) : {d h : Nat} → Ctx P K V d h → List (P × Cell P K V)
  | _, _, .top => []
  | _, _, .frame i ks₁ cs₁ ks₂ cs₂ up =>
    (i, .inner up.parent (ks₁ ++ ks₂) (cs₁.map PlusTree.id ++ hole :: cs₂.map PlusTree.id)) ::
      (PlusTree.row (some i) first cs₁ ++ (PlusTree.row (some i) up.after cs₂ ++
        cells i (firstOf cs₁ first) up))

/-- A tree and its context store what the plugged tree stores. -/
theorem plug_cells : ∀ {d h : Nat} (ctx : Ctx P K V d h) (t : PlusTree P K V d),
    (PlusTree.cells none none (ctx.plug t)).Perm
      (PlusTree.cells ctx.parent ctx.after t ++ ctx.cells t.id (firstOf [t] ctx.after))
  | _, _, .top, t => by
    show (PlusTree.cells none none t).Perm (PlusTree.cells none none t ++ [])
    rw [append_nil]
  | _, _, .frame i ks₁ cs₁ ks₂ cs₂ up, t => by
    have ih := plug_cells up (.node i (ks₁ ++ ks₂) (cs₁ ++ t :: cs₂))
    refine ih.trans ?_
    rw [PlusTree.cells_node, PlusTree.row_append, PlusTree.row_cons, firstOf_node, firstOf_append,
      firstOf_cons, PlusTree.id_node, map_append, map_cons, cells, cons_append]
    -- the node itself, then its left children, move past the tree in the hole
    refine List.Perm.trans ?_ perm_middle.symm
    refine List.Perm.cons _ ?_
    rw [append_assoc, append_assoc]
    exact perm_append_comm_assoc ..

theorem cells_owned (own : V → List P) : ∀ {d h : Nat} (ctx : Ctx P K V d h)
    {first : Option P} {hole : P} {e : P × Cell P K V}, e ∈ ctx.cells hole first →
    e.1 ∈ ctx.owned own
  | _, _, .top, _, _, _, he => absurd he (by simp [cells])
  | _, _, .frame i ks₁ cs₁ ks₂ cs₂ up, first, hole, e, he => by
    rw [owned]
    rcases mem_cons.mp he with he | he
    · rw [he]; exact mem_cons_self ..
    · refine mem_cons_of_mem _ ?_
      rcases mem_append.mp he with he | he
      · exact mem_append_left _ (PlusTree.row_owned own he)
      · rcases mem_append.mp he with he | he
        · exact mem_append_right _ (mem_append_left _ (PlusTree.row_owned own he))
        · exact mem_append_right _ (mem_append_right _ (cells_owned own up he))

theorem record_owned (own : V → List P) : ∀ {d h : Nat} (ctx : Ctx P K V d h) {l : Leaf P K V},
    l ∈ ctx.leavesL ∨ l ∈ ctx.leavesR → ∀ {r : K × V}, r ∈ l.recs → ∀ {p : P}, p ∈ own r.2 →
    p ∈ ctx.owned own
  | _, _, .top, _, hl, _, _, _, _ => absurd hl (by simp [leavesL, leavesR])
  | d, _, .frame i ks₁ cs₁ ks₂ cs₂ up, l, hl, r, hr, p, hp => by
    have hrow : ∀ {cs : List (PlusTree P K V d)}, l ∈ cs.flatMap PlusTree.leaves →
        p ∈ cs.flatMap (PlusTree.owned own) := by
      intro cs hm
      obtain ⟨c, hc, hlc⟩ := mem_flatMap.mp hm
      exact mem_flatMap.mpr ⟨c, hc, c.record_owned own hlc hr hp⟩
    rw [leavesL, leavesR, mem_append, mem_append] at hl
    rw [owned]
    refine mem_cons_of_mem _ ?_
    rcases hl with (hl | hl) | (hl | hl)
    · exact mem_append_right _ (mem_append_right _
        (record_owned own up (Or.inl hl) hr hp))
    · exact mem_append_left _ (hrow hl)
    · exact mem_append_right _ (mem_append_left _ (hrow hl))
    · exact mem_append_right _ (mem_append_right _
        (record_owned own up (Or.inr hl) hr hp))

end Ctx

end BPlus
