import MagnumDB.Storage.TreeSearch
import MagnumDB.Storage.NodeRead

/-!
# The chain of leaves

The leaves of a tree can be listed without going through its inner nodes: down the first children to
the leftmost leaf, and from there along the pointers from leaf to leaf. `LeftSpine` and `LeafRow` say
what this way consists of. They say less than `Represents`, and that is what they are for: when a leaf
is taken out of the chain, a node above it is left with a pointer to a page that is free, so the pages
no longer hold a tree, but the way along the leaves is in order.
-/

namespace MagnumDB

open BPlus SortedAssoc Prog List

/-- First children lead from `p` through `d` nodes to the leaf `q`. -/
inductive LeftSpine (v : PageId → Page) (U : Set PageId) : Nat → PageId → PageId → Prop where
  | leaf {p : PageId} {l : LeafNode} : p ∈ U → Node.fromPage (v p) = .ok (.leaf l) → LeftSpine v U 0 p p
  | node {d : Nat} {p q child : PageId} {i : InternalNode} {rest : List PageId} : p ∈ U →
      Node.fromPage (v p) = .ok (.internal i) → i.children = child :: rest → LeftSpine v U d child q →
      LeftSpine v U (d + 1) p q

/-- Each leaf is on its page, with a pointer to the one after it. -/
def LeafRow (v : PageId → Page) (U : Set PageId) : List (Leaf PageId Bytes Slot) → Prop
  | [] => True
  | l :: rest => l.id ∈ U ∧ (∃ parent, Node.fromPage (v l.id)
      = .ok (.leaf ⟨parent, rest.head?.map Leaf.id, storedRecords l.recs⟩)) ∧ LeafRow v U rest

section Pages

variable {v v' : PageId → Page} {U U' : Set PageId} {d : Nat}

/-- Inner nodes have to stay as they are, of the leaf only that it is one. -/
theorem LeftSpine.congr {p q : PageId} (h : LeftSpine v U d p q)
    (hinner : ∀ p ∈ U, ∀ i, Node.fromPage (v p) = .ok (.internal i) →
      p ∈ U' ∧ Node.fromPage (v' p) = .ok (.internal i))
    (hleaf : q ∈ U' ∧ ∃ l, Node.fromPage (v' q) = .ok (.leaf l)) : LeftSpine v' U' d p q := by
  induction h with
  | leaf _ _ =>
    obtain ⟨hq, l, hl⟩ := hleaf
    exact .leaf hq hl
  | node hp hn hchildren _ ih =>
    obtain ⟨hp', hn'⟩ := hinner _ hp _ hn
    exact .node hp' hn' hchildren (ih hleaf)

variable {c : PTree d}

/-- The way to the leftmost leaf of a tree. -/
theorem leftSpine_of_cells : ∀ {parent after : Option PageId}, c.Shaped →
    (∀ e ∈ PlusTree.cells parent after c, e.1 ∈ U ∧ CellAt v e) →
    ∃ l, c.leaves.head? = some l ∧ LeftSpine v U d c.id l.id := by
  induction c using PlusTree.inductionOn with
  | leaf id recs =>
    intro parent after _ hcells
    obtain ⟨hU, hcell⟩ := hcells _ (mem_cons_self ..)
    exact ⟨⟨id, recs⟩, rfl, .leaf hU hcell.1⟩
  | node id keys kids ih =>
    intro parent after hs hcells
    obtain ⟨hlen, hkids⟩ := PlusTree.shaped_node.mp hs
    obtain ⟨hU, hcell⟩ := hcells _ (mem_cons_self ..)
    cases kids with
    | nil => exact absurd hlen (by simp)
    | cons c cs =>
      have hfirst : ∀ e ∈ PlusTree.cells (some id) (firstOf cs after) c, e.1 ∈ U ∧ CellAt v e := by
        intro e he
        refine hcells e ?_
        rw [PlusTree.cells_node, PlusTree.row_cons]
        exact mem_cons_of_mem _ (mem_append_left _ he)
      obtain ⟨l, hl, hspine⟩ := ih c (mem_cons_self ..) (hkids c (mem_cons_self ..)) hfirst
      refine ⟨l, ?_, .node hU hcell.1 rfl hspine⟩
      rw [PlusTree.leaves_node, flatMap_cons, head?_append, hl]
      rfl

/-- The leaves of a tree, from any of them on. -/
theorem leafRow_of_cells (hcells : ∀ e ∈ PlusTree.cells none none c, e.1 ∈ U ∧ CellAt v e) :
    ∀ {B A : List (Leaf PageId Bytes Slot)}, c.leaves = A ++ B → LeafRow v U B := by
  intro B
  induction B with
  | nil => exact fun _ => trivial
  | cons l B ih =>
    intro A hleaves
    obtain ⟨parent, hcell⟩ := PlusTree.leaf_cell none none c hleaves
    obtain ⟨hU, hpage, -⟩ := hcells _ hcell
    rw [Option.or_none] at hpage
    refine ⟨hU, ⟨parent, hpage⟩, ih (A := A ++ [l]) ?_⟩
    rw [hleaves, append_assoc]
    rfl

theorem LeafRow.tail {A B : List (Leaf PageId Bytes Slot)} (h : LeafRow v U (A ++ B)) : LeafRow v U B := by
  induction A with
  | nil => exact h
  | cons l A ih => exact ih h.2.2

theorem LeafRow.congr {ls : List (Leaf PageId Bytes Slot)} (h : LeafRow v U ls)
    (hsame : ∀ l ∈ ls, (l.id ∈ U → l.id ∈ U') ∧ v' l.id = v l.id) : LeafRow v' U' ls := by
  induction ls with
  | nil => trivial
  | cons l ls ih =>
    obtain ⟨hU, ⟨parent, hpage⟩, hrest⟩ := h
    obtain ⟨hU', hv⟩ := hsame l (mem_cons_self ..)
    refine ⟨hU' hU, ⟨parent, ?_⟩, ih hrest fun x hx => hsame x (mem_cons_of_mem l hx)⟩
    rw [hv]
    exact hpage

/-- A leaf is skipped: the one before it is written anew with the pointer of the one left out. -/
theorem LeafRow.skip {prev x : Leaf PageId Bytes Slot} {page : Page} {parent : Option PageId}
    {A B : List (Leaf PageId Bytes Slot)} (h : LeafRow v U (A ++ prev :: x :: B))
    (hnodup : ((A ++ prev :: x :: B).map Leaf.id).Nodup)
    (hpage : Node.fromPage page = .ok (.leaf ⟨parent, B.head?.map Leaf.id, storedRecords prev.recs⟩)) :
    LeafRow (Function.update v prev.id page) (U \ {x.id}) (A ++ prev :: B) := by
  induction A with
  | nil =>
    rw [nil_append, map_cons, map_cons, nodup_cons, nodup_cons] at hnodup
    obtain ⟨hprev, hx, -⟩ := hnodup
    obtain ⟨hU, -, -, -, hB⟩ := h
    have hne : prev.id ≠ x.id := by
      intro he
      rw [he] at hprev
      exact hprev (mem_cons_self ..)
    refine ⟨⟨hU, hne⟩, ⟨parent, ?_⟩, hB.congr ?_⟩
    · rw [Function.update_self]
      exact hpage
    · intro l hl
      have hmem := mem_map_of_mem (f := Leaf.id) hl
      have hlx : l.id ≠ x.id := fun he => hx (he ▸ hmem)
      have hlprev : l.id ≠ prev.id := fun he => hprev (he ▸ mem_cons_of_mem _ hmem)
      exact ⟨fun hl => ⟨hl, hlx⟩, Function.update_of_ne hlprev ..⟩
  | cons a A ih =>
    rw [cons_append, map_cons, nodup_cons] at hnodup
    obtain ⟨ha, hnodup⟩ := hnodup
    obtain ⟨hU, ⟨q, hq⟩, hrest⟩ := h
    have hnot : ∀ y ∈ A ++ prev :: x :: B, a.id ≠ y.id := fun y hy he =>
      ha (he ▸ mem_map_of_mem (f := Leaf.id) hy)
    have hhead : (A ++ prev :: B).head? = (A ++ prev :: x :: B).head? := by
      cases A with
      | nil => rfl
      | cons b A => rfl
    refine ⟨⟨hU, hnot x (by simp)⟩, ⟨q, ?_⟩, ih hrest hnodup⟩
    rw [Function.update_of_ne (hnot prev (by simp))]
    show _ = Except.ok (Node.leaf ⟨q, (A ++ prev :: B).head?.map Leaf.id, _⟩)
    rw [hhead]
    exact hq

/-- The way along the leaves is in order, and the leaves have these records. -/
def ListsRecords (v : PageId → Page) (U : Set PageId) (d : Nat) (root : PageId)
    (recs : List (Bytes × Slot)) : Prop :=
  ∃ first rest, LeftSpine v U d root first.id ∧ LeafRow v U (first :: rest) ∧
    (first :: rest).flatMap Leaf.recs = recs

theorem listsRecords_of_cells (hs : c.Shaped)
    (hcells : ∀ e ∈ PlusTree.cells none none c, e.1 ∈ U ∧ CellAt v e) :
    ListsRecords v U d c.id c.records := by
  obtain ⟨first, hfirst, hspine⟩ := leftSpine_of_cells hs hcells
  obtain ⟨rest, hleaves⟩ := head?_eq_some_iff.mp hfirst
  refine ⟨first, rest, hspine, leafRow_of_cells hcells (A := []) hleaves, ?_⟩
  rw [← hleaves, PlusTree.records_eq_leaves c hs]

end Pages

namespace BTree

/-! ## Walking along the chain -/

section Walk

variable {σ : Type} (S : PageStore σ)

/-- The records of a leaf and of those after it, along the pointers. -/
def leafChain : Nat → PageId → Prog Fail (BTree σ) (List (Bytes × Bytes))
  | 0, _ => Prog.fail .outOfFuel
  | fuel + 1, pageId => do
    match ← readNode S pageId with
    | .internal _ => pure []
    | .leaf l =>
      match l.nextLeaf with
      | none => pure l.records
      | some next => do
        let rest ← leafChain fuel next
        pure (l.records ++ rest)

/-- The records of all leaves, from the leftmost on. -/
def leafRecords (fuel : Nat) : Prog Fail (BTree σ) (List (Bytes × Bytes)) := do
  let first ← findLeftmostLeaf S fuel (← Prog.get).rootPageId
  leafChain S fuel first

end Walk

section Specs

variable {σ : Type} {S : PageStore σ} {L : S.Laws} {t : BTree σ} {U : Set PageId} {v : PageId → Page}
  {r : PageId} {E : Fail → BTree σ → Prop}

variable {fuel : Nat}

/-- `find_leftmost_leaf` goes down the spine. -/
theorem wp_findLeftmostLeaf {p q : PageId} {d : Nat} {Q : PageId → BTree σ → Prop}
    (hspine : LeftSpine v U d p q) (hat : At L t U v r) (hE : ∀ t', E .stopped t')
    (hfuel : d < fuel) (hQ : ∀ t', At L t' U v r → Q q t') :
    (findLeftmostLeaf S fuel p).wp t Q E := by
  induction hspine generalizing fuel t with
  | leaf hp hl =>
    obtain ⟨fuel, rfl⟩ := Nat.exists_eq_add_one_of_ne_zero (Nat.ne_of_gt (Nat.zero_lt_of_lt hfuel))
    rw [findLeftmostLeaf]
    exact wp_bind (wp_readNode hat hE hp hl fun t' hat' => wp_pure (hQ t' hat'))
  | node hp hn hchildren _ ih =>
    obtain ⟨fuel, rfl⟩ := Nat.exists_eq_add_one_of_ne_zero (Nat.ne_of_gt (Nat.zero_lt_of_lt hfuel))
    rw [findLeftmostLeaf]
    refine wp_bind (wp_readNode hat hE hp hn fun t' hat' => ?_)
    dsimp only
    rw [hchildren]
    exact ih hat' (by omega) hQ

theorem wp_leafChain {l : Leaf PageId Bytes Slot} {rest : List (Leaf PageId Bytes Slot)}
    {Q : List (Bytes × Bytes) → BTree σ → Prop} (hrow : LeafRow v U (l :: rest))
    (hat : At L t U v r) (hE : ∀ t', E .stopped t') (hfuel : rest.length < fuel)
    (hQ : ∀ t', At L t' U v r → Q (storedRecords ((l :: rest).flatMap Leaf.recs)) t') :
    (leafChain S fuel l.id).wp t Q E := by
  induction rest generalizing l fuel t Q with
  | nil =>
    obtain ⟨fuel, rfl⟩ := Nat.exists_eq_add_one_of_ne_zero (Nat.ne_of_gt (Nat.zero_lt_of_lt hfuel))
    obtain ⟨hU, ⟨parent, hpage⟩, -⟩ := hrow
    rw [flatMap_cons, flatMap_nil, append_nil] at hQ
    rw [leafChain]
    exact wp_bind (wp_readNode hat hE hU hpage fun t' hat' => wp_pure (hQ t' hat'))
  | cons l' rest ih =>
    obtain ⟨fuel, rfl⟩ := Nat.exists_eq_add_one_of_ne_zero (Nat.ne_of_gt (Nat.zero_lt_of_lt hfuel))
    obtain ⟨hU, ⟨parent, hpage⟩, hrest⟩ := hrow
    rw [length_cons] at hfuel
    rw [leafChain]
    refine wp_bind (wp_readNode hat hE hU hpage fun t₁ hat₁ => ?_)
    refine wp_bind (ih hrest hat₁ (by omega) fun t₂ hat₂ => wp_pure ?_)
    have hsplit : storedRecords ((l :: l' :: rest).flatMap Leaf.recs)
        = storedRecords l.recs ++ storedRecords ((l' :: rest).flatMap Leaf.recs) := by
      rw [flatMap_cons, storedRecords_append]
    rw [hsplit] at hQ
    exact hQ t₂ hat₂

/-- **The walk along the leaves lists their records.** -/
theorem wp_leafRecords {d : Nat} {recs : List (Bytes × Slot)} (hlists : ListsRecords v U d r recs)
    (hat : At L t U v r) (hE : ∀ t', E .stopped t') : ∃ n, ∀ fuel, n ≤ fuel →
      (leafRecords S fuel).wp t (fun found t' => found = storedRecords recs ∧ At L t' U v r) E := by
  obtain ⟨first, rest, hspine, hrow, rfl⟩ := hlists
  refine ⟨d + rest.length + 1, fun fuel hfuel => wp_bind (wp_get ?_)⟩
  rw [hat.rootId]
  refine wp_bind (wp_findLeftmostLeaf hspine hat hE (by omega) fun t' hat' => ?_)
  exact wp_leafChain hrow hat' hE (by omega) fun t'' hat'' => ⟨rfl, hat''⟩

/-! ## Taking a leaf out -/

/-- The walk of `unlink_empty_leaf`: it comes to the leaf before the one it looks for, writes it with
the pointer of that one, and frees the page of that one. -/
theorem wp_unlinkWalk {prev x : Leaf PageId Bytes Slot} {B : List (Leaf PageId Bytes Slot)}
    {l : LeafNode} (hl : l.nextLeaf ≠ some u32Max) {A : List (Leaf PageId Bytes Slot)} {p : PageId}
    {Q : Bool → BTree σ → Prop} (hrow : LeafRow v U (A ++ prev :: x :: B))
    (hnodup : ((A ++ prev :: x :: B).map Leaf.id).Nodup)
    (hp : (A ++ [prev]).head?.map Leaf.id = some p) (hat : At L t U v r) (hE : ∀ t', E .stopped t')
    (hfuel : A.length < fuel) (hQ : ∀ page parent t',
      Node.fromPage page = .ok (.leaf ⟨parent, l.nextLeaf, storedRecords prev.recs⟩) →
      At L t' (U \ {x.id}) (Function.update v prev.id page) r → Q true t') :
    (unlinkWalk S x.id l fuel p).wp t Q E := by
  induction A generalizing fuel p t with
  | nil =>
    obtain ⟨fuel, rfl⟩ := Nat.exists_eq_add_one_of_ne_zero (Nat.ne_of_gt (Nat.zero_lt_of_lt hfuel))
    obtain rfl : prev.id = p := Option.some.inj hp
    obtain ⟨hU, ⟨parent, hpage⟩, hx, -⟩ := hrow
    rw [unlinkWalk]
    refine wp_bind (wp_readNode hat hE hU hpage fun t₁ hat₁ => ?_)
    dsimp only
    rw [if_pos (show Option.map Leaf.id (x :: B).head? = some x.id from rfl)]
    have hparent := (Node.fromPage_pointers hpage).1
    refine wp_bind (wp_writeNode hat₁ hE hU ⟨hparent, hl⟩ (fun t' hbig => ?_) ?_)
    · -- only the pointer is another, so the leaf still fits
      exact absurd (Node.size_le_of_fromPage hpage) hbig
    · intro page t₂ _ hpage' hat₂
      exact wp_bind (wp_freePage hat₂ hE hx fun t₃ hat₃ => wp_pure (hQ page parent t₃ hpage' hat₃))
  | cons a A ih =>
    obtain ⟨fuel, rfl⟩ := Nat.exists_eq_add_one_of_ne_zero (Nat.ne_of_gt (Nat.zero_lt_of_lt hfuel))
    obtain rfl : a.id = p := Option.some.inj hp
    rw [cons_append] at hrow
    obtain ⟨hU, ⟨parent, hpage⟩, hrest⟩ := hrow
    rw [cons_append, map_cons, nodup_cons] at hnodup
    rw [length_cons] at hfuel
    -- the next leaf is not yet the one that is looked for
    obtain ⟨b, hb, hbA⟩ : ∃ b, (A ++ prev :: x :: B).head? = some b ∧ (A ++ [prev]).head? = some b := by
      cases A with
      | nil => exact ⟨prev, rfl, rfl⟩
      | cons b A => exact ⟨b, rfl, rfl⟩
    have hne : b.id ≠ x.id := by
      have hapart := hnodup.2
      rw [append_cons, map_append] at hapart
      refine (nodup_append.mp hapart).2.2 _ (mem_map_of_mem ?_) _ (mem_cons_self ..)
      exact mem_of_mem_head? hbA
    rw [hb] at hpage
    rw [unlinkWalk]
    refine wp_bind (wp_readNode hat hE hU hpage fun t₁ hat₁ => ?_)
    dsimp only [Option.map_some]
    rw [if_neg (fun he => hne (Option.some.inj he))]
    exact ih hrest hnodup.2 (by rw [hbA]; rfl) hat₁ (by omega)

/-- `unlink_empty_leaf` on a leaf that has another one before it. -/
theorem wp_unlinkEmptyLeaf {prev x : Leaf PageId Bytes Slot} {A B : List (Leaf PageId Bytes Slot)}
    {l : LeafNode} (hl : l.nextLeaf = B.head?.map Leaf.id) (hmax : l.nextLeaf ≠ some u32Max)
    {first : PageId} {d : Nat} {Q : Unit → BTree σ → Prop} (hspine : LeftSpine v U d r first)
    (hfirst : (A ++ [prev]).head?.map Leaf.id = some first)
    (hrow : LeafRow v U (A ++ prev :: x :: B)) (hnodup : ((A ++ prev :: x :: B).map Leaf.id).Nodup)
    (hat : At L t U v r) (hE : ∀ t', E .stopped t') (hd : d < fuel) (hfuel : A.length < fuel)
    (hQ : ∀ v' t', At L t' (U \ {x.id}) v' r →
      ListsRecords v' (U \ {x.id}) d r ((A ++ prev :: B).flatMap Leaf.recs) → Q () t') :
    (unlinkEmptyLeaf S fuel x.id l).wp t Q E := by
  obtain ⟨f, rest, hlist, hmem, rfl⟩ : ∃ f rest, A ++ prev :: B = f :: rest ∧ f ∈ A ++ [prev] ∧
      f.id = first := by
    cases A with
    | nil => exact ⟨prev, B, rfl, mem_singleton.mpr rfl, Option.some.inj hfirst⟩
    | cons a A => exact ⟨a, A ++ prev :: B, rfl, mem_cons_self .., Option.some.inj hfirst⟩
  have hne : f.id ≠ x.id := by
    rw [append_cons, map_append] at hnodup
    exact (nodup_append.mp hnodup).2.2 _ (mem_map_of_mem hmem) _ (mem_cons_self ..)
  refine wp_bind (wp_get ?_)
  rw [hat.rootId]
  refine wp_bind (wp_findLeftmostLeaf hspine hat hE hd fun t₁ hat₁ => ?_)
  rw [if_neg hne]
  refine wp_bind (wp_unlinkWalk hmax hrow hnodup hfirst hat₁ hE hfuel ?_)
  intro page parent t₂ hpage hat₂
  rw [if_pos rfl]
  rw [hl] at hpage
  have hrow' := hrow.skip hnodup hpage
  rw [hlist] at hrow'
  refine wp_pure (hQ _ t₂ hat₂ ⟨f, rest, hspine.congr ?_ ?_, hrow', by rw [hlist]⟩)
  · -- an inner node is neither of the two leaves
    intro p hp i hi
    obtain ⟨-, ⟨q, hprev⟩, -, ⟨q', hx⟩, -⟩ := hrow.tail
    have hpx : p ≠ x.id := by
      rintro rfl
      rw [hx] at hi
      exact nomatch hi
    have hpprev : p ≠ prev.id := by
      rintro rfl
      rw [hprev] at hi
      exact nomatch hi
    rw [Function.update_of_ne hpprev]
    exact ⟨⟨hp, hpx⟩, hi⟩
  · obtain ⟨hf, ⟨q, hq⟩, -⟩ := hrow'
    exact ⟨hf, _, hq⟩

end Specs

end BTree

end MagnumDB
