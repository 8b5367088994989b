import MagnumDB.Storage.TreeRepr

/-!
# Searching the tree

Descending from the root reaches the leaf where a key belongs. From there the
three ways of reading follow: `search` looks the key up among the records of that
leaf, `scan_prefix` starts in it and walks along the leaf chain.

The position `binary_search` returns is described once, for both outcomes; the
insertion and deletion proofs use the same two lemmas.
-/

namespace MagnumDB

open BPlus SortedAssoc Prog
open List hiding lookup

/-! ## Positions in a sorted list -/

variable {key : Bytes}

theorem findIdx_not_lt : ∀ {ks₁ ks₂ : List Bytes}, (∀ k ∈ ks₁, k < key) →
    (∀ k ∈ ks₂.head?, ¬ k < key) →
    (ks₁ ++ ks₂).findIdx (fun k => decide (¬ k < key)) = ks₁.length
  | [], [], _, _ => rfl
  | [], k :: ks, _, h => by
    have hk : ¬ k < key := h k rfl
    rw [nil_append, findIdx_cons, decide_eq_true hk]
    rfl
  | k :: ks₁, ks₂, h₁, h₂ => by
    have hk : k < key := h₁ k (mem_cons_self ..)
    have ih := findIdx_not_lt (fun x hx => h₁ x (mem_cons_of_mem _ hx)) h₂
    rw [cons_append, findIdx_cons, ih, decide_eq_false (not_not.mpr hk)]
    rfl

theorem binarySearch_found {ks₁ ks₂ : List Bytes} (h : ∀ k ∈ ks₁, k < key) :
    binarySearch (ks₁ ++ key :: ks₂) key = .ok ks₁.length := by
  have hhead : ∀ k ∈ (key :: ks₂).head?, ¬ k < key := by
    intro k hk
    injection hk with hk
    rw [← hk]
    exact lt_irrefl key
  have hidx := findIdx_not_lt h hhead
  unfold binarySearch
  rw [hidx]
  simp

theorem binarySearch_absent {ks₁ ks₂ : List Bytes} (h₁ : ∀ k ∈ ks₁, k < key)
    (h₂ : ∀ k ∈ ks₂, key < k) : binarySearch (ks₁ ++ ks₂) key = .error ks₁.length := by
  have hhead : ∀ k ∈ ks₂.head?, ¬ k < key := fun k hk =>
    not_lt.mpr (le_of_lt (h₂ k (mem_of_mem_head? hk)))
  have hidx := findIdx_not_lt h₁ hhead
  unfold binarySearch
  rw [hidx]
  cases ks₂ with
  | nil => simp
  | cons k ks =>
    have hne : k ≠ key := ne_of_gt (h₂ k (mem_cons_self ..))
    simp [hne]

theorem searchPos_absent {ks₁ ks₂ : List Bytes} (h₁ : ∀ k ∈ ks₁, k < key)
    (h₂ : ∀ k ∈ ks₂, key < k) :
    searchPos (ks₁ ++ ks₂) key = ks₁.length := by
  unfold searchPos
  rw [binarySearch_absent h₁ h₂]

/-- The order the source compares with is the order of the library. -/
theorem childIndex_eq (keys : List Bytes) (key : Bytes) :
    childIndex keys key = keys.findIdx (fun s => @decide (key < s) (LinearOrder.toDecidableLT ..)) := by
  unfold childIndex
  congr 1
  funext s
  exact decide_eq_decide.mpr Iff.rfl

/-! ## The records of a leaf around a key -/

theorem storedRecords_keys (recs : List (Bytes × Slot)) :
    (storedRecords recs).map Prod.fst = recs.map Prod.fst := by
  unfold storedRecords
  rw [map_map]
  rfl

theorem keys_below {recs : List (Bytes × Slot)} (h : AllBelow key recs) :
    ∀ k ∈ recs.map Prod.fst, k < key := by
  intro k hk
  obtain ⟨r, hr, he⟩ := mem_map.mp hk
  rw [← he]
  exact h r hr

theorem keys_above {recs : List (Bytes × Slot)} (h : AllAbove key recs) :
    ∀ k ∈ recs.map Prod.fst, key < k := by
  intro k hk
  obtain ⟨r, hr, he⟩ := mem_map.mp hk
  rw [← he]
  exact h r hr

section Leaf

variable {key : Bytes} {l₁ l₂ : List (Bytes × Slot)} {s : Slot}

theorem leaf_binarySearch_found (h : AllBelow key l₁) :
    binarySearch ((storedRecords (l₁ ++ (key, s) :: l₂)).map Prod.fst) key = .ok l₁.length := by
  rw [storedRecords_keys, map_append, map_cons, binarySearch_found (keys_below h),
    length_map]

theorem leaf_binarySearch_absent (h₁ : AllBelow key l₁) (h₂ : AllAbove key l₂) :
    binarySearch ((storedRecords (l₁ ++ l₂)).map Prod.fst) key = .error l₁.length := by
  rw [storedRecords_keys, map_append, binarySearch_absent (keys_below h₁) (keys_above h₂),
    length_map]

theorem leaf_getElem_found (l₁ l₂ : List (Bytes × Slot)) (key : Bytes) (s : Slot) :
    (storedRecords (l₁ ++ (key, s) :: l₂))[l₁.length]? = some (key, s.stored) := by
  simp [storedRecords]

theorem leaf_getElem_absent (l₁ l₂ : List (Bytes × Slot)) :
    (storedRecords (l₁ ++ l₂))[l₁.length]? = l₂.head?.map (fun r => (r.1, r.2.stored)) := by
  unfold storedRecords
  rw [getElem?_map, getElem?_append_right (Nat.le_refl _), Nat.sub_self]
  cases l₂ <;> rfl

end Leaf

/-! ## Descending -/

namespace BTree

variable {σ : Type} {S : PageStore σ} {L : S.Laws} {t : BTree σ} {U : Set PageId}
  {v : PageId → Page} {r : PageId} {E : Fail → BTree σ → Prop}

variable {d : Nat} {x : Bytes × Slot}

/-- The root of a tree is among its pages. -/
theorem id_mem_pages (c : PTree d) : c.id ∈ pagesOf c := PlusTree.id_mem_owned _ c

variable {c : PTree d} {fuel : Nat} {α : Type} {pre : Bytes}

theorem topCell_at {parent after : Option PageId}
    (h : ∀ e ∈ PlusTree.cells parent after c, CellAt v e) :
    Node.fromPage (v c.id) = .ok (nodeOf (PlusTree.topCell parent after c)) :=
  (h _ (mem_cons_self ..)).1

/-- `find_leaf_for_insert` moves the focus from any node to the leaf where the key belongs. -/
theorem wp_findLeafForInsert {key : Bytes} {Q : PageId × LeafNode → BTree σ → Prop} {h : Nat} :
    ∀ {d : Nat} {ctx : PCtx d h} {c : PTree d} {fuel : Nat} {t : BTree σ},
    At L t U v r → (∀ t', E .stopped t') → Focus v ctx c → ctx.Located key →
    (∀ p ∈ pagesOf (ctx.plug c), p ∈ U) → d ≤ fuel →
    (∀ (ctx' : PCtx 0 h) id recs t', ctx'.plug (PlusTree.leaf id recs) = ctx.plug c →
      Focus v ctx' (PlusTree.leaf id recs) → ctx'.Located key → At L t' U v r →
      Q (id, ⟨ctx'.parent, ctx'.after, storedRecords recs⟩) t') →
    (findLeafForInsert S key fuel c.id (nodeOf (PlusTree.topCell ctx.parent ctx.after c))).wp t Q E
  | 0, ctx, c, fuel, t, hat, _, hf, hloc, _, _, hQ => by
    obtain ⟨id, recs, rfl⟩ := c.exists_leaf
    unfold findLeafForInsert
    exact wp_pure (hQ ctx id recs t rfl hf hloc hat)
  | d + 1, ctx, c, 0, _, _, _, _, _, _, hfuel, _ => absurd hfuel (by simp)
  | d + 1, ctx, c, fuel + 1, t, hat, hE, hf, hloc, hU, hfuel, hQ => by
    obtain ⟨id, keys, kids, rfl⟩ := c.exists_node
    have ho : Ordered (ctx.plug (PlusTree.node id keys kids)).inorder := hf.represents.ordered
    obtain ⟨ks₁, cs₁, c, ks₂, cs₂, hkeys, hkids, hlen, hcs, hctx', hloc'⟩ :=
      Ctx.descend hf.shaped hf.ctxShaped ho hloc
    subst hkeys hkids
    -- the tree has not changed, only the place we look at it from
    have hsame : (Ctx.frame id ks₁ cs₁ ks₂ cs₂ ctx).plug c
        = ctx.plug (PlusTree.node id (ks₁ ++ ks₂) (cs₁ ++ c :: cs₂)) := rfl
    have hf' : Focus v (Ctx.frame id ks₁ cs₁ ks₂ cs₂ ctx) c :=
      Represents.focus (hsame ▸ hf.represents) hctx' hcs
    have hchild : ((cs₁ ++ c :: cs₂).map PlusTree.id)[childIndex (ks₁ ++ ks₂) key]? = some c.id := by
      rw [childIndex_eq, ← hlen]
      simp
    have hcU : c.id ∈ U := by
      refine hU _ (((Ctx.plug_owned Slot.pages (Ctx.frame id ks₁ cs₁ ks₂ cs₂ ctx) c).mem_iff).mpr ?_)
      exact mem_append_left _ (id_mem_pages c)
    rw [nodeOf_topCell_node, findLeafForInsert, hchild]
    refine wp_bind (wp_readNode hat hE hcU (topCell_at hf'.cells) (fun t' hat' => ?_))
    exact wp_findLeafForInsert hat' hE hf' hloc' hU (by omega)
      (fun ctx' id' recs' t'' he hfo hl hat'' => hQ ctx' id' recs' t'' (he.trans hsame) hfo hl hat'')

/-- The descent every operation starts with. -/
theorem wp_findLeaf {key : Bytes} {Q : PageId × LeafNode → BTree σ → Prop} (hat : At L t U v c.id)
    (hE : ∀ t', E .stopped t') (hr : Represents v c) (hU : ∀ p ∈ pagesOf c, p ∈ U)
    (hfuel : d ≤ fuel) (hQ : ∀ (ctx : PCtx 0 d) id recs t', ctx.plug (PlusTree.leaf id recs) = c →
      Focus v ctx (PlusTree.leaf id recs) → ctx.Located key → At L t' U v c.id →
      Q (id, ⟨ctx.parent, ctx.after, storedRecords recs⟩) t') : (findLeaf S fuel key).wp t Q E := by
  have hroot : Node.fromPage (v c.id) = .ok (nodeOf (PlusTree.topCell none none c)) :=
    topCell_at hr.cells
  refine wp_bind (wp_get ?_)
  rw [hat.rootId]
  refine wp_bind (wp_readNode hat hE (hU _ (id_mem_pages c)) hroot (fun t' hat' => ?_))
  exact wp_findLeafForInsert hat' hE hr.focus_top (Ctx.located_top key) hU hfuel hQ

/-! ## Looking up a key -/

/-- Every record of the tree reads back as its value. -/
def Readable {d : Nat} (c : PTree d) : Prop := ∀ x ∈ c.records, x.2.Readable

/-- Every record whose key begins with the prefix reads back as its value. -/
def ReadableUnder (pre : Bytes) {d : Nat} (c : PTree d) : Prop :=
  ∀ x ∈ c.records, pre.isPrefixOf x.1 → x.2.Readable

theorem Readable.under (hread : Readable c) (pre : Bytes) : ReadableUnder pre c :=
  fun x hx _ => hread x hx

theorem mem_records (hs : c.Shaped) : x ∈ c.records ↔ ∃ l ∈ c.leaves, x ∈ l.recs := by
  rw [c.records_eq_leaves hs, mem_flatMap]

/-- Inside the leaf a key belongs to, the records are those of the whole tree near the key. -/
theorem leaf_sorted {ctx : PCtx 0 d} {id : PageId} {recs : List (Bytes × Slot)}
    (hf : Focus v ctx (PlusTree.leaf id recs)) : Sorted recs := by
  have h := sorted_recordsOf (ordered_mid.mp hf.ordered).2.1
  rwa [PlusTree.inorder_leaf, recordsOf_rcds] at h

theorem lookup_leaf {ctx : PCtx 0 d} {key : Bytes} (hs : ctx.Shaped) (hloc : ctx.Located key)
    (id : PageId) (recs : List (Bytes × Slot)) :
    lookup key (ctx.plug (PlusTree.leaf id recs)).records = lookup key recs := by
  have hrec : (PlusTree.leaf id recs).records = recs := recordsOf_rcds recs
  rw [Ctx.plug_records ctx _ hs, hrec,
    lookup_mid (allBelow_recordsOf hloc.1) (allAbove_recordsOf hloc.2)]

/-- The chain of a record of the tree is part of its pages. -/
theorem record_sublist (hs : c.Shaped) (hx : x ∈ c.records) : x.2.pages.Sublist (pagesOf c) := by
  obtain ⟨l, hl, hxl⟩ := (mem_records hs).mp hx
  exact c.record_sublist Slot.pages hl hxl

theorem record_holds (hr : Represents v c) (hx : x ∈ c.records) : x.2.Holds v := by
  obtain ⟨l, hl, hxl⟩ := (mem_records hr.shaped).mp hx
  exact hr.slots l hl x hxl

/-- Reading the value of any record of the tree. -/
theorem wp_readRecord {Q : Bytes → BTree σ → Prop} (hat : At L t U v r) (hE : ∀ t', E .stopped t')
    (hr : Represents v c) (hread : x.2.Readable) (hU : ∀ p ∈ pagesOf c, p ∈ U)
    (hfuel : (pagesOf c).length ≤ fuel) (hx : x ∈ c.records)
    (hQ : ∀ t', At L t' U v r → Q x.2.value t') :
    (readValueResolveOverflow S fuel x.2.stored).wp t Q E := by
  have hsub := record_sublist hr.shaped hx
  exact wp_readValue hat hE (record_holds hr hx) hread (fun p hp => hU p (hsub.subset hp))
    (hsub.length_le.trans hfuel) hQ

/-- The height of a tree is below the number of its pages. -/
theorem height_lt (hs : c.Shaped) : d < (pagesOf c).length := by
  induction c using PlusTree.inductionOn with
  | leaf id recs => simp [pagesOf]
  | node id keys kids ih =>
    obtain ⟨hlen, hkids⟩ := PlusTree.shaped_node.mp hs
    cases kids with
    | nil => exact absurd hlen (by simp)
    | cons c cs =>
      have := ih c (mem_cons_self ..) (hkids c (mem_cons_self ..))
      simp only [pagesOf, PlusTree.owned_node, length_cons, flatMap_cons,
        length_append] at this ⊢
      omega

/-- **`search` returns the value bound to the key.** -/
theorem wp_search {key : Bytes} {Q : Option Bytes → BTree σ → Prop} (hat : At L t U v c.id)
    (hE : ∀ t', E .stopped t') (hr : Represents v c)
    (hread : ∀ s ∈ lookup key c.records, s.Readable) (hU : ∀ p ∈ pagesOf c, p ∈ U)
    (hfuel : (pagesOf c).length ≤ fuel)
    (hQ : ∀ t', At L t' U v c.id → Q ((lookup key c.records).map Slot.value) t') :
    (search S fuel key).wp t Q E := by
  have hd : d ≤ fuel := Nat.le_trans (Nat.le_of_lt (height_lt hr.shaped)) hfuel
  refine wp_bind (wp_findLeaf hat hE hr hU hd ?_)
  intro ctx id recs t' hplug hf hloc hat'
  have hlook : lookup key c.records = lookup key recs := by
    rw [← hplug]; exact lookup_leaf hf.ctxShaped hloc id recs
  rw [hlook] at hQ
  dsimp only
  rcases split_key (leaf_sorted hf) key with ⟨l₁, s, l₂, rfl, h₁, h₂⟩ | ⟨l₁, l₂, rfl, h₁, h₂⟩
  · -- the key is there: its record is one of the tree's
    rw [leaf_binarySearch_found h₁]
    dsimp only
    rw [leaf_getElem_found]
    rw [lookup_found h₁] at hlook hQ
    exact wp_bind (wp_readRecord hat' hE hr (hread s hlook) hU hfuel (mem_of_lookup hlook)
      (fun t'' hat'' => wp_pure (hQ t'' hat'')))
  · rw [leaf_binarySearch_absent h₁ h₂]
    rw [lookup_absent h₁ h₂] at hQ
    exact wp_pure (hQ t' hat')

/-! ## Scanning -/

/-- What `scan_prefix` picks from a list of records, and whether it stops there. -/
def scanTake {α : Type} (pre : Bytes) : List (Bytes × α) → List (Bytes × α) × Bool
  | [] => ([], false)
  | x :: rest =>
    if pre = [] ∨ pre.isPrefixOf x.1 then (x :: (scanTake pre rest).1, (scanTake pre rest).2)
    else if pre < x.1 then ([], true)
    else scanTake pre rest

theorem scanTake_append (pre : Bytes) (l m : List (Bytes × α)) :
    scanTake pre (l ++ m) = if (scanTake pre l).2 then scanTake pre l
      else ((scanTake pre l).1 ++ (scanTake pre m).1, (scanTake pre m).2) := by
  induction l with
  | nil => simp [scanTake]
  | cons x l ih =>
    rw [cons_append, scanTake, scanTake, ih]
    split
    · split
      · rfl
      · rfl
    · split
      · rfl
      · rfl

/-- Records before the prefix are passed over. -/
theorem scanTake_below {l : List (Bytes × α)} (h : AllBelow pre l) (m : List (Bytes × α)) :
    scanTake pre (l ++ m) = scanTake pre m := by
  induction l with
  | nil => rfl
  | cons x l ih =>
    have hx : x.1 < pre := h x (mem_cons_self ..)
    have hpre : ¬ (pre = [] ∨ pre.isPrefixOf x.1) := by
      rintro (hnil | hp)
      · rw [hnil] at hx; exact absurd hx (by simp)
      · obtain ⟨rest, hrest⟩ := isPrefixOf_iff_prefix.mp hp
        have hle : ¬ pre ++ rest < pre :=
          (le_append_left : @LE.le (List UInt8) List.instLE pre (pre ++ rest))
        rw [hrest] at hle
        exact hle hx
    rw [cons_append, scanTake, if_neg hpre, if_neg (not_lt.mpr (le_of_lt hx))]
    exact ih (fun y hy => h y (mem_cons_of_mem _ hy))

/-- With an empty prefix everything is picked. -/
theorem scanTake_nil (l : List (Bytes × α)) : scanTake [] l = (l, false) := by
  induction l with
  | nil => rfl
  | cons x l ih => rw [scanTake, if_pos (Or.inl rfl), ih]

/-- The key and the value of a record. -/
def binding (x : Bytes × Slot) : Bytes × Bytes := (x.1, x.2.value)

theorem wp_scanRecords (hE : ∀ t', E .stopped t') (hr : Represents v c)
    (hread : ReadableUnder pre c) (hU : ∀ p ∈ pagesOf c, p ∈ U)
    (hfuel : (pagesOf c).length ≤ fuel) :
    ∀ {recs : List (Bytes × Slot)} {t : BTree σ} {Q : List (Bytes × Bytes) × Bool → BTree σ → Prop},
    At L t U v r → (∀ x ∈ recs, x ∈ c.records) →
    (∀ t', At L t' U v r → Q ((scanTake pre recs).1.map binding, (scanTake pre recs).2) t') →
    (scanRecords S fuel pre (storedRecords recs)).wp t Q E
  | [], t, Q, hat, _, hQ => wp_pure (hQ t hat)
  | x :: recs, t, Q, hat, hmem, hQ => by
    have hrest := fun y hy => hmem y (mem_cons_of_mem x hy)
    have hcons : storedRecords (x :: recs) = (x.1, x.2.stored) :: storedRecords recs := rfl
    rw [hcons, scanRecords]
    rw [scanTake] at hQ
    by_cases hp : pre = [] ∨ pre.isPrefixOf x.1
    · rw [if_pos hp] at hQ ⊢
      have hx := hmem x (mem_cons_self ..)
      have hpre : pre.isPrefixOf x.1 := by
        rcases hp with rfl | hp
        · rfl
        · exact hp
      refine wp_bind (wp_readRecord hat hE hr (hread x hx hpre) hU hfuel hx ?_)
      intro t₁ hat₁
      refine wp_bind (wp_scanRecords hE hr hread hU hfuel hat₁ hrest ?_)
      intro t₂ hat₂
      exact wp_pure (hQ t₂ hat₂)
    · rw [if_neg hp] at hQ ⊢
      by_cases hlt : pre < x.1
      · rw [if_pos hlt] at hQ ⊢
        exact wp_pure (hQ t hat)
      · rw [if_neg hlt] at hQ ⊢
        exact wp_scanRecords hE hr hread hU hfuel hat hrest hQ

/-- The walk along the leaf chain, from a leaf `l` with the leaves `rest` after it. -/
theorem wp_scanLeaves (hE : ∀ t', E .stopped t') (hr : Represents v c) (hread : ReadableUnder pre c)
    (hU : ∀ p ∈ pagesOf c, p ∈ U) :
    ∀ {rest before : List (Leaf PageId Bytes Slot)} {l : Leaf PageId Bytes Slot} {fuel : Nat}
      {parent : Option PageId} {t : BTree σ} {Q : List (Bytes × Bytes) → BTree σ → Prop},
    At L t U v r → c.leaves = before ++ l :: rest → (pagesOf c).length + rest.length < fuel →
    (∀ t', At L t' U v r →
      Q ((scanTake pre ((l :: rest).flatMap Leaf.recs)).1.map binding) t') →
    (scanLeaves S pre fuel ⟨parent, rest.head?.map Leaf.id, storedRecords l.recs⟩).wp t Q E := by
  intro rest
  induction rest with
  | nil =>
    intro before l fuel parent t Q hat hleaves hfuel hQ
    obtain ⟨fuel, rfl⟩ := Nat.exists_eq_add_one_of_ne_zero (Nat.ne_of_gt (Nat.zero_lt_of_lt hfuel))
    have hmem : ∀ x ∈ l.recs, x ∈ c.records := fun x hx =>
      (mem_records hr.shaped).mpr ⟨l, by rw [hleaves]; simp, hx⟩
    rw [flatMap_cons, flatMap_nil, append_nil] at hQ
    refine wp_bind (wp_scanRecords hE hr hread hU (by simp at hfuel; omega) hat hmem ?_)
    intro t₁ hat₁
    dsimp only
    split
    · exact wp_pure (hQ t₁ hat₁)
    · exact wp_pure (hQ t₁ hat₁)
  | cons l' rest ih =>
    intro before l fuel parent t Q hat hleaves hfuel hQ
    obtain ⟨fuel, rfl⟩ := Nat.exists_eq_add_one_of_ne_zero (Nat.ne_of_gt (Nat.zero_lt_of_lt hfuel))
    rw [length_cons] at hfuel
    have hmem : ∀ x ∈ l.recs, x ∈ c.records := fun x hx =>
      (mem_records hr.shaped).mpr ⟨l, by rw [hleaves]; simp, hx⟩
    rw [flatMap_cons, scanTake_append] at hQ
    refine wp_bind (wp_scanRecords hE hr hread hU (by omega) hat hmem ?_)
    intro t₁ hat₁
    dsimp only
    cases hstop : (scanTake pre l.recs).2 with
    | true =>
      rw [hstop, if_pos rfl] at hQ
      rw [if_pos rfl]
      exact wp_pure (hQ t₁ hat₁)
    | false =>
      rw [hstop, if_neg (by simp)] at hQ
      rw [if_neg (by simp)]
      -- on to the next leaf: its page is where the pointer says
      have hleaves' : c.leaves = (before ++ [l]) ++ l' :: rest := by rw [hleaves]; simp
      obtain ⟨q, hq⟩ := PlusTree.leaf_cell none none c hleaves'
      have hcell := hr.cells _ hq
      rw [Option.or_none] at hcell
      have hid : l'.id ∈ U := hU _ (PlusTree.cells_owned Slot.pages c hq)
      refine wp_bind (wp_readNode hat₁ hE hid hcell.1 (fun t₂ hat₂ => ?_))
      refine wp_bind (ih hat₂ hleaves' (by omega) (fun t₃ hat₃ => wp_pure ?_))
      rw [← map_append]
      exact hQ t₃ hat₃

/-- **`scan_prefix` returns what a scan of all records picks, in key order.** -/
theorem wp_scanPrefix {Q : List (Bytes × Bytes) → BTree σ → Prop} (hat : At L t U v c.id)
    (hE : ∀ t', E .stopped t') (hr : Represents v c) (hread : ReadableUnder pre c)
    (hU : ∀ p ∈ pagesOf c, p ∈ U) (hfuel : 2 * (pagesOf c).length < fuel)
    (hQ : ∀ t', At L t' U v c.id → Q ((scanTake pre c.records).1.map binding) t') :
    (scanPrefix S fuel pre).wp t Q E := by
  have hd := height_lt hr.shaped
  refine wp_bind (wp_findLeaf hat hE hr hU (by omega) ?_)
  intro ctx id recs t' hplug hf hloc hat'
  have hleaves : c.leaves = ctx.leavesL ++ ⟨id, recs⟩ :: ctx.leavesR := by
    rw [← hplug, Ctx.plug_leaves]; rfl
  have hrecs : c.records = recordsOf ctx.left ++ (⟨id, recs⟩ :: ctx.leavesR).flatMap Leaf.recs := by
    rw [← hplug, Ctx.plug_records ctx _ hf.ctxShaped, Ctx.right_records ctx hf.ctxShaped]
    rw [flatMap_cons]
    congr 2
    exact recordsOf_rcds recs
  have hshort : ctx.leavesR.length ≤ (pagesOf c).length := by
    have hle : (c.leaves.map Leaf.id).length ≤ (pagesOf c).length :=
      (c.leaves_sublist Slot.pages).length_le
    rw [hleaves, length_map, length_append, length_cons] at hle
    omega
  rw [hrecs, scanTake_below (allBelow_recordsOf hloc.1)] at hQ
  rw [Ctx.after_eq]
  exact wp_scanLeaves hE hr hread hU hat' hleaves (by omega) hQ

end BTree

end MagnumDB
