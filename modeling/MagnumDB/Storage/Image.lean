import MagnumDB.Storage.NodeRead
import MagnumDB.Storage.TreeSearch

/-!
# Reading is a function of the pages

`search` and `scan_prefix` only fetch pages, and they only fetch pages that can be
reached from the root: `Reaches` follows child pointers, leaf links and overflow
chains. So what they return depends on nothing but what these pages hold. It is
what they return over `imageStore v`, a store that has no state at all, and this
is used to compare two stores: the pool before it is closed and the one that is
opened over the file afterwards.
-/

namespace MagnumDB

open BPlus SortedAssoc Prog

/-- What a page is read as. -/
inductive PageKind where
  | node
  | overflow

/-- The page the overflow handle of a record names. -/
def handlePage (valBytes : Bytes) : PageId := u32FromLeBytes (ByteString.slice valBytes 8 12)

/-- The pages that are reached from the root, and what each of them is read as. -/
inductive Reaches (v : PageId → Page) (root : PageId) : PageKind → PageId → Prop where
  | root : Reaches v root .node root
  | child {p c : PageId} {i : InternalNode} : Reaches v root .node p →
      Node.fromPage (v p) = .ok (.internal i) → c ∈ i.children → Reaches v root .node c
  | next {p q : PageId} {l : LeafNode} : Reaches v root .node p →
      Node.fromPage (v p) = .ok (.leaf l) → l.nextLeaf = some q → Reaches v root .node q
  | first {p : PageId} {l : LeafNode} {r : Bytes × Bytes} : Reaches v root .node p →
      Node.fromPage (v p) = .ok (.leaf l) → r ∈ l.records → isOverflowHandle r.2 →
      handlePage r.2 ≠ u32Max → Reaches v root .overflow (handlePage r.2)
  | link {p : PageId} : Reaches v root .overflow p → (v p).next ≠ u32Max →
      Reaches v root .overflow (v p).next

/-- Pages that can only be read. -/
def imageStore (v : PageId → Page) : PageStore Unit where
  fetchPage id := Prog.lift (.ok (v id))
  writePage _ _ := Prog.fail .stopped
  allocatePage := Prog.fail .stopped
  freePage _ := Prog.fail .stopped

/-! ## Decoding is never stopped -/

/-- The computation does not say that a monitor stopped it. -/
def Unstopped {α : Type} (x : Except Fail α) : Prop := x ≠ .error .stopped

theorem Unstopped.ok {α : Type} (a : α) : Unstopped (.ok a : Except Fail α) := by simp [Unstopped]

theorem Page.slice_unstopped (p : Page) (a b : Nat) : Unstopped (p.slice a b) := by
  unfold Page.slice Unstopped
  split <;> simp

theorem Node.fromPage_unstopped (page : Page) : Unstopped (Node.fromPage page) := by
  obtain ⟨n, hn⟩ := Node.exists_fromPage page
  rw [hn]
  exact .ok n

/-! ## Reading over a store that has the pages -/

namespace BTree

variable {σ α β : Type}

/-- Read from the pages `v`, `y` returns what `x` returns from any state of the store in which
the pages are these, and `x` only moves between such states. -/
def Reads (I : σ → Prop) (root : PageId) (x : Prog Fail (BTree σ) α) (y : Prog Fail (BTree Unit) α) :
    Prop :=
  ∀ s, I s → ∃ r s', x ⟨s, root⟩ = (r, ⟨s', root⟩) ∧ y ⟨(), root⟩ = (r, ⟨(), root⟩) ∧ I s' ∧
    Unstopped r

variable {I : σ → Prop} {root : PageId}

theorem Reads.const {r : Except Fail α} (h : Unstopped r) :
    Reads I root (fun t => (r, t)) (fun t => (r, t)) :=
  fun s hs => ⟨r, s, rfl, rfl, hs, h⟩

theorem Reads.bind {x : Prog Fail (BTree σ) α} {y : Prog Fail (BTree Unit) α}
    {f : α → Prog Fail (BTree σ) β} {g : α → Prog Fail (BTree Unit) β} (h : Reads I root x y)
    (hf : ∀ a, (y ⟨(), root⟩).1 = .ok a → Reads I root (f a) (g a)) :
    Reads I root (x >>= f) (y >>= g) := by
  intro s hs
  obtain ⟨r, s', hx, hy, hs', hr⟩ := h s hs
  cases r with
  | ok a =>
    rw [bind_of_ok hx, bind_of_ok hy]
    exact hf a (by rw [hy]) s' hs'
  | error e =>
    rw [bind_of_error hx, bind_of_error hy]
    exact ⟨_, s', rfl, rfl, hs', fun he => hr (congrArg Except.error (Except.error.inj he))⟩

theorem Reads.get {f : BTree σ → Prog Fail (BTree σ) α} {g : BTree Unit → Prog Fail (BTree Unit) α}
    (h : ∀ s, Reads I root (f ⟨s, root⟩) (g ⟨(), root⟩)) :
    Reads I root (Prog.get >>= f) (Prog.get >>= g) := by
  intro s hs
  exact h s s hs

/-- Every page that can be reached is fetched as the pages have it. -/
def Fetches (S : PageStore σ) (I : σ → Prop) (v : PageId → Page) (root : PageId) : Prop :=
  ∀ k p s, Reaches v root k p → I s → ∃ s', S.fetchPage p s = (.ok (v p), s') ∧ I s'

section

variable {S : PageStore σ} {v : PageId → Page} (hS : Fetches S I v root)
include hS

variable {p : PageId}

theorem reads_fetch {k : PageKind} (hp : Reaches v root k p) :
    Reads I root (onPool (S.fetchPage p)) (onPool ((imageStore v).fetchPage p)) := by
  intro s hs
  obtain ⟨s', hfetch, hs'⟩ := hS k p s hp hs
  refine ⟨.ok (v p), s', ?_, rfl, hs', .ok _⟩
  unfold onPool Prog.zoom
  rw [hfetch]

theorem reads_readNode (hp : Reaches v root .node p) :
    Reads I root (readNode S p) (readNode (imageStore v) p) :=
  (reads_fetch hS hp).bind fun page _ => .const (Node.fromPage_unstopped page)

theorem reads_resolveChain (len : Nat) : ∀ (n : Nat) (p : PageId) (acc : Bytes),
    (p ≠ u32Max → Reaches v root .overflow p) →
    Reads I root (resolveChain S len n p acc) (resolveChain (imageStore v) len n p acc) := by
  intro n
  induction n with
  | zero =>
    intro p acc hp
    unfold resolveChain
    by_cases hmax : p = u32Max
    · simp only [hmax, if_true]; exact .const (.ok _)
    · simp only [hmax, if_false]; exact .const (r := .error .outOfFuel) (by simp [Unstopped])
  | succ n ih =>
    intro p acc hp
    unfold resolveChain
    by_cases hmax : p = u32Max
    · simp only [hmax, if_true]; exact .const (.ok _)
    · simp only [hmax, if_false]
      refine (reads_fetch hS (hp hmax)).bind fun page hpage => ?_
      obtain rfl : v p = page := Except.ok.inj hpage
      exact Reads.bind (.const (Page.slice_unstopped _ _ _)) fun _ _ =>
        ih _ _ fun hnext => .link (hp hmax) hnext

theorem reads_readValueResolveOverflow {l : LeafNode} {r : Bytes × Bytes} (n : Nat)
    (hp : Reaches v root .node p) (hl : Node.fromPage (v p) = .ok (.leaf l)) (hr : r ∈ l.records) :
    Reads I root (readValueResolveOverflow S n r.2)
      (readValueResolveOverflow (imageStore v) n r.2) := by
  unfold readValueResolveOverflow
  by_cases ho : isOverflowHandle r.2
  · simp only [ho, if_true]
    exact reads_resolveChain hS _ n _ _ fun hne => .first hp hl hr ho hne
  · simp only [ho]
    exact .const (.ok _)

/-- What is done with the leaf that is found can rely on where it was read from. -/
theorem reads_findLeafForInsert (key : Bytes) {f : PageId × LeafNode → Prog Fail (BTree σ) α}
    {g : PageId × LeafNode → Prog Fail (BTree Unit) α}
    (hf : ∀ q l, Reaches v root .node q → Node.fromPage (v q) = .ok (.leaf l) →
      Reads I root (f (q, l)) (g (q, l))) : ∀ (n : Nat) (p : PageId) (x : Node),
    Reaches v root .node p → Node.fromPage (v p) = .ok x →
    Reads I root (findLeafForInsert S key n p x >>= f)
      (findLeafForInsert (imageStore v) key n p x >>= g) := by
  intro n
  induction n with
  | zero =>
    intro p x hp hx
    cases x with
    | leaf l => exact hf p l hp hx
    | internal i => exact .const (r := .error .outOfFuel) (by simp [Unstopped])
  | succ n ih =>
    intro p x hp hx
    cases x with
    | leaf l => exact hf p l hp hx
    | internal i =>
      unfold findLeafForInsert
      cases hc : i.children[childIndex i.keys key]? with
      | none => exact .const (r := .error .panic) (by simp [Unstopped])
      | some c =>
        have hc' : Reaches v root .node c := .child hp hx (List.mem_of_getElem? hc)
        rw [bind_assoc, bind_assoc]
        exact (reads_readNode hS hc').bind fun y hy => ih c y hc' hy

theorem reads_findLeaf (n : Nat) (key : Bytes) {f : PageId × LeafNode → Prog Fail (BTree σ) α}
    {g : PageId × LeafNode → Prog Fail (BTree Unit) α}
    (hf : ∀ q l, Reaches v root .node q → Node.fromPage (v q) = .ok (.leaf l) →
      Reads I root (f (q, l)) (g (q, l))) :
    Reads I root (findLeaf S n key >>= f) (findLeaf (imageStore v) n key >>= g) := by
  unfold findLeaf
  rw [bind_assoc, bind_assoc]
  refine .get fun s => ?_
  rw [bind_assoc, bind_assoc]
  exact (reads_readNode hS .root).bind fun x hx => reads_findLeafForInsert hS key hf n root x .root hx

/-- **A search is a function of the pages.** -/
theorem reads_search (n : Nat) (key : Bytes) :
    Reads I root (search S n key) (search (imageStore v) n key) := by
  refine reads_findLeaf hS n key fun q l hp hl => ?_
  dsimp only
  cases binarySearch (l.records.map Prod.fst) key with
  | error e => exact .const (.ok _)
  | ok pos =>
    dsimp only
    cases hx : l.records[pos]? with
    | none => exact .const (r := .error .panic) (by simp [Unstopped])
    | some x =>
      exact (reads_readValueResolveOverflow hS n hp hl (List.mem_of_getElem? hx)).bind
        fun _ _ => .const (.ok _)

theorem reads_scanRecords {l : LeafNode} (n : Nat) (pre : Bytes) (hp : Reaches v root .node p)
    (hl : Node.fromPage (v p) = .ok (.leaf l)) :
    ∀ rs : List (Bytes × Bytes), (∀ r ∈ rs, r ∈ l.records) →
      Reads I root (scanRecords S n pre rs) (scanRecords (imageStore v) n pre rs) := by
  intro rs
  induction rs with
  | nil => exact fun _ => .const (.ok _)
  | cons r rs ih =>
    intro hrs
    have hrest := ih fun x hx => hrs x (List.mem_cons_of_mem _ hx)
    unfold scanRecords
    by_cases hpre : pre = [] ∨ pre.isPrefixOf r.1
    · simp only [hpre, if_true]
      exact (reads_readValueResolveOverflow hS n hp hl (hrs r List.mem_cons_self)).bind
        fun _ _ => hrest.bind fun _ _ => .const (.ok _)
    · simp only [hpre, if_false]
      by_cases hlt : pre < r.1
      · simp only [hlt, if_true]; exact .const (.ok _)
      · simp only [hlt, if_false]; exact hrest

theorem reads_scanLeaves (pre : Bytes) : ∀ (n : Nat) (p : PageId) (l : LeafNode),
    Reaches v root .node p → Node.fromPage (v p) = .ok (.leaf l) →
    Reads I root (scanLeaves S pre n l) (scanLeaves (imageStore v) pre n l) := by
  intro n
  induction n with
  | zero => exact fun _ _ _ _ => .const (r := .error .outOfFuel) (by simp [Unstopped])
  | succ n ih =>
    intro p l hp hl
    refine (reads_scanRecords hS (n + 1) pre hp hl l.records fun _ hr => hr).bind fun r _ => ?_
    by_cases hstop : r.2
    · simp only [hstop, if_true]; exact .const (.ok _)
    · simp only [hstop]
      cases hnext : l.nextLeaf with
      | none => exact .const (.ok _)
      | some q =>
        have hq : Reaches v root .node q := .next hp hl hnext
        refine (reads_readNode hS hq).bind fun x hx => ?_
        cases x with
        | internal i => exact .const (.ok _)
        | leaf l' => exact (ih q l' hq hx).bind fun _ _ => .const (.ok _)

/-- **A scan is a function of the pages.** -/
theorem reads_scanPrefix (n : Nat) (pre : Bytes) :
    Reads I root (scanPrefix S n pre) (scanPrefix (imageStore v) n pre) :=
  reads_findLeaf hS n pre fun q l hp hl => reads_scanLeaves hS pre n q l hp hl

end

end BTree

/-! ## The pages of a tree -/

section

variable {v : PageId → Page} {d : Nat} {c : PTree d}

/-- The page is on a chain, and the chain from there on is one of the pages of the tree. -/
def OnChainOf (v : PageId → Page) (c : PTree d) (p : PageId) : Prop :=
  ∃ ps cs, ChainHolds v (p :: ps) cs ∧ ∀ q ∈ p :: ps, q ∈ pagesOf c

variable {p : PageId}

theorem OnChainOf.next (h : OnChainOf v c p) (hne : (v p).next ≠ u32Max) :
    OnChainOf v c (v p).next := by
  obtain ⟨ps, cs, hholds, hmem⟩ := h
  cases cs with
  | nil => exact hholds.elim
  | cons chunk cs =>
    obtain ⟨hpage, hrest⟩ := hholds
    have hnext := (overflowPage_spec hpage).1
    cases ps with
    | nil => exact absurd hnext hne
    | cons q ps =>
      rw [hnext]
      exact ⟨ps, cs, hrest, fun x hx => hmem x (List.mem_cons_of_mem _ hx)⟩

theorem next_cell (hr : Represents v c) {q : PageId} {parent : Option PageId}
    {recs : List (Bytes × Slot)}
    (h : (p, .leaf parent (some q) recs) ∈ PlusTree.cells none none c) :
    ∃ cell, (q, cell) ∈ PlusTree.cells none none c := by
  obtain ⟨A, B, hAB⟩ := List.append_of_mem (c.cell_leaf h)
  obtain ⟨parent', hcell⟩ := PlusTree.leaf_cell none none c hAB
  -- both cells are read from the same page
  have hsame : nodeOf (.leaf parent (some q) recs)
      = nodeOf (.leaf parent' ((B.head?.map Leaf.id).or none) recs) :=
    Except.ok.inj ((hr.cells _ h).1.symm.trans (hr.cells _ hcell).1)
  have hnext : some q = (B.head?.map Leaf.id).or none := by
    injection hsame with hsame
    exact (LeafNode.mk.inj hsame).2.1
  cases B with
  | nil => exact absurd hnext (by simp)
  | cons l B =>
    have hq : q = l.id := Option.some.inj hnext
    rw [List.append_cons] at hAB
    obtain ⟨_, hl⟩ := PlusTree.leaf_cell none none c hAB
    rw [hq]
    exact ⟨_, hl⟩

/-- The handle of a record leads to the chain of its value. -/
theorem Slot.Holds.onChainOf {s : Slot} (hs : s.Holds v) (hg : s.Genuine)
    (hown : ∀ q ∈ s.pages, q ∈ pagesOf c) (ho : isOverflowHandle s.stored)
    (hne : handlePage s.stored ≠ u32Max) : OnChainOf v c (handlePage s.stored) := by
  cases s with
  | inline value => exact absurd (ho.symm.trans hg) (by simp)
  | overflow value chain =>
    have hfirst : handlePage (Slot.overflow value chain).stored = chain.headD u32Max :=
      (handle_first _ _).trans (BTree.chainHolds_headD hs.1 hs.2 0 u32Max)
    rw [hfirst] at hne ⊢
    cases chain with
    | nil => exact absurd rfl hne
    | cons q chain => exact ⟨chain, _, hs.2, hown⟩

/-- The page is one of a node, or on a chain, of the tree. -/
def BelongsTo (v : PageId → Page) (c : PTree d) : PageKind → PageId → Prop
  | .node, p => ∃ cell, (p, cell) ∈ PlusTree.cells none none c
  | .overflow, p => OnChainOf v c p

/-- What is reached in pages that hold a tree: its nodes, and the chains of its records. -/
theorem Reaches.belongsTo (hr : Represents v c) (hgen : ∀ x ∈ c.records, x.2.Genuine) {k : PageKind}
    (h : Reaches v c.id k p) : BelongsTo v c k p := by
  induction h with
  | root => exact ⟨_, List.mem_cons_self⟩
  | child _ hpage hc ih =>
    obtain ⟨cell, hcell⟩ := ih
    have hnode := (hr.cells _ hcell).1
    rw [hpage] at hnode
    have hinner := nodeOf_internal (Except.ok.inj hnode).symm
    dsimp only at hinner
    rw [hinner] at hcell
    exact c.cell_child hcell hc
  | next _ hpage hq ih =>
    obtain ⟨cell, hcell⟩ := ih
    have hnode := (hr.cells _ hcell).1
    rw [hpage] at hnode
    obtain ⟨recs, rfl, _⟩ := nodeOf_leaf (Except.ok.inj hnode).symm
    rw [hq] at hcell
    exact next_cell hr hcell
  | first _ hpage hx ho hne ih =>
    obtain ⟨cell, hcell⟩ := ih
    have hnode := (hr.cells _ hcell).1
    rw [hpage] at hnode
    obtain ⟨recs, rfl, hrecs⟩ := nodeOf_leaf (Except.ok.inj hnode).symm
    rw [hrecs] at hx
    obtain ⟨x, hxr, rfl⟩ := List.mem_map.mp hx
    have hleaf := c.cell_leaf hcell
    have hmem : x ∈ c.records := (BTree.mem_records hr.shaped).mpr ⟨_, hleaf, hxr⟩
    exact (hr.slots _ hleaf x hxr).onChainOf (hgen x hmem)
      (fun q hq => c.record_owned Slot.pages hleaf hxr hq) ho hne
  | link _ hne ih => exact ih.next hne

/-- Reading a tree stays within its pages. -/
theorem Reaches.mem_pages (hr : Represents v c) (hgen : ∀ x ∈ c.records, x.2.Genuine) {k : PageKind}
    (h : Reaches v c.id k p) : p ∈ pagesOf c := by
  have hspec := h.belongsTo hr hgen
  cases k with
  | node =>
    obtain ⟨cell, hcell⟩ := hspec
    exact PlusTree.cells_owned Slot.pages c hcell
  | overflow =>
    obtain ⟨ps, _, _, hmem⟩ := hspec
    exact hmem p List.mem_cons_self

end

/-! ## What is read from a tree -/

/-- Pages that can only be read are a lawful store: nothing that would change them happens. -/
def imageLaws (v : PageId → Page) : (imageStore v).Laws where
  Inv _ U := ∀ p ∈ U, p ≠ 0 ∧ p ≠ u32Max
  view _ := v
  root _ := (v 0).rootField
  valid h hp := h _ hp
  fetch h _ := ⟨rfl, h, fun _ _ => rfl, rfl⟩
  write _ _ := rfl
  alloc _ := rfl
  free _ _ := rfl
  fetchMeta h := ⟨rfl, h, fun _ _ => rfl, rfl⟩
  persist _ _ := rfl

namespace BTree

theorem imageStore_fetches (v : PageId → Page) (root : PageId) :
    Fetches (imageStore v) (fun _ => True) v root :=
  fun _ _ _ _ _ => ⟨(), rfl, trivial⟩

/-- A reading call over the pages alone that can only be stopped returns. -/
theorem image_returns {α : Type} {root : PageId} {y : Prog Fail (BTree Unit) α}
    {Q : α → BTree Unit → Prop} (hreads : Reads (fun _ => True) root y y)
    (hwp : y.wp ⟨(), root⟩ Q Stopped) : ∃ a t, (y ⟨(), root⟩).1 = .ok a ∧ Q a t := by
  obtain ⟨r, _, hy, _, _, hr⟩ := hreads () trivial
  rcases wp_cases hwp with ⟨a, t, hrun, hQ⟩ | ⟨e, t, hrun, he⟩
  · exact ⟨a, t, by rw [hrun], hQ⟩
  · obtain rfl : e = .stopped := he
    exact absurd ((congrArg Prod.fst hy).symm.trans (congrArg Prod.fst hrun)) hr

section

variable {v : PageId → Page} {d : Nat} {c : PTree d} (hr : Represents v c) (hread : Readable c)
  (hvalid : ∀ p ∈ pagesOf c, p ≠ 0 ∧ p ≠ u32Max) (hroot : (v 0).rootField = c.id)
include hr hread hvalid hroot

/-- A search over the pages of a tree returns the value bound to the key. -/
theorem search_image {n : Nat} (hn : (pagesOf c).length ≤ n) (key : Bytes) :
    (search (imageStore v) n key ⟨(), c.id⟩).1 = .ok ((lookup key c.records).map Slot.value) := by
  have hat : At (imageLaws v) ⟨(), c.id⟩ {p | p ∈ pagesOf c} v c.id :=
    ⟨hvalid, fun _ _ => rfl, rfl, hroot⟩
  obtain ⟨a, _, ha, rfl⟩ := image_returns
    (reads_search (imageStore_fetches v c.id) n key)
    (wp_search (Q := fun a _ => a = (lookup key c.records).map Slot.value) hat (fun _ => rfl) hr
      (fun s hs => hread _ (mem_of_lookup hs)) (fun _ hp => hp) hn (fun _ _ => rfl))
  exact ha

/-- A scan over the pages of a tree returns the bindings with the prefix, in key order. -/
theorem scanPrefix_image {n : Nat} (hn : 2 * (pagesOf c).length < n) (pre : Bytes) :
    (scanPrefix (imageStore v) n pre ⟨(), c.id⟩).1
      = .ok ((scanTake pre c.records).1.map binding) := by
  have hat : At (imageLaws v) ⟨(), c.id⟩ {p | p ∈ pagesOf c} v c.id :=
    ⟨hvalid, fun _ _ => rfl, rfl, hroot⟩
  obtain ⟨a, _, ha, rfl⟩ := image_returns
    (reads_scanPrefix (imageStore_fetches v c.id) n pre)
    (wp_scanPrefix (Q := fun a _ => a = (scanTake pre c.records).1.map binding) hat (fun _ => rfl)
      hr (hread.under pre) (fun _ hp => hp) hn (fun _ _ => rfl))
  exact ha

end

end BTree

end MagnumDB
