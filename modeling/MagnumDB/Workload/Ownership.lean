import MagnumDB.Storage.TreeRun

/-!
# Every page has one owner

In a run in which every call finds the tree in a state in which it works, and page
0 is never written back with an old free-list head, each page of the file is a node
of the tree, an overflow page of one record, or free, and only one of these. The
three uses are read off the pages: nodes are what child pointers lead to from the
root, overflow pages are what the handles of their records lead to.
-/

namespace MagnumDB

open BPlus SortedAssoc ByteString Prog List

/-! ## The uses of a page, read off the pages -/

/-- Child pointers lead from the root to the page. -/
inductive Reach (v : PageId → Page) (root : PageId) : PageId → Prop where
  | root : Reach v root root
  | child {id q : PageId} {i : InternalNode} : Reach v root id →
      Node.fromPage (v id) = .ok (.internal i) → q ∈ i.children → Reach v root q

/-- A record of a leaf of the tree, with the leaf. -/
def StoredAt (v : PageId → Page) (root : PageId) (x : PageId × Bytes × Bytes) : Prop :=
  Reach v root x.1 ∧ ∃ l, Node.fromPage (v x.1) = .ok (.leaf l) ∧ x.2 ∈ l.records

/-- Next pointers lead from the first page to another. -/
inductive OnChain (v : PageId → Page) : PageId → PageId → Prop where
  | here {p : PageId} : p ≠ u32Max → OnChain v p p
  | next {p q : PageId} : p ≠ u32Max → OnChain v (v p).next q → OnChain v p q

/-- The record is the handle of a chain the page is on. -/
def ChainOf (v : PageId → Page) (r : Bytes × Bytes) (p : PageId) : Prop :=
  isOverflowHandle r.2 ∧ OnChain v (u32FromLeBytes (slice r.2 8 12)) p

/-- A page has exactly one use: as a node, as an overflow page of exactly one record, or as a
free page. -/
def OneUse (v : PageId → Page) (root : PageId) (free : List PageId) (p : PageId) : Prop :=
  (Reach v root p ∧ (¬ ∃ x, StoredAt v root x ∧ ChainOf v x.2 p) ∧ p ∉ free) ∨
  ((∃! x, StoredAt v root x ∧ ChainOf v x.2 p) ∧ ¬ Reach v root p ∧ p ∉ free) ∨
  (p ∈ free ∧ ¬ Reach v root p ∧ ¬ ∃ x, StoredAt v root x ∧ ChainOf v x.2 p)

/-! ## On pages that hold a tree -/

section PlusTree

variable {v : PageId → Page} {d : Nat} {c : PTree d}

/-- What child pointers reach is stored as a node of the tree. -/
theorem reach_cell (hr : Represents v c) {p : PageId} (h : Reach v c.id p) :
    ∃ cell, (p, cell) ∈ PlusTree.cells none none c := by
  induction h with
  | root => exact ⟨_, mem_cons_self ..⟩
  | child _ hpage hq ih =>
    obtain ⟨cell, hcell⟩ := ih
    have hnode := (hr.cells _ hcell).1
    rw [hpage] at hnode
    have hinner := nodeOf_internal (Except.ok.inj hnode).symm
    dsimp only at hinner
    rw [hinner] at hcell
    exact c.cell_child hcell hq

/-- Every node of the tree is reached. -/
theorem cell_reach {root : PageId} : ∀ {d : Nat} {c : PTree d} {parent after : Option PageId},
    (∀ e ∈ PlusTree.cells parent after c, CellAt v e) → Reach v root c.id →
    ∀ e ∈ PlusTree.cells parent after c, Reach v root e.1 := by
  intro d c
  induction c using PlusTree.inductionOn with
  | leaf i recs =>
    intro parent after _ hroot e he
    rw [PlusTree.cells_leaf, mem_singleton] at he
    rw [he]
    exact hroot
  | node i keys kids ih =>
    intro parent after hc hroot e he
    have htop := (hc _ (mem_cons_self ..)).1
    rw [PlusTree.cells_node] at hc he
    rcases mem_cons.mp he with rfl | he
    · exact hroot
    · obtain ⟨k, hk, a, hek, hall⟩ := PlusTree.rowWith_cover he
      refine ih k hk (fun x hx => hc x (mem_cons_of_mem _ (hall x hx))) ?_ e hek
      exact .child hroot htop (mem_map_of_mem hk)

theorem reach_iff (hr : Represents v c) (p : PageId) :
    Reach v c.id p ↔ p ∈ (PlusTree.cells none none c).map Prod.fst := by
  constructor
  · intro h
    obtain ⟨cell, hcell⟩ := reach_cell hr h
    exact mem_map.mpr ⟨_, hcell, rfl⟩
  · intro h
    obtain ⟨e, he, rfl⟩ := mem_map.mp h
    exact cell_reach hr.cells .root e he

/-- The stored records are those of the leaves. -/
theorem storedAt_iff (hr : Represents v c) (x : PageId × Bytes × Bytes) :
    StoredAt v c.id x ↔ ∃ l ∈ c.leaves, ∃ r ∈ l.recs, x = (l.id, r.1, r.2.stored) := by
  constructor
  · rintro ⟨hreach, l, hl, hx⟩
    obtain ⟨cell, hcell⟩ := reach_cell hr hreach
    have hnode := (hr.cells _ hcell).1
    rw [hl] at hnode
    obtain ⟨recs, rfl, hrecs⟩ := nodeOf_leaf (Except.ok.inj hnode).symm
    rw [hrecs] at hx
    obtain ⟨r, hr', he⟩ := mem_map.mp hx
    exact ⟨_, c.cell_leaf hcell, r, hr', by rw [he]⟩
  · rintro ⟨l, hl, r, hr', rfl⟩
    obtain ⟨A, B, hAB⟩ := append_of_mem hl
    obtain ⟨q, hq⟩ := PlusTree.leaf_cell none none c hAB
    refine ⟨cell_reach hr.cells .root _ hq, _, (hr.cells _ hq).1, ?_⟩
    exact mem_map_of_mem hr'

/-- A chain is what its next pointers lead through. -/
theorem onChain_iff : ∀ {ps : List PageId} {cs : List Bytes}, ChainHolds v ps cs →
    (∀ p ∈ ps, p ≠ u32Max) → ∀ q, OnChain v (ps.headD u32Max) q ↔ q ∈ ps
  | [], [], _, _, q => by
    constructor
    · intro h
      cases h with
      | here hne => exact absurd rfl hne
      | next hne _ => exact absurd rfl hne
    · intro h; exact absurd h not_mem_nil
  | [], _ :: _, h, _, _ => h.elim
  | _ :: _, [], h, _, _ => h.elim
  | p :: ps, chunk :: cs, h, hne, q => by
    obtain ⟨hpage, hrest⟩ := h
    have hnext := (overflowPage_spec hpage).1
    have ih := onChain_iff hrest (fun x hx => hne x (mem_cons_of_mem _ hx)) q
    have hp := hne p (mem_cons_self ..)
    show OnChain v p q ↔ q ∈ p :: ps
    constructor
    · intro h
      cases h with
      | here _ => exact mem_cons_self ..
      | next _ h =>
        rw [hnext] at h
        exact mem_cons_of_mem _ (ih.mp h)
    · intro h
      rcases mem_cons.mp h with rfl | h
      · exact .here hp
      · refine .next hp ?_
        rw [hnext]
        exact ih.mpr h

/-- The pages a record's handle leads to are those of its slot. -/
theorem chainOf_iff {key : Bytes} {s : Slot} (hs : s.Holds v) (hgen : s.Genuine)
    (hne : ∀ p ∈ s.pages, p ≠ u32Max) (p : PageId) : ChainOf v (key, s.stored) p ↔ p ∈ s.pages := by
  cases s with
  | inline value =>
    constructor
    · rintro ⟨h, _⟩
      exact absurd (h.symm.trans hgen) (by simp)
    · intro h; exact absurd h not_mem_nil
  | overflow value chain =>
    have hfirst : u32FromLeBytes (slice (Slot.overflow value chain).stored 8 12) = chain.headD 0 :=
      handle_first _ _
    unfold ChainOf
    rw [hfirst, BTree.chainHolds_headD hs.1 hs.2 0 u32Max, onChain_iff hs.2 hne]
    exact ⟨fun h => h.2, fun h => ⟨isOverflowHandle_handle _ _, h⟩⟩

/-- In a list without repetitions that is put together from parts, a member has one part. -/
theorem part_unique {α β : Type} {f : α → List β} {l : List α} (hn : (l.flatMap f).Nodup) {x y : α}
    {b : β} (hx : x ∈ l) (hy : y ∈ l) (hbx : b ∈ f x) (hby : b ∈ f y) : x = y := by
  induction l with
  | nil => exact absurd hx not_mem_nil
  | cons a l ih =>
    rw [flatMap_cons] at hn
    obtain ⟨_, hl, hdis⟩ := nodup_append.mp hn
    have hrest : ∀ z ∈ l, b ∈ f z → b ∈ l.flatMap f := fun z hz hb =>
      mem_flatMap.mpr ⟨z, hz, hb⟩
    rcases mem_cons.mp hx with hxa | hxl
    · rcases mem_cons.mp hy with hya | hyl
      · rw [hxa, hya]
      · exact absurd rfl (hdis b (hxa ▸ hbx) b (hrest y hyl hby))
    · rcases mem_cons.mp hy with hya | hyl
      · exact absurd rfl (hdis b (hya ▸ hby) b (hrest x hxl hbx))
      · exact ih hl hxl hyl

/-- The overflow pages of the records of a tree. -/
def chainPages (c : PTree d) : List PageId :=
  c.leaves.flatMap (fun l => l.recs.flatMap (fun r => r.2.pages))

section

variable (hr : Represents v c) (hgen : BTree.Genuine c) (hne : ∀ p ∈ pagesOf c, p ≠ u32Max)
include hr hgen hne

/-- What it takes for a page to be on the chain of a stored record. -/
theorem stored_chain_iff (x : PageId × Bytes × Bytes) (p : PageId) :
    (StoredAt v c.id x ∧ ChainOf v x.2 p) ↔
      ∃ l ∈ c.leaves, ∃ r ∈ l.recs, x = (l.id, r.1, r.2.stored) ∧ p ∈ r.2.pages := by
  have hchain : ∀ l ∈ c.leaves, ∀ r ∈ l.recs, ∀ q, ChainOf v (r.1, r.2.stored) q ↔ q ∈ r.2.pages := by
    intro l hl r hrl q
    have hrec : r ∈ c.records := (BTree.mem_records hr.shaped).mpr ⟨l, hl, hrl⟩
    exact chainOf_iff (hr.slots l hl r hrl) (hgen r hrec)
      (fun q hq => hne q (c.record_owned Slot.pages hl hrl hq)) q
  rw [storedAt_iff hr]
  constructor
  · rintro ⟨⟨l, hl, r, hrl, rfl⟩, hp⟩
    exact ⟨l, hl, r, hrl, rfl, (hchain l hl r hrl p).mp hp⟩
  · rintro ⟨l, hl, r, hrl, rfl, hp⟩
    exact ⟨⟨l, hl, r, hrl, rfl⟩, (hchain l hl r hrl p).mpr hp⟩

/-- An overflow page belongs to exactly one record. -/
theorem chainPages_unique (hn : (chainPages c).Nodup) {p : PageId} (hp : p ∈ chainPages c) :
    ∃! x, StoredAt v c.id x ∧ ChainOf v x.2 p := by
  obtain ⟨l, hl, hpl⟩ := mem_flatMap.mp hp
  obtain ⟨r, hrl, hpr⟩ := mem_flatMap.mp hpl
  refine ⟨_, (stored_chain_iff hr hgen hne _ p).mpr ⟨l, hl, r, hrl, rfl, hpr⟩, fun y hy => ?_⟩
  obtain ⟨l', hl', r', hrl', rfl, hpr'⟩ := (stored_chain_iff hr hgen hne y p).mp hy
  have hll : l' = l := part_unique hn hl' hl (mem_flatMap.mpr ⟨r', hrl', hpr'⟩) hpl
  subst hll
  have hnl := hn.sublist (PlusTree.sublist_flatMap hl')
  have hrr : r' = r := part_unique hnl hrl' hrl hpr' hpr
  rw [hrr]

/-- **Every page of the tree, and every free page, has one use.** -/
theorem oneUse {free : List PageId} (hfree : ∀ p ∈ free, p ∉ pagesOf c) {p : PageId}
    (hp : p ∈ pagesOf c ∨ p ∈ free) : OneUse v c.id free p := by
  have hperm := c.owned_perm Slot.pages none none
  obtain ⟨_, hnc, hdis⟩ := nodup_append.mp (hperm.nodup_iff.mp hr.nodup)
  have hreach := reach_iff hr p
  have hchain : (∃ x, StoredAt v c.id x ∧ ChainOf v x.2 p) → p ∈ chainPages c := by
    rintro ⟨x, hx⟩
    obtain ⟨l, hl, r, hrl, _, hpr⟩ := (stored_chain_iff hr hgen hne x p).mp hx
    exact mem_flatMap.mpr ⟨l, hl, mem_flatMap.mpr ⟨r, hrl, hpr⟩⟩
  have hmem : p ∈ pagesOf c ↔ p ∈ (PlusTree.cells none none c).map Prod.fst ∨ p ∈ chainPages c :=
    hperm.mem_iff.trans mem_append
  rcases hp with hp | hp
  · have hnf : p ∉ free := fun hf => hfree p hf hp
    rcases hmem.mp hp with hid | hch
    · exact Or.inl ⟨hreach.mpr hid, fun h => hdis p hid p (hchain h) rfl, hnf⟩
    · refine Or.inr (Or.inl ⟨chainPages_unique hr hgen hne hnc hch, fun h => ?_, hnf⟩)
      exact hdis p (hreach.mp h) p hch rfl
  · have hnp := hfree p hp
    exact Or.inr (Or.inr ⟨hp, fun h => hnp (hmem.mpr (Or.inl (hreach.mp h))),
      fun h => hnp (hmem.mpr (Or.inr (hchain h)))⟩)

end

end PlusTree

/-! ## Along a run -/

/-- The tree over the pool holds records that are genuine, and nothing else is in use. -/
def HoldsAll (t : BTree BufferPool) : Prop :=
  ∃ (d : Nat) (c : PTree d), BTree.HoldsTree (BufferPool.laws true) t ∅ c ∧ BTree.Genuine c

/-- Every page of the file has exactly one use. -/
def EveryPageOnce (t : BTree BufferPool) : Prop :=
  ∀ p, p ≠ 0 → p < t.bufferPool.pager.numPages →
    OneUse t.bufferPool.view t.rootPageId t.bufferPool.pager.freeList p

variable {t : BTree BufferPool}

theorem HoldsAll.everyPageOnce (h : HoldsAll t) : EveryPageOnce t := by
  obtain ⟨d, c, ht, hgen⟩ := h
  obtain ⟨hrep, hroot, _⟩ := ht.pool
  obtain ⟨v, hat, _, _⟩ := ht
  obtain ⟨hcore, F, hfree⟩ := hat.inv
  intro p hp0 hpn
  rw [hroot, hfree.freeList_eq]
  refine oneUse hrep hgen (fun q hq => ?_) (fun q hq hc => hfree.unused q hq (Or.inl hc)) ?_
  · exact ne_u32Max_of_lt (hcore.used q (Or.inl hq)).2
  · rcases hfree.all rfl p hp0 hpn with (hu | hu) | hf
    · exact Or.inl hu
    · exact hu.elim
    · exact Or.inr hf

/-- A call that writes. -/
def TreeOp.Writes : TreeOp → Prop
  | .search _ => False
  | _ => True

/-- **One call**, refused or not. -/
theorem HoldsAll.step {t' : BTree BufferPool} {op : TreeOp} {r : Except Fail (Option Bytes)}
    (h : HoldsAll t) (hw : op.Writes) (hok : op.Ok true t)
    (hends : Ends (op.exec BufferPool.store) t (r, t')) : HoldsAll t' := by
  obtain ⟨d, c, ht, hgen⟩ := h
  cases op with
  | insert key value =>
    by_cases hkey : key.length ≤ maxKeySize
    · obtain ⟨hv, hins⟩ := hok hkey
      obtain ⟨t₁, h, c', s, hends₁, ht', hslot, hrec⟩ := BTree.insert_ends ht hgen hkey hins
      have hsame := hends.unique (ends_bind_pure none hends₁)
      rw [(Prod.mk.inj hsame).2]
      exact ⟨h, c', ht', BTree.records_upsert hrec hgen (hslot.genuine hv)⟩
    · have hsame := hends.unique (ends_bind_error _ (BTree.insert_refused (Nat.lt_of_not_le hkey)))
      rw [(Prod.mk.inj hsame).2]
      exact ⟨d, c, ht, hgen⟩
  | delete key =>
    obtain ⟨t₁, c', hends₁, ht', hrec⟩ := BTree.delete_ends ht hgen hok
    have hsame := hends.unique (ends_bind_pure none hends₁)
    rw [(Prod.mk.inj hsame).2]
    exact ⟨d, c', ht', BTree.records_erase hrec hgen⟩
  | search key => exact hw.elim

/-- **A run**, by induction on its calls. -/
theorem HoldsAll.run {t' : BTree BufferPool} {ops : List TreeOp}
    {rs : List (Except Fail (Option Bytes))} (hruns : Runs ops t rs t') (h : HoldsAll t)
    (hw : ∀ op ∈ ops, op.Writes) (hsafe : SafeRun true ops t) : HoldsAll t' := by
  induction hruns with
  | nil t => exact h
  | cons hends _ ih =>
    exact ih (h.step (hw _ (mem_cons_self ..)) hsafe.1 hends)
      (fun x hx => hw x (mem_cons_of_mem _ hx)) (hsafe.2 _ _ hends)

theorem fresh_holdsAll {capacity interval : Nat} (h : BTree.fresh capacity interval = .ok t) :
    HoldsAll t := by
  obtain ⟨t', id, hfresh, -, ht⟩ := BTree.fresh_holds true capacity interval
  rw [h] at hfresh
  injection hfresh with hfresh
  subst hfresh
  exact ⟨0, _, ht, fun x hx => absurd hx not_mem_nil⟩

/-- **Every page has one owner** in every state that a run of insertions and deletions reaches, if
each call finds the tree in a state in which it works and page 0 is only written back with the
free-list head the file has. -/
theorem run_everyPageOnce {capacity interval : Nat} {t₀ t : BTree BufferPool} {ops : List TreeOp}
    {rs : List (Except Fail (Option Bytes))} (hfresh : BTree.fresh capacity interval = .ok t₀)
    (hw : ∀ op ∈ ops, op.Writes) (hsafe : SafeRun true ops t₀) (hruns : Runs ops t₀ rs t) :
    EveryPageOnce t :=
  ((fresh_holdsAll hfresh).run hruns hw hsafe).everyPageOnce

set_option maxRecDepth 100000 in
/-- A run with an overflow page that is used and freed again. -/
theorem run_everyPageOnce_overflow : ∃ t₀ rs t, BTree.fresh 16 0 = .ok t₀ ∧
    Runs [.insert [1] (List.replicate 2001 7), .insert [1] [2], .delete [1]] t₀ rs t ∧
    EveryPageOnce t := by
  obtain ⟨t₀, _, hfresh, _⟩ := BTree.fresh_holds true 16 0
  have hcheck : (match BTree.fresh 16 0 with
    | .ok t => checkRun true 5 [.insert [1] (List.replicate 2001 7), .insert [1] [2], .delete [1]] t &&
        (evalRun 5 [.insert [1] (List.replicate 2001 7), .insert [1] [2], .delete [1]] t).1.all finished
    | .error _ => false) = true := by decide +kernel
  rw [hfresh] at hcheck
  obtain ⟨hsafe, hfin⟩ := Bool.and_eq_true_iff.mp hcheck
  have hruns := runs_of_eval hfin
  exact ⟨t₀, _, _, hfresh, hruns,
    run_everyPageOnce hfresh (by simp [TreeOp.Writes]) (safeRun_of_check hsafe) hruns⟩

/-! ## A child pointer to a free page -/

/-- Three values that do not fit one leaf; then the right leaf is emptied. -/
def unlinkedLeafRun : List TreeOp :=
  [.insert [1] (List.replicate 2000 7), .insert [2] (List.replicate 2000 7),
    .insert [3] (List.replicate 2000 7), .delete [2], .delete [3]]

/-- Whether the root names a child that is free. -/
def rootNamesFree (t : BTree BufferPool) : Bool :=
  match Node.fromPage (t.bufferPool.view t.rootPageId) with
  | .ok (.internal i) => i.children.any (fun q => t.bufferPool.pager.freeList.contains q &&
      q != 0 && decide (q < t.bufferPool.pager.numPages))
  | _ => false

theorem not_everyPageOnce (h : rootNamesFree t) : ¬ EveryPageOnce t := by
  unfold rootNamesFree at h
  split at h
  · rename_i i hi
    obtain ⟨q, hq, hprop⟩ := any_eq_true.mp h
    simp only [Bool.and_eq_true, contains_iff_mem, bne_iff_ne, decide_eq_true_eq] at hprop
    obtain ⟨⟨hfree, hq0⟩, hqn⟩ := hprop
    intro hall
    have hreach : Reach t.bufferPool.view t.rootPageId q := .child .root hi hq
    rcases hall q hq0 hqn with ⟨_, _, hnf⟩ | ⟨_, hnr, _⟩ | ⟨_, hnr, _⟩
    · exact hnf hfree
    · exact hnr hreach
    · exact hnr hreach
  · exact absurd h (by simp)

set_option maxRecDepth 100000 in
/-- **A child pointer names a free page** after a leaf other than the leftmost is emptied. -/
theorem unlinked_leaf_still_named : ∃ t₀ rs t, BTree.fresh 1024 1000 = .ok t₀ ∧
    Runs unlinkedLeafRun t₀ rs t ∧ (∀ r ∈ rs, r.isOk = true) ∧
    (∀ op ∈ unlinkedLeafRun, op.Writes) ∧ ¬ EveryPageOnce t := by
  obtain ⟨t₀, _, hfresh, _⟩ := BTree.fresh_holds true 1024 1000
  have heval : (match BTree.fresh 1024 1000 with
    | .ok t =>
      let r := evalRun 20 unlinkedLeafRun t
      r.1.all Except.isOk && rootNamesFree r.2
    | .error _ => false) = true := by decide +kernel
  rw [hfresh] at heval
  dsimp only at heval
  generalize hr : evalRun 20 unlinkedLeafRun t₀ = r at heval
  obtain ⟨hok, hfree⟩ := Bool.and_eq_true_iff.mp heval
  obtain ⟨hruns, hall⟩ := runs_of_eval_ok hr hok
  exact ⟨t₀, r.1, r.2, hfresh, hruns, hall,
    by simp [unlinkedLeafRun, TreeOp.Writes], not_everyPageOnce hfree⟩

end MagnumDB
