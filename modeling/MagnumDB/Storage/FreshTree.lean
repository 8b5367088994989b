import MagnumDB.Storage.TreeNew
import MagnumDB.Storage.PoolLaws

/-!
# A tree on a new file

Creating a tree on an empty file never trips the monitor: as long as nothing is
freed and the file only grows, the free-list head on disk and in the cached copy
of page 0 are the same, so writing page 0 back does not move it.
-/

namespace MagnumDB

open Prog

namespace BufferPool

variable {s s' : BufferPool} {U : Set PageId} {id : PageId}

/-- The cached copy of page 0 has the free-list head of the file. -/
def Synced (s : BufferPool) : Prop := ∀ pd, s.look 0 = some pd → pd.1.freeField = s.pager.freeHead

theorem Synced.view (h : Synced s) : (s.view 0).freeField = s.pager.freeHead := by
  cases hl : s.look 0 with
  | some pd => rw [view_of_some hl]; exact h pd hl
  | none => rw [view_of_none hl]; rfl

theorem Synced.settles (h : Synced s) (hs : Settles s s') :
    Synced s' ∧ s'.pager.freeHead = s.pager.freeHead := by
  have hhead : s'.pager.freeHead = s.pager.freeHead := by
    show (s'.disk 0).freeField = (s.disk 0).freeField
    cases hs.page 0 with
    | same _ h₂ => rw [h₂]
    | written page h₁ h₂ _ => rw [h₂]; exact h _ h₁
    | dropped page _ _ h₂ => rw [h₂]
  refine ⟨fun pd hq => ?_, hhead⟩
  obtain ⟨page, dirty⟩ := pd
  rw [hhead]
  rcases hs.of_some hq with ⟨hl, _⟩ | ⟨hl, _⟩
  · exact h _ hl
  · exact h (page, true) hl

theorem Synced.puts {page : Page} {dirty : Bool} (h : Synced s) (hp : Puts s s' id page dirty)
    (hpage : id = 0 → page.freeField = s.pager.freeHead) :
    Synced s' ∧ s'.pager.freeHead = s.pager.freeHead := by
  have hhead : s'.pager.freeHead = s.pager.freeHead := by rw [hp.pager]
  refine ⟨fun pd hq => ?_, hhead⟩
  rw [hhead]
  rw [hp.look 0] at hq
  split at hq
  · rename_i he
    rw [← Option.some.inj hq]
    exact hpage he
  · exact h pd hq

variable {strict : Bool} {pg : Pager}

theorem headOk_of_eq {pg' : Pager} (h : pg'.freeHead = pg.freeHead) :
    headOk strict pg pg' := by
  unfold headOk
  rw [h, beq_self_eq_true, Bool.true_or]

/-- With the copies in step, a fetch passes the monitor and keeps them in step. -/
theorem Synced.fetch (h : Synced s) (hi : Inv strict s U) (hid : id = 0 ∨ id ∈ U) :
    ∃ s', (guardedPool strict).fetchPage id s = (.ok (s.view id), s') ∧ Synced s' ∧
      Inv strict s' U ∧ s'.pager.freeHead = s.pager.freeHead ∧
      s'.pager.numPages = s.pager.numPages := by
  have hsync : Synced (s.fetchPage id).2 ∧
      (s.fetchPage id).2.pager.freeHead = s.pager.freeHead := by
    cases hl : s.look id with
    | some pd => exact h.settles (fetchPage_hit hi.1.wf hl).2
    | none =>
      obtain ⟨_, s₁, hset, _, _, hput⟩ := fetchPage_miss hi.1.wf hl
      obtain ⟨h₁, hhead₁⟩ := h.settles hset
      obtain ⟨h₂, hhead₂⟩ := h₁.puts hput (fun he => by
        subst he
        rw [hhead₁, readPage_inside hi.1.pos]
        rfl)
      exact ⟨h₂, hhead₂.trans hhead₁⟩
  obtain ⟨hpage, hframe, -, -⟩ := hi.1.fetch hid
  refine ⟨(s.fetchPage id).2, (if_pos (headOk_of_eq hsync.2)).trans ?_, hsync.1,
    hi.frame hframe hid (headOk_of_eq hsync.2), hsync.2, hframe.size⟩
  show (Except.ok (s.fetchPage id).1, _) = _
  rw [hpage]

theorem Synced.write {page : Page} (h : Synced s) (hi : Inv strict s U) (hid : id = 0 ∨ id ∈ U)
    (hpage : id = 0 → page.hasMagic ∧ page.freeField = s.pager.freeHead) :
    ∃ s', (guardedPool strict).writePage id page s = (.ok (), s') ∧ Synced s' ∧
      Inv strict s' U ∧ s'.pager.freeHead = s.pager.freeHead := by
  obtain ⟨s₁, s₂, hset₁, _, hput, hset₂⟩ := writePage_spec hi.1.wf id page
  obtain ⟨h₁, hhead₁⟩ := h.settles hset₁
  obtain ⟨h₂, hhead₂⟩ := h₁.puts hput (fun he => by rw [hhead₁]; exact (hpage he).2)
  obtain ⟨h₃, hhead₃⟩ := h₂.settles hset₂
  have hhead := hhead₃.trans (hhead₂.trans hhead₁)
  obtain ⟨hframe, -, -⟩ := hi.1.write hid (fun he => (hpage he).1)
  exact ⟨_, if_pos (headOk_of_eq hhead), h₃, hi.frame hframe hid (headOk_of_eq hhead), hhead⟩

/-- With an empty free list, allocation extends the file and does not touch page 0. -/
theorem Synced.alloc (h : Synced s) (hi : Inv strict s U) (hhead : s.pager.freeHead = u32Max)
    (hmax : s.pager.numPages < u32Max) :
    ∃ id s', (guardedPool strict).allocatePage s = (.ok id, s') ∧ Synced s' ∧
      Inv strict s' (U ∪ {id}) := by
  have hg : poolGuard strict .alloc s := by
    show (s.pager.freeHead != u32Max || decide (s.pager.numPages < u32Max))
    simp [hmax]
  obtain ⟨hcore, F, hfree⟩ := hi
  have hnil : F = [] := by
    cases F with
    | nil => rfl
    | cons p F =>
      have hp : s.pager.freeHead = p := hfree.list.1
      exact absurd (hp.symm.trans hhead) (ne_u32Max_of_lt (hfree.inside p (List.mem_cons_self ..)).2)
  subst hnil
  obtain ⟨pg, heq, _, _, hother, _⟩ := Pager.allocatePage_grow hcore.pos hcore.len hfree hmax
  have h0 : (0 : PageId) ≠ s.pager.numPages := fun he =>
    absurd (he ▸ hcore.pos : s.pager.numPages < s.pager.numPages) (UInt32.lt_irrefl _)
  have hrun : (guardedPool strict).allocatePage s = (.ok s.pager.numPages, { s with pager := pg }) := by
    refine (if_pos hg).trans ?_
    show (Except.ok s.pager.allocatePage.1, { s with pager := s.pager.allocatePage.2 }) = _
    rw [heq]
  refine ⟨_, _, hrun, fun pd hq => ?_, (wp_ok (Inv.alloc ⟨hcore, [], hfree⟩) hrun).2.1⟩
  show pd.1.freeField = (pg.file.page 0).freeField
  rw [hother 0 h0]
  exact h pd hq

/-- Creating a tree on a pool without one is not stopped, and keeps the copies in step. -/
theorem newRoot_calm (hi : Inv strict s U) (h : Synced s) (hhead : s.pager.freeHead = u32Max)
    (hmax : s.pager.numPages < u32Max) (hroot : s.root = 0 ∨ s.root = u32Max) :
    (BTree.newRoot (guardedPool strict)).wp s (fun _ s' => Synced s') (fun _ _ => False) := by
  obtain ⟨page, hpage, -⟩ := Node.toPage_of_fits (n := BTree.emptyLeaf) (by decide)
  obtain ⟨s₁, hf₁, hs₁, hi₁, hhead₁, hnum₁⟩ := h.fetch hi (Or.inl rfl)
  refine wp_bind (wp_of_ok hf₁ ?_)
  rw [if_pos (show (s.view 0).rootField = 0 ∨ (s.view 0).rootField = u32Max from hroot)]
  obtain ⟨id, s₂, hf₂, hs₂, hi₂⟩ := hs₁.alloc hi₁ (hhead₁.trans hhead) (by rw [hnum₁]; exact hmax)
  refine wp_bind (wp_of_ok hf₂ (wp_bind (wp_lift_ok hpage ?_)))
  have hid : id ∈ U ∪ {id} := Or.inr rfl
  have hid0 : id ≠ 0 := (hi₂.1.used id hid).1
  obtain ⟨s₃, hf₃, hs₃, hi₃, -⟩ := hs₂.write hi₂ (Or.inr hid) (fun he => absurd he hid0)
  refine wp_bind (wp_of_ok hf₃ ?_)
  obtain ⟨s₄, hf₄, hs₄, hi₄, hhead₄, -⟩ := hs₃.fetch hi₃ (Or.inl rfl)
  refine wp_bind (wp_of_ok hf₄ ?_)
  have hmeta : ((s₃.view 0).setRoot id).hasMagic ∧
      ((s₃.view 0).setRoot id).freeField = s₄.pager.freeHead := by
    rw [Page.hasMagic_setRoot, Page.freeField_setRoot, hs₃.view, hhead₄]
    exact ⟨hi₃.1.magic_view, rfl⟩
  obtain ⟨s₅, hf₅, hs₅, -⟩ := hs₄.write hi₄ (Or.inl rfl) (fun _ => hmeta)
  exact wp_bind (wp_of_ok hf₅ (wp_pure hs₅))

/-! ## A pool over a file -/

/-- The pool over an opened file, with nothing cached. -/
def opened (pager : Pager) (capacity interval : Nat) : BufferPool :=
  (BufferPool.new pager capacity).withSyncInterval interval

theorem opened_look (pg : Pager) (capacity interval : Nat) (q : PageId) :
    (opened pg capacity interval).look q = none := rfl

/-- Opening a file in order gives a pool in order. -/
theorem opened_inv {F : List PageId} (capacity interval : Nat)
    (hlen : pg.file.len = pg.numPages.toNat) (hpos : 0 < pg.numPages)
    (hmagic : (pg.file.page 0).hasMagic) (hused : ∀ q ∈ U, q ≠ 0 ∧ q < pg.numPages)
    (hfree : FreeOk strict pg U F) : Inv strict (opened pg capacity interval) U := by
  have hnone := opened_look pg capacity interval
  refine ⟨⟨Lru.wf_empty (Nat.le_max_right ..), hlen, hpos, ?_, hused, ?_, ?_, hmagic, ?_⟩, F, hfree⟩
  · intro q pd hq
    exact absurd ((hnone q).symm.trans hq) (by simp)
  · intro q page _ hq
    exact absurd ((hnone q).symm.trans hq) (by simp)
  · intro page hq
    exact absurd ((hnone 0).symm.trans hq) (by simp)
  · intro pd hq
    exact absurd ((hnone 0).symm.trans hq) (by simp)

/-- A file with its whole length in use and page 0 in order can be opened again. -/
theorem open_pager (hlen : pg.file.len = pg.numPages.toNat) (hpos : 0 < pg.numPages)
    (hmagic : (pg.file.page 0).hasMagic) : Pager.open pg.file = .ok pg := by
  have heq : ({ file := pg.file, numPages := UInt32.ofNat pg.file.len } : Pager) = pg := by
    rw [hlen, UInt32.ofNat_toNat]
  have hn0 : pg.numPages ≠ 0 := fun he =>
    absurd (he ▸ hpos : pg.numPages < pg.numPages) (UInt32.lt_irrefl _)
  unfold Pager.open
  rw [heq]
  rw [if_neg hn0, readPage_inside hpos, if_pos hmagic]

theorem Core.open_file (h : Core s U) : Pager.open s.pager.file = .ok s.pager :=
  open_pager h.len h.pos h.magic

/-- A pool in order, and the pool that is opened over its file. -/
theorem Inv.opened (h : Inv strict s U) (capacity interval : Nat) :
    Inv strict (opened s.pager capacity interval) U := by
  obtain ⟨hcore, F, hfree⟩ := h
  exact opened_inv capacity interval hcore.len hcore.pos hcore.magic hcore.used hfree

theorem opened_synced (pg : Pager) (capacity interval : Nat) :
    Synced (opened pg capacity interval) :=
  fun pd hq => absurd ((opened_look pg capacity interval 0).symm.trans hq) (by simp)

end BufferPool

/-! ## The new file -/

/-- What `Pager::open` makes of an empty file: page 0 with no root and an empty free list. -/
def Pager.fresh : Pager := Pager.writePage ⟨DataFile.empty, 0⟩ 0 Page.initialMeta

theorem Pager.open_empty : Pager.open DataFile.empty = .ok Pager.fresh := rfl

theorem Pager.fresh_freeOk (strict : Bool) : FreeOk strict Pager.fresh ∅ [] := by
  refine ⟨Page.initialMeta_free, List.nodup_nil, fun p hp => absurd hp List.not_mem_nil,
    fun p hp => absurd hp List.not_mem_nil, fun _ q hq hlt => ?_⟩
  have hlt' : q.toNat < 1 := UInt32.lt_iff_toNat_lt.mp hlt
  exact absurd (UInt32.toNat_inj.mp (show q.toNat = (0 : UInt32).toNat by simp; omega)) hq

namespace BTree

/-- A tree on a new file: `Pager::open`, `BufferPool::new` and `BTree::new`. -/
def fresh (capacity interval : Nat) : Except Fail (BTree BufferPool) :=
  match Pager.open DataFile.empty with
  | .ok pager => BTree.new BufferPool.store (BufferPool.opened pager capacity interval)
  | .error e => .error e

/-- Where no root is stored and nothing is free, `BTree::new` makes an empty tree, under whatever
laws the pool has. -/
theorem newRoot_empty_pool {strict : Bool} {s : BufferPool} {U : Set PageId}
    {L : (guardedPool strict).Laws} (hL : L.Inv s U) (hLroot : L.root s = s.root)
    (hinv : BufferPool.Inv strict s U) (hsync : s.Synced) (hhead : s.pager.freeHead = u32Max)
    (hmax : s.pager.numPages < u32Max) (hroot : s.root = 0 ∨ s.root = u32Max) :
    ∃ id s', newRoot BufferPool.store s = (.ok id, s') ∧ s'.Synced ∧
      HoldsTree L ⟨s', id⟩ U (BPlus.PlusTree.leaf id [] : PTree 0) := by
  have hcalm := BufferPool.newRoot_calm hinv hsync hhead hmax hroot
  have hwp := wp_newRoot_empty (L := L) (Q := fun id s' =>
    HoldsTree L ⟨s', id⟩ U (BPlus.PlusTree.leaf id [] : PTree 0))
    (E := fun _ _ => True) hL (fun _ => trivial) (by rw [hLroot]; exact hroot) (fun _ _ h => h)
  rcases wp_cases hcalm with ⟨id, s', hrun, hsync'⟩ | ⟨e, s', -, hfalse⟩
  · have hagree := newRoot_sim (BufferPool.store.monitored_agrees (poolGuard strict))
    have heq := hagree.eq_of_not (s := s) (fun e _ he =>
      absurd ((congrArg Prod.fst hrun).symm.trans he) (by simp))
    have hholds := wp_ok hwp hrun
    exact ⟨id, s', heq.symm.trans hrun, hsync', hholds⟩
  · exact hfalse.elim

theorem opened_fresh_inv (strict : Bool) (capacity interval : Nat) :
    BufferPool.Inv strict (BufferPool.opened Pager.fresh capacity interval) ∅ :=
  BufferPool.opened_inv capacity interval rfl (by decide) Page.initialMeta_magic
    (fun q hq => hq.elim) (Pager.fresh_freeOk strict)

theorem fresh_laws {strict : Bool} {L : (guardedPool strict).Laws} {capacity interval : Nat}
    (hL : L.Inv (BufferPool.opened Pager.fresh capacity interval) ∅)
    (hLroot : ∀ s, L.root s = s.root) :
    ∃ t id, fresh capacity interval = .ok t ∧ t.bufferPool.Synced ∧
      HoldsTree L t ∅ (BPlus.PlusTree.leaf id [] : PTree 0) := by
  obtain ⟨id, s', hrun, hsync, hholds⟩ := newRoot_empty_pool hL (hLroot _)
    (opened_fresh_inv strict capacity interval)
    (BufferPool.opened_synced Pager.fresh capacity interval) Page.initialMeta_free
    (show Pager.fresh.numPages < u32Max by decide) (Or.inl Page.initialMeta_root)
  refine ⟨⟨s', id⟩, id, ?_, hsync, hholds⟩
  unfold fresh
  rw [Pager.open_empty]
  dsimp only
  unfold new
  rw [hrun]

theorem fresh_holds (strict : Bool) (capacity interval : Nat) :
    ∃ t id, fresh capacity interval = .ok t ∧ t.bufferPool.Synced ∧
      HoldsTree (BufferPool.laws strict) t ∅ (BPlus.PlusTree.leaf id [] : PTree 0) :=
  fresh_laws (opened_fresh_inv strict capacity interval) fun _ => rfl

end BTree

end MagnumDB
