import MagnumDB.Storage.PoolSteps
import Mathlib.Data.List.Perm.Subperm

/-!
# The buffer pool as a lawful store

Page 0 lives in two places. The pool caches it for the root, while allocating and
freeing change its free-list head in the file behind the cache. When the cached
copy is written back it takes the head back to what it was when it was loaded, and
pages that were handed out since are on the free list again. This is the one way
in which the pool can break the laws of `PageStore.Laws`, so the laws hold for the
pool under a monitor, `poolGuard`, that looks at the head after every call.

The monitor comes in two strengths. The strict one wants the head to stay as it
is. The other one also lets it fall back to a page that is still free, which loses
free pages but gives none away twice.
-/

namespace MagnumDB

open Prog List

/-! ## The free list -/

/-- The pages of the free list that starts at `head`, each naming the next. -/
def FreeList (page : PageId → Page) : PageId → List PageId → Prop
  | head, [] => head = u32Max
  | head, p :: ps => head = p ∧ FreeList page (page p).next ps

variable {page : PageId → Page} {F : List PageId} {strict : Bool}

theorem FreeList.congr {page' : PageId → Page} : ∀ {F : List PageId} {head : PageId},
    FreeList page head F → (∀ p ∈ F, page' p = page p) → FreeList page' head F
  | [], _, h, _ => h
  | p :: F, head, h, hp => by
    refine ⟨h.1, ?_⟩
    rw [hp p (mem_cons_self ..)]
    exact h.2.congr (fun q hq => hp q (mem_cons_of_mem _ hq))

/-- The list from one of its pages on. -/
theorem FreeList.suffix : ∀ {head p : PageId},
    FreeList page head F → p ∈ F → ∃ F', FreeList page p F' ∧ F' <:+ F := by
  induction F with
  | nil => intro head p _ hp; exact absurd hp not_mem_nil
  | cons q F ih =>
    intro head p h hp
    rcases mem_cons.mp hp with rfl | hp
    · exact ⟨p :: F, ⟨rfl, h.2⟩, suffix_refl _⟩
    · obtain ⟨F', hF', hsuf⟩ := ih h.2 hp
      exact ⟨F', hF', hsuf.trans (suffix_cons q F)⟩

/-- Follow the free list for a number of pages. -/
def freeWalk (page : PageId → Page) : Nat → PageId → List PageId
  | 0, _ => []
  | n + 1, head => if head = u32Max then [] else head :: freeWalk page n (page head).next

theorem freeWalk_eq : ∀ {F : List PageId} {head : PageId} {n : Nat},
    FreeList page head F → (∀ p ∈ F, p ≠ u32Max) → F.length ≤ n → freeWalk page n head = F
  | [], _, 0, _, _, _ => rfl
  | [], _, _ + 1, h, _, _ => by rw [freeWalk, if_pos (show _ = u32Max from h)]
  | _ :: _, _, 0, _, _, hn => absurd hn (by simp)
  | p :: F, head, n + 1, h, hne, hn => by
    obtain ⟨rfl, h⟩ := h
    rw [freeWalk, if_neg (hne head (mem_cons_self ..)),
      freeWalk_eq h (fun q hq => hne q (mem_cons_of_mem _ hq)) (by simpa using hn)]

/-- The free list in the file. -/
def Pager.freeList (pg : Pager) : List PageId :=
  freeWalk pg.file.page pg.numPages.toNat (pg.file.page 0).freeField

/-- The free list of the file, as a list, and that it is in order: inside the file, without
repetitions, and apart from the pages in use. With `strict`, every page is free or in use. -/
structure FreeOk (strict : Bool) (pg : Pager) (U : Set PageId) (F : List PageId) : Prop where
  list : FreeList pg.file.page (pg.file.page 0).freeField F
  nodup : F.Nodup
  inside : ∀ p ∈ F, p ≠ 0 ∧ p < pg.numPages
  unused : ∀ p ∈ F, p ∉ U
  all : strict → ∀ q, q ≠ 0 → q < pg.numPages → q ∈ U ∨ q ∈ F

theorem ne_u32Max_of_lt {p n : PageId} (h : p < n) : p ≠ u32Max := by
  rintro rfl
  have hlt := UInt32.lt_iff_toNat_lt.mp h
  have hmax := n.toNat_lt
  have hval : u32Max.toNat = 4294967295 := rfl
  omega

theorem nodup_length_le {n : PageId} (h : F.Nodup) (hin : ∀ p ∈ F, p < n) : F.length ≤ n.toNat := by
  have hmap : (F.map UInt32.toNat).Nodup :=
    h.map_on (fun _ _ _ _ he => UInt32.toNat_inj.mp he)
  have hsub : F.map UInt32.toNat ⊆ List.range n.toNat := by
    intro x hx
    obtain ⟨p, hp, rfl⟩ := mem_map.mp hx
    exact mem_range.mpr (UInt32.lt_iff_toNat_lt.mp (hin p hp))
  simpa using (subperm_of_subset hmap hsub).length_le

theorem FreeOk.freeList_eq {pg : Pager} {U : Set PageId} (h : FreeOk strict pg U F) :
    pg.freeList = F :=
  freeWalk_eq h.list (fun p hp => ne_u32Max_of_lt (h.inside p hp).2)
    (nodup_length_le h.nodup (fun p hp => (h.inside p hp).2))

/-! ## The monitor -/

/-- The free-list head in the file. -/
def Pager.freeHead (pg : Pager) : PageId := (pg.file.page 0).freeField

/-- Whether the free-list head may become what it became. -/
def headOk (strict : Bool) (pg pg' : Pager) : Bool :=
  pg'.freeHead == pg.freeHead ||
    (!strict && (pg'.freeHead == u32Max || pg.freeList.contains pg'.freeHead))

/-- The monitor around the pool: the free-list head is left alone, and the file does not
outgrow its page numbers. -/
def poolGuard (strict : Bool) : PageCall → BufferPool → Bool
  | .fetch id, s => headOk strict s.pager (s.fetchPage id).2.pager
  | .write id page, s => headOk strict s.pager (s.writePage id page).pager
  | .alloc, s => s.pager.freeHead != u32Max || decide (s.pager.numPages < u32Max)
  | .free _, _ => true

/-- The pool under its monitor. -/
def guardedPool (strict : Bool) : PageStore BufferPool :=
  BufferPool.store.monitored (poolGuard strict)

theorem headOk_cases {pg pg' : Pager} (h : headOk strict pg pg') :
    pg'.freeHead = pg.freeHead ∨
      (strict = false ∧ (pg'.freeHead = u32Max ∨ pg'.freeHead ∈ pg.freeList)) := by
  unfold headOk at h
  simpa using h

/-- The free list stays in order when the head is moved as the monitor allows and no free page
is written. -/
theorem FreeOk.carry {pg pg' : Pager} {U : Set PageId} (h : FreeOk strict pg U F)
    (hhead : headOk strict pg pg') (hpage : ∀ p ∈ F, pg'.file.page p = pg.file.page p)
    (hnum : pg'.numPages = pg.numPages) : ∃ F', FreeOk strict pg' U F' := by
  have hsub : ∀ F', F' <:+ F → FreeList pg.file.page pg'.freeHead F' →
      (strict → F' = F) → FreeOk strict pg' U F' := by
    intro F' hsuf hlist hstrict
    have hmem := hsuf.sublist.subset
    refine ⟨hlist.congr (fun p hp => hpage p (hmem hp)), h.nodup.sublist hsuf.sublist,
      fun p hp => by rw [hnum]; exact h.inside p (hmem hp), fun p hp => h.unused p (hmem hp), ?_⟩
    intro hs q hq hlt
    rw [hstrict hs]
    exact h.all hs q hq (hnum ▸ hlt)
  rcases headOk_cases hhead with hsame | ⟨hs, hmax | hmem⟩
  · exact ⟨F, hsub F (suffix_refl _) (by rw [hsame]; exact h.list) (fun _ => rfl)⟩
  · exact ⟨[], hsub [] (nil_suffix) hmax (fun hs' => absurd (hs.symm.trans hs') (by simp))⟩
  · rw [h.freeList_eq] at hmem
    obtain ⟨F', hlist, hsuf⟩ := h.list.suffix hmem
    exact ⟨F', hsub F' hsuf hlist (fun hs' => absurd (hs.symm.trans hs') (by simp))⟩

/-! ## The invariant of the pool -/

namespace BufferPool

/-- What a page reads as: the cached copy, or else the file. -/
def view (s : BufferPool) (q : PageId) : Page :=
  match s.look q with
  | some pd => pd.1
  | none => s.disk q

/-- The root that page 0 names. -/
def root (s : BufferPool) : PageId := (s.view 0).rootField

/-- The pool without the free list: what is cached is in use, and a clean copy is what the file
has. Of page 0 only the root and the magic bytes are kept in step. -/
structure Core (s : BufferPool) (U : Set PageId) : Prop where
  wf : s.cache.WF
  len : s.pager.file.len = s.pager.numPages.toNat
  pos : 0 < s.pager.numPages
  cached : ∀ q pd, s.look q = some pd → q = 0 ∨ q ∈ U
  used : ∀ q ∈ U, q ≠ 0 ∧ q < s.pager.numPages
  clean : ∀ q page, q ≠ 0 → s.look q = some (page, false) → page = s.disk q
  cleanMeta : ∀ page, s.look 0 = some (page, false) → page.rootField = (s.disk 0).rootField
  magic : (s.disk 0).hasMagic
  magicMeta : ∀ pd, s.look 0 = some pd → pd.1.hasMagic

variable {s s' : BufferPool} {U : Set PageId} {id : PageId} {q : PageId}

theorem view_of_some {pd : Page × Bool} (h : s.look q = some pd) : s.view q = pd.1 := by
  unfold view; rw [h]

theorem view_of_none (h : s.look q = none) : s.view q = s.disk q := by
  unfold view; rw [h]

theorem Core.inside (h : Core s U) {pd : Page × Bool} (hq : s.look q = some pd) :
    q < s.pager.numPages := by
  rcases h.cached q pd hq with rfl | hu
  · exact h.pos
  · exact (h.used q hu).2

theorem readPage_inside {pg : Pager} (h : q < pg.numPages) :
    pg.readPage q = pg.file.page q := if_neg (UInt32.not_le.mpr h)

/-- However page 0 is read, it has the magic bytes. -/
theorem Core.magic_view (h : Core s U) : (s.view 0).hasMagic := by
  cases hl : s.look 0 with
  | some pd => rw [view_of_some hl]; exact h.magicMeta pd hl
  | none => rw [view_of_none hl]; exact h.magic

/-- A page that is not cached is not touched by settling. -/
theorem Settles.of_none (h : Settles s s') (hq : s.look q = none) :
    s'.look q = none ∧ s'.disk q = s.disk q := by
  cases h.page q with
  | same h₁ h₂ => exact ⟨h₁.trans hq, h₂⟩
  | written page h₁ _ _ => exact absurd (hq.symm.trans h₁) (by simp)
  | dropped page h₁ _ _ => exact absurd (hq.symm.trans h₁) (by simp)

variable {page : Page}

/-- A copy that is cached after settling was cached before, and is on disk if it was cleaned. -/
theorem Settles.of_some (h : Settles s s') {dirty : Bool} (hq : s'.look q = some (page, dirty)) :
    (s.look q = some (page, dirty) ∧ s'.disk q = s.disk q) ∨
      (s.look q = some (page, true) ∧ dirty = false ∧ s'.disk q = page) := by
  cases h.page q with
  | same h₁ h₂ => exact Or.inl ⟨h₁ ▸ hq, h₂⟩
  | written page' h₁ h₂ h₃ =>
    rcases h₃ with h₃ | h₃
    · exact absurd (h₃.symm.trans hq) (by simp)
    · rw [hq] at h₃
      injection h₃ with h₃
      obtain ⟨rfl, rfl⟩ := Prod.mk.inj h₃
      exact Or.inr ⟨h₁, rfl, h₂⟩
  | dropped page' _ h₂ _ => exact absurd (h₂.symm.trans hq) (by simp)

/-- A dirty copy was dirty before. -/
theorem Settles.dirty (h : Settles s s') (hq : s'.look q = some (page, true)) :
    s.look q = some (page, true) := by
  rcases h.of_some hq with ⟨hl, _⟩ | ⟨hl, _⟩
  · exact hl
  · exact hl

/-- What settling does to the view of a page: nothing, except for a clean copy that is dropped. -/
theorem Settles.view_cases (h : Settles s s') (q : PageId) :
    s'.view q = s.view q ∨
      ∃ page, s.look q = some (page, false) ∧ s.view q = page ∧ s'.view q = s.disk q := by
  cases h.page q with
  | same h₁ h₂ => left; unfold view; rw [h₁, h₂]
  | written page h₁ h₂ h₃ =>
    left
    rw [view_of_some h₁]
    rcases h₃ with h₃ | h₃
    · rw [view_of_none h₃, h₂]
    · rw [view_of_some h₃]
  | dropped page h₁ h₂ h₃ =>
    exact Or.inr ⟨page, h₁, view_of_some h₁, by rw [view_of_none h₂, h₃]⟩

/-- Settling is invisible, except that page 0 may fall back to an older free-list head. -/
theorem Core.settles (h : Core s U) (hs : Settles s s') :
    Core s' U ∧ s'.pager.numPages = s.pager.numPages ∧
      (∀ q, q ≠ 0 → s'.view q = s.view q) ∧ s'.root = s.root := by
  obtain ⟨hnum, hlen⟩ := hs.size (fun q pd hq => h.inside hq) h.len
  refine ⟨⟨hs.wf, ?_, ?_, ?_, ?_, ?_, ?_, ?_, ?_⟩, hnum, ?_, ?_⟩
  · rw [hlen, hnum, h.len]
  · rw [hnum]; exact h.pos
  · rintro q ⟨page, dirty⟩ hq
    rcases hs.of_some hq with ⟨hl, _⟩ | ⟨hl, _⟩
    · exact h.cached q _ hl
    · exact h.cached q _ hl
  · intro q hq
    rw [hnum]
    exact h.used q hq
  · intro q page hq0 hq
    rcases hs.of_some hq with ⟨hl, hd⟩ | ⟨_, _, hd⟩
    · rw [hd]; exact h.clean q page hq0 hl
    · exact hd.symm
  · intro page hq
    rcases hs.of_some hq with ⟨hl, hd⟩ | ⟨_, _, hd⟩
    · rw [hd]; exact h.cleanMeta page hl
    · rw [hd]
  · cases hs.page 0 with
    | same _ h₂ => rw [h₂]; exact h.magic
    | written page h₁ h₂ _ => rw [h₂]; exact h.magicMeta _ h₁
    | dropped page _ _ h₂ => rw [h₂]; exact h.magic
  · rintro ⟨page, dirty⟩ hq
    rcases hs.of_some hq with ⟨hl, _⟩ | ⟨hl, _⟩
    · exact h.magicMeta _ hl
    · exact h.magicMeta (page, true) hl
  · intro q hq0
    rcases hs.view_cases q with he | ⟨page, hl, hv, hd⟩
    · exact he
    · rw [hv, hd]; exact (h.clean q page hq0 hl).symm
  · unfold root
    rcases hs.view_cases 0 with he | ⟨page, hl, hv, hd⟩
    · rw [he]
    · rw [hv, hd]; exact (h.cleanMeta page hl).symm

/-- A put of a page in use, or of page 0. A clean copy must agree with the file. -/
theorem Core.puts {dirty : Bool} (h : Core s U) (hp : Puts s s' id page dirty)
    (hid : id = 0 ∨ id ∈ U) (hclean : dirty = false → id ≠ 0 → page = s.disk id)
    (hmeta : id = 0 → page.hasMagic ∧
      (dirty = false → page.rootField = (s.disk 0).rootField)) :
    Core s' U ∧ s'.view id = page ∧ ∀ q, q ≠ id → s'.view q = s.view q := by
  have hdisk : ∀ q, s'.disk q = s.disk q := fun q => by unfold disk; rw [hp.pager]
  have hself : s'.look id = some (page, dirty) := (hp.look id).trans (if_pos rfl)
  have hother : ∀ q, q ≠ id → s'.look q = s.look q := fun q hq =>
    (hp.look q).trans (if_neg (Ne.symm hq))
  refine ⟨⟨hp.wf, ?_, ?_, ?_, ?_, ?_, ?_, ?_, ?_⟩, view_of_some hself, ?_⟩
  · rw [hp.pager]; exact h.len
  · rw [hp.pager]; exact h.pos
  · intro q pd hq
    by_cases he : q = id
    · exact he ▸ hid
    · exact h.cached q pd (hother q he ▸ hq)
  · rw [hp.pager]; exact h.used
  · intro q page' hq0 hq
    rw [hdisk]
    by_cases he : q = id
    · subst he
      rw [hself] at hq
      obtain ⟨rfl, rfl⟩ := Prod.mk.inj (Option.some.inj hq)
      exact hclean rfl hq0
    · exact h.clean q page' hq0 (hother q he ▸ hq)
  · intro page' hq
    rw [hdisk]
    by_cases he : (0 : PageId) = id
    · subst he
      rw [hself] at hq
      obtain ⟨rfl, rfl⟩ := Prod.mk.inj (Option.some.inj hq)
      exact (hmeta rfl).2 rfl
    · exact h.cleanMeta page' (hother 0 he ▸ hq)
  · rw [hdisk]; exact h.magic
  · intro pd hq
    by_cases he : (0 : PageId) = id
    · subst he
      rw [hself] at hq
      rw [← Option.some.inj hq]
      exact (hmeta rfl).1
    · exact h.magicMeta pd (hother 0 he ▸ hq)
  · intro q hq
    unfold view
    rw [hother q hq, hdisk]

/-- What a call of the pool may do to the pages it is not about. -/
structure Frame (s s' : BufferPool) (U : Set PageId) (id : PageId) : Prop where
  core : Core s' U
  size : s'.pager.numPages = s.pager.numPages
  view : ∀ q, q ≠ 0 → q ≠ id → s'.view q = s.view q
  /-- A page that is neither cached nor the one of the call keeps its place in the file. -/
  disk : ∀ q, q ≠ id → s.look q = none → s'.disk q = s.disk q

theorem Core.fetch (h : Core s U) (hid : id = 0 ∨ id ∈ U) :
    (s.fetchPage id).1 = s.view id ∧ Frame s (s.fetchPage id).2 U id ∧
      (id ≠ 0 → (s.fetchPage id).2.view id = s.view id) ∧ (s.fetchPage id).2.root = s.root := by
  have hin : id < s.pager.numPages := by
    rcases hid with rfl | hu
    · exact h.pos
    · exact (h.used id hu).2
  cases hl : s.look id with
  | some pd =>
    obtain ⟨hpage, hset⟩ := fetchPage_hit h.wf hl
    obtain ⟨hcore, hnum, hview, hroot⟩ := h.settles hset
    exact ⟨hpage.trans (view_of_some hl).symm, ⟨hcore, hnum, fun q hq _ => hview q hq,
      fun q _ hq => (hset.of_none hq).2⟩, hview id, hroot⟩
  | none =>
    obtain ⟨hpage, s₁, hset, hnone, hdisk, hput⟩ := fetchPage_miss h.wf hl
    rw [readPage_inside hin] at hpage hput
    obtain ⟨hcore, hnum, hview, hroot⟩ := h.settles hset
    have hself : s.pager.file.page id = s₁.disk id := hdisk.symm
    have hv : s.view id = s.pager.file.page id := view_of_none hl
    obtain ⟨hcore', hvid, hvo⟩ := hcore.puts hput hid (fun _ _ => hself)
      (fun he => ⟨he ▸ h.magic, fun _ => by rw [hself, he]⟩)
    refine ⟨hpage.trans hv.symm, ⟨hcore', ?_, fun q hq hqid => (hvo q hqid).trans (hview q hq),
      fun q hqid hq => ?_⟩, fun _ => hvid.trans hv.symm, ?_⟩
    · rw [hput.pager]; exact hnum
    · unfold BufferPool.disk; rw [hput.pager]; exact (hset.of_none hq).2
    · by_cases he : (0 : PageId) = id
      · subst he
        unfold root; rw [hvid, hv]
      · rw [← hroot]; unfold root; rw [hvo 0 he]

theorem Core.write (h : Core s U) (hid : id = 0 ∨ id ∈ U) (hmagic : id = 0 → page.hasMagic) :
    Frame s (s.writePage id page) U id ∧ (id ≠ 0 → (s.writePage id page).view id = page) ∧
      (s.writePage id page).root = if id = 0 then page.rootField else s.root := by
  obtain ⟨s₁, s₂, hset₁, hl₁, hput, hset₂⟩ := writePage_spec h.wf id page
  obtain ⟨hcore₁, hnum₁, hview₁, hroot₁⟩ := h.settles hset₁
  obtain ⟨hcore₂, hvid, hvo⟩ := hcore₁.puts hput hid (fun hd => absurd hd (by simp))
    (fun he => ⟨hmagic he, fun hd => absurd hd (by simp)⟩)
  obtain ⟨hcore₃, hnum₃, hview₃, hroot₃⟩ := hcore₂.settles hset₂
  refine ⟨⟨hcore₃, ?_, ?_, ?_⟩, fun h0 => (hview₃ id h0).trans hvid, ?_⟩
  · rw [hnum₃, hput.pager]; exact hnum₁
  · intro q hq hqid
    rw [hview₃ q hq, hvo q hqid, hview₁ q hq]
  · intro q hqid hq
    have hq₁ := hset₁.of_none hq
    have hq₂ : s₂.look q = none := by rw [hput.look q, if_neg (Ne.symm hqid)]; exact hq₁.1
    rw [(hset₂.of_none hq₂).2]
    unfold BufferPool.disk
    rw [hput.pager]
    exact hq₁.2
  · rw [hroot₃]
    by_cases he : id = 0
    · subst he
      rw [if_pos rfl]
      unfold root; rw [hvid]
    · rw [if_neg he, ← hroot₁]
      unfold root; rw [hvo 0 (Ne.symm he)]

/-! ## Allocating and freeing -/

/-- A change of the file behind the cache that leaves the cached pages alone, and of page 0 the
root and the magic bytes. -/
theorem Core.repage (pg : Pager) (U' : Set PageId) (h : Core s U)
    (hlen : pg.file.len = pg.numPages.toNat) (hpos : 0 < pg.numPages)
    (hcached : ∀ q ∈ U, (s.look q).isSome → q ∈ U') (hused : ∀ q ∈ U', q ≠ 0 ∧ q < pg.numPages)
    (hpage : ∀ q, q ≠ 0 → (s.look q).isSome → pg.file.page q = s.disk q)
    (hroot : (pg.file.page 0).rootField = (s.disk 0).rootField)
    (hmagic : (pg.file.page 0).hasMagic) :
    Core { s with pager := pg } U' ∧ ({ s with pager := pg } : BufferPool).root = s.root := by
  refine ⟨⟨h.wf, hlen, hpos, ?_, hused, ?_, ?_, hmagic, h.magicMeta⟩, ?_⟩
  · intro q pd hq
    rcases h.cached q pd hq with h0 | hu
    · exact Or.inl h0
    · exact Or.inr (hcached q hu (Option.isSome_of_eq_some hq))
  · intro q page hq0 hq
    exact (h.clean q page hq0 hq).trans (hpage q hq0 (Option.isSome_of_eq_some hq)).symm
  · intro page hq
    exact (h.cleanMeta page hq).trans hroot.symm
  · unfold root
    cases hl : s.look 0 with
    | some pd => rw [view_of_some (s := s) hl, view_of_some (show look { s with pager := pg } 0 = some pd from hl)]
    | none =>
      rw [view_of_none (s := s) hl, view_of_none (show look { s with pager := pg } 0 = none from hl)]
      exact hroot

theorem view_repage {pg : Pager} (h : pg.file.page q = s.disk q) :
    ({ s with pager := pg } : BufferPool).view q = s.view q := by
  cases hl : s.look q with
  | some pd => rw [view_of_some (s := s) hl, view_of_some (show look { s with pager := pg } q = some pd from hl)]
  | none =>
    rw [view_of_none (s := s) hl, view_of_none (show look { s with pager := pg } q = none from hl)]
    exact h

/-- A page that is not in use, and not page 0, is not cached. -/
theorem Core.look_unused (h : Core s U) (h0 : q ≠ 0) (hu : q ∉ U) : s.look q = none := by
  cases hl : s.look q with
  | none => rfl
  | some pd => exact absurd (h.cached q pd hl) (not_or.mpr ⟨h0, hu⟩)

end BufferPool

section Pager

variable {pg : Pager} {U : Set PageId} {F : List PageId} {strict : Bool} {p : PageId}

/-- Two pages of the file are overwritten. -/
theorem writePage_twice (hlen : pg.file.len = pg.numPages.toNat) {a b : PageId} (pa pb : Page)
    (ha : a < pg.numPages) (hb : b < pg.numPages) (hne : a ≠ b) :
    let pg' := (pg.writePage a pa).writePage b pb
    pg'.numPages = pg.numPages ∧ pg'.file.len = pg.file.len ∧ pg'.file.page a = pa ∧
      pg'.file.page b = pb ∧ ∀ q, q ≠ a → q ≠ b → pg'.file.page q = pg.file.page q := by
  obtain ⟨hn₁, hl₁⟩ := BufferPool.writePage_size pa ha hlen
  have hb₁ : b < (pg.writePage a pa).numPages := by rw [hn₁]; exact hb
  obtain ⟨hn₂, hl₂⟩ := BufferPool.writePage_size pb hb₁ (by rw [hl₁, hn₁, hlen])
  refine ⟨hn₂.trans hn₁, hl₂.trans hl₁, ?_, ?_, fun q ha hb => ?_⟩
  · rw [BufferPool.writePage_page, if_neg hne, BufferPool.writePage_page, if_pos rfl]
  · rw [BufferPool.writePage_page, if_pos rfl]
  · rw [BufferPool.writePage_page, if_neg hb, BufferPool.writePage_page, if_neg ha]

theorem Pager.allocatePage_pop (hpos : 0 < pg.numPages) (hlen : pg.file.len = pg.numPages.toNat)
    (hf : FreeOk strict pg U (p :: F)) :
    ∃ pg', pg.allocatePage = (p, pg') ∧ pg'.numPages = pg.numPages ∧
      pg'.file.len = pg.file.len ∧
      pg'.file.page 0 = (pg.file.page 0).setFree (pg.file.page p).next ∧
      (∀ q, q ≠ 0 → q ≠ p → pg'.file.page q = pg.file.page q) ∧
      FreeOk strict pg' (U ∪ {p}) F := by
  obtain ⟨hp0, hpn⟩ := hf.inside p (mem_cons_self ..)
  obtain ⟨hhead, hlist⟩ := hf.list
  obtain ⟨hpF, hFnd⟩ := nodup_cons.mp hf.nodup
  obtain ⟨hnum, hlen', h0, _, hother⟩ := writePage_twice hlen
    ((pg.file.page 0).setFree (pg.file.page p).next) Page.default hpos hpn (Ne.symm hp0)
  refine ⟨_, ?_, hnum, hlen', h0, hother, ?_⟩
  · unfold Pager.allocatePage
    dsimp only
    rw [BufferPool.readPage_inside hpos, hhead,
      if_pos ⟨ne_u32Max_of_lt hpn, hpn, hp0⟩, BufferPool.readPage_inside hpn]
  · have hF0 : ∀ q ∈ F, q ≠ 0 ∧ q ≠ p := fun q hq =>
      ⟨(hf.inside q (mem_cons_of_mem _ hq)).1, fun he => hpF (he ▸ hq)⟩
    refine ⟨?_, hFnd, fun q hq => ?_, fun q hq hu => ?_, fun hs q hq0 hqn => ?_⟩
    · rw [h0, Page.freeField_setFree]
      exact hlist.congr (fun q hq => hother q (hF0 q hq).1 (hF0 q hq).2)
    · rw [hnum]; exact hf.inside q (mem_cons_of_mem _ hq)
    · rcases hu with hu | hu
      · exact hf.unused q (mem_cons_of_mem _ hq) hu
      · exact (hF0 q hq).2 hu
    · rw [hnum] at hqn
      rcases hf.all hs q hq0 hqn with hu | hm
      · exact Or.inl (Or.inl hu)
      · rcases mem_cons.mp hm with rfl | hm
        · exact Or.inl (Or.inr rfl)
        · exact Or.inr hm

theorem Pager.allocatePage_grow (hpos : 0 < pg.numPages) (hlen : pg.file.len = pg.numPages.toNat)
    (hf : FreeOk strict pg U []) (hmax : pg.numPages < u32Max) :
    ∃ pg', pg.allocatePage = (pg.numPages, pg') ∧ pg'.numPages = pg.numPages + 1 ∧
      pg'.file.len = pg'.numPages.toNat ∧
      (∀ q, q ≠ pg.numPages → pg'.file.page q = pg.file.page q) ∧
      FreeOk strict pg' (U ∪ {pg.numPages}) [] := by
  have hsucc : (pg.numPages + 1).toNat = pg.numPages.toNat + 1 := by
    have hlt := UInt32.lt_iff_toNat_lt.mp hmax
    have hval : u32Max.toNat = 4294967295 := rfl
    rw [UInt32.toNat_add]
    have h1 : (1 : UInt32).toNat = 1 := rfl
    omega
  have hnum : (pg.writePage pg.numPages Page.default).numPages = pg.numPages + 1 :=
    if_pos (UInt32.le_refl _)
  have h0 : (0 : PageId) ≠ pg.numPages := fun he => absurd (he ▸ hpos : pg.numPages < pg.numPages) (UInt32.lt_irrefl _)
  have hother : ∀ q, q ≠ pg.numPages →
      (pg.writePage pg.numPages Page.default).file.page q = pg.file.page q := fun q hq => if_neg hq
  refine ⟨pg.writePage pg.numPages Page.default, ?_, hnum, ?_, hother, ?_⟩
  · unfold Pager.allocatePage
    rw [BufferPool.readPage_inside hpos, if_neg (fun h => h.1 hf.list)]
  · rw [hnum, hsucc]
    show max pg.file.len (pg.numPages.toNat + 1) = _
    omega
  · refine ⟨?_, nodup_nil, fun q hq => absurd hq not_mem_nil,
      fun q hq => absurd hq not_mem_nil, fun hs q hq0 hqn => Or.inl ?_⟩
    · rw [hother 0 h0]; exact hf.list
    · rw [hnum, UInt32.lt_iff_toNat_lt, hsucc] at hqn
      by_cases he : q = pg.numPages
      · exact Or.inr he
      · have hne : q.toNat ≠ pg.numPages.toNat := fun h => he (UInt32.toNat_inj.mp h)
        have hlt : q < pg.numPages := UInt32.lt_iff_toNat_lt.mpr (by omega)
        rcases hf.all hs q hq0 hlt with hu | hm
        · exact Or.inl hu
        · exact absurd hm not_mem_nil

theorem Pager.allocatePage_cleared (pg : Pager) :
    pg.allocatePage.2.file.page pg.allocatePage.1 = Page.default := by
  unfold Pager.allocatePage
  dsimp only
  split
  · rw [BufferPool.writePage_page, if_pos rfl]
  · rw [BufferPool.writePage_page, if_pos rfl]

theorem Pager.freePage_pages (hpos : 0 < pg.numPages) (hlen : pg.file.len = pg.numPages.toNat)
    (hp0 : p ≠ 0) (hpn : p < pg.numPages) :
    (pg.freePage p).numPages = pg.numPages ∧ (pg.freePage p).file.len = pg.file.len ∧
      (pg.freePage p).file.page 0 = (pg.file.page 0).setFree p ∧
      (pg.freePage p).file.page p = Page.default.setNext (pg.file.page 0).freeField ∧
      ∀ q, q ≠ 0 → q ≠ p → (pg.freePage p).file.page q = pg.file.page q := by
  have heq : pg.freePage p = (pg.writePage p (Page.default.setNext (pg.file.page 0).freeField)).writePage
      0 ((pg.file.page 0).setFree p) := by
    unfold Pager.freePage
    rw [if_neg (not_or.mpr ⟨hp0, UInt32.not_le.mpr hpn⟩), BufferPool.readPage_inside hpos]
  obtain ⟨hnum, hlen', hpp, h0, hother⟩ := writePage_twice hlen
    (Page.default.setNext (pg.file.page 0).freeField) ((pg.file.page 0).setFree p) hpn hpos hp0
  rw [heq]
  exact ⟨hnum, hlen', h0, hpp, fun q hq0 hqp => hother q hqp hq0⟩

theorem Pager.freePage_push (hpos : 0 < pg.numPages) (hlen : pg.file.len = pg.numPages.toNat)
    (hf : FreeOk strict pg U F) (hp : p ∈ U) (hp0 : p ≠ 0) (hpn : p < pg.numPages) :
    FreeOk strict (pg.freePage p) (U \ {p}) (p :: F) := by
  obtain ⟨hnum, -, h0, hpp, hother⟩ := Pager.freePage_pages hpos hlen hp0 hpn
  have hFne : ∀ q ∈ F, q ≠ p := fun q hq he => hf.unused q hq (he ▸ hp)
  refine ⟨?_, ?_, ?_, ?_, ?_⟩
  · rw [h0, Page.freeField_setFree]
    refine ⟨rfl, ?_⟩
    rw [hpp, Page.next_setNext]
    exact hf.list.congr (fun q hq => hother q (hf.inside q hq).1 (hFne q hq))
  · exact nodup_cons.mpr ⟨fun hm => hFne p hm rfl, hf.nodup⟩
  · intro q hq
    rw [hnum]
    rcases mem_cons.mp hq with rfl | hq
    · exact ⟨hp0, hpn⟩
    · exact hf.inside q hq
  · rintro q hq ⟨hu, hne⟩
    rcases mem_cons.mp hq with rfl | hq
    · exact hne rfl
    · exact hf.unused q hq hu
  · intro hs q hq0 hqn
    rw [hnum] at hqn
    by_cases he : q = p
    · exact Or.inr (he ▸ mem_cons_self ..)
    · rcases hf.all hs q hq0 hqn with hu | hm
      · exact Or.inl ⟨hu, he⟩
      · exact Or.inr (mem_cons_of_mem _ hm)

end Pager

/-! ## The laws -/

namespace BufferPool

variable {s : BufferPool} {U : Set PageId} {id p : PageId} {strict : Bool}

/-- The pool is in order, with these pages in use. -/
def Inv (strict : Bool) (s : BufferPool) (U : Set PageId) : Prop :=
  Core s U ∧ ∃ F, FreeOk strict s.pager U F

/-- A call that only settles and loads keeps the free list if the monitor lets it pass. -/
theorem Inv.frame {s' : BufferPool} (h : Inv strict s U) (hf : Frame s s' U id)
    (hid : id = 0 ∨ id ∈ U) (hhead : headOk strict s.pager s'.pager) : Inv strict s' U := by
  obtain ⟨hcore, F, hfree⟩ := h
  refine ⟨hf.core, hfree.carry hhead (fun p hp => ?_) hf.size⟩
  have hp0 := (hfree.inside p hp).1
  have hpU := hfree.unused p hp
  refine hf.disk p ?_ (hcore.look_unused hp0 hpU)
  rintro rfl
  exact hid.elim hp0 hpU

/-- Settling, if the monitor lets it pass. -/
theorem Inv.settles {s' : BufferPool} (h : Inv strict s U) (hs : Settles s s')
    (hhead : headOk strict s.pager s'.pager) :
    Inv strict s' U ∧ (∀ q, q ≠ 0 → s'.view q = s.view q) ∧ s'.root = s.root := by
  obtain ⟨hcore, hnum, hview, hroot⟩ := h.1.settles hs
  have hframe : Frame s s' U 0 :=
    ⟨hcore, hnum, fun q hq _ => hview q hq, fun q _ hq => (hs.of_none hq).2⟩
  exact ⟨h.frame hframe (Or.inl rfl) hhead, hview, hroot⟩

/-- Storing a checkpoint LSN touches nothing else. -/
theorem Inv.writeCheckpointLsn (h : Inv strict s U) (lsn : UInt64) :
    Inv strict (s.writeCheckpointLsn lsn) U ∧ (s.writeCheckpointLsn lsn).root = s.root ∧
      (∀ q, q ≠ 0 → (s.writeCheckpointLsn lsn).view q = s.view q) ∧
      (s.writeCheckpointLsn lsn).disk 0 = (s.disk 0).setLsn lsn := by
  obtain ⟨hcore, F, hfree⟩ := h
  have hread : s.pager.readPage 0 = s.disk 0 := readPage_inside hcore.pos
  have hpg : s.pager.writeCheckpointLsn lsn = s.pager.writePage 0 ((s.disk 0).setLsn lsn) := by
    unfold Pager.writeCheckpointLsn
    rw [hread]
  obtain ⟨hnum, hlen⟩ := writePage_size ((s.disk 0).setLsn lsn) hcore.pos hcore.len
  rw [← hpg] at hnum hlen
  have h0 : (s.pager.writeCheckpointLsn lsn).file.page 0 = (s.disk 0).setLsn lsn := by
    rw [hpg, writePage_page, if_pos rfl]
  have hother : ∀ q, q ≠ 0 → (s.pager.writeCheckpointLsn lsn).file.page q = s.disk q := by
    intro q hq
    rw [hpg, writePage_page, if_neg hq]
    rfl
  obtain ⟨hcore', hroot⟩ := hcore.repage (s.pager.writeCheckpointLsn lsn) U
    (by rw [hlen, hnum, hcore.len]) (by rw [hnum]; exact hcore.pos) (fun q hq _ => hq)
    (by rw [hnum]; exact hcore.used) (fun q hq _ => hother q hq)
    (by rw [h0, Page.rootField_setLsn]) (by rw [h0, Page.hasMagic_setLsn]; exact hcore.magic)
  refine ⟨⟨hcore', F, ?_, hfree.nodup, ?_, hfree.unused, ?_⟩, hroot,
    fun q hq => view_repage (hother q hq), h0⟩
  · rw [show ((s.writeCheckpointLsn lsn).pager.file.page 0) = (s.disk 0).setLsn lsn from h0,
      Page.freeField_setLsn]
    exact hfree.list.congr (fun q hq => hother q (hfree.inside q hq).1)
  · intro q hq
    rw [show (s.writeCheckpointLsn lsn).pager.numPages = s.pager.numPages from hnum]
    exact hfree.inside q hq
  · intro hs q hq hlt
    rw [show (s.writeCheckpointLsn lsn).pager.numPages = s.pager.numPages from hnum] at hlt
    exact hfree.all hs q hq hlt

theorem Inv.fetch (h : Inv strict s U) (hid : id = 0 ∨ id ∈ U) :
    ((guardedPool strict).fetchPage id).wp s (fun page s' => page = s.view id ∧ Inv strict s' U ∧
      (∀ q, q ≠ 0 → s'.view q = s.view q) ∧ s'.root = s.root) Stopped := by
  by_cases hg : poolGuard strict (.fetch id) s
  · obtain ⟨hpage, hframe, hself, hroot⟩ := h.1.fetch hid
    refine wp_of_ok (if_pos hg) ⟨hpage, h.frame hframe hid hg, fun q hq => ?_, hroot⟩
    by_cases he : q = id
    · exact he ▸ hself (he ▸ hq)
    · exact hframe.view q hq he
  · exact wp_of_error (if_neg hg) rfl

theorem Inv.write {page : Page} (h : Inv strict s U) (hid : id = 0 ∨ id ∈ U)
    (hmagic : id = 0 → page.hasMagic) :
    ((guardedPool strict).writePage id page).wp s (fun _ s' => Inv strict s' U ∧
      (id ≠ 0 → s'.view id = page) ∧ (∀ q, q ≠ 0 → q ≠ id → s'.view q = s.view q) ∧
      s'.root = if id = 0 then page.rootField else s.root) Stopped := by
  by_cases hg : poolGuard strict (.write id page) s
  · obtain ⟨hframe, hself, hroot⟩ := h.1.write hid hmagic
    exact wp_of_ok (if_pos hg) ⟨h.frame hframe hid hg, hself, hframe.view, hroot⟩
  · exact wp_of_error (if_neg hg) rfl

/-- A page is handed out by a change of the file behind the cache. -/
theorem Core.handOut {pg : Pager} (h : Core s U) (hid : id ∉ U) (h0 : id ≠ 0)
    (hlen : pg.file.len = pg.numPages.toNat) (hle : s.pager.numPages ≤ pg.numPages)
    (hin : id < pg.numPages) (hroot : (pg.file.page 0).rootField = (s.disk 0).rootField)
    (hmagic : (pg.file.page 0).hasMagic = (s.disk 0).hasMagic)
    (hother : ∀ q, q ≠ 0 → q ≠ id → pg.file.page q = s.disk q) :
    Core { s with pager := pg } (U ∪ {id}) ∧
      (∀ q ∈ U, ({ s with pager := pg } : BufferPool).view q = s.view q) ∧
      ({ s with pager := pg } : BufferPool).root = s.root := by
  have hused : ∀ q ∈ U ∪ {id}, q ≠ 0 ∧ q < pg.numPages := by
    rintro q (hq | rfl)
    · exact ⟨(h.used q hq).1, UInt32.lt_of_lt_of_le (h.used q hq).2 hle⟩
    · exact ⟨h0, hin⟩
  have hcached : ∀ q, q ≠ 0 → (s.look q).isSome → pg.file.page q = s.disk q := by
    intro q hq0 hq
    refine hother q hq0 ?_
    rintro rfl
    rw [h.look_unused h0 hid] at hq
    exact absurd hq (by simp)
  obtain ⟨hcore, hroot'⟩ := h.repage pg (U ∪ {id}) hlen (UInt32.lt_of_lt_of_le h.pos hle)
    (fun q hq _ => Or.inl hq) hused hcached hroot (hmagic.trans h.magic)
  refine ⟨hcore, fun q hq => view_repage (hother q (h.used q hq).1 ?_), hroot'⟩
  rintro rfl
  exact hid hq

theorem Inv.alloc (h : Inv strict s U) :
    (guardedPool strict).allocatePage.wp s (fun id s' => id ∉ U ∧ Inv strict s' (U ∪ {id}) ∧
      (∀ q ∈ U, s'.view q = s.view q) ∧ s'.root = s.root) Stopped := by
  by_cases hg : poolGuard strict .alloc s
  · obtain ⟨hcore, F, hfree⟩ := h
    have hrun : ∀ {id pg}, s.pager.allocatePage = (id, pg) →
        (guardedPool strict).allocatePage s = (.ok id, { s with pager := pg }) := by
      intro id pg heq
      refine (if_pos hg).trans ?_
      show (Except.ok s.pager.allocatePage.1, { s with pager := s.pager.allocatePage.2 }) = _
      rw [heq]
    cases F with
    | cons p F =>
      obtain ⟨hp0, hpn⟩ := hfree.inside p (mem_cons_self ..)
      have hpU := hfree.unused p (mem_cons_self ..)
      obtain ⟨pg, heq, hnum, hlen, hmeta, hother, hfree'⟩ :=
        Pager.allocatePage_pop hcore.pos hcore.len hfree
      obtain ⟨hcore', hview, hroot⟩ := hcore.handOut hpU hp0 (by rw [hlen, hnum, hcore.len])
        (by rw [hnum]; exact UInt32.le_refl _) (by rw [hnum]; exact hpn)
        (by rw [hmeta, Page.rootField_setFree]; rfl) (by rw [hmeta, Page.hasMagic_setFree]; rfl)
        hother
      exact wp_of_ok (hrun heq) ⟨hpU, ⟨hcore', F, hfree'⟩, hview, hroot⟩
    | nil =>
      have hmax : s.pager.numPages < u32Max := by
        have hhead : s.pager.freeHead = u32Max := hfree.list
        have hg' : (s.pager.freeHead != u32Max || decide (s.pager.numPages < u32Max)) := hg
        rw [hhead] at hg'
        simpa using hg'
      have hn0 : s.pager.numPages ≠ 0 := fun he =>
        absurd (he ▸ hcore.pos : s.pager.numPages < s.pager.numPages) (UInt32.lt_irrefl _)
      have hnU : s.pager.numPages ∉ U := fun hu => UInt32.lt_irrefl _ (hcore.used _ hu).2
      have hlt : s.pager.numPages < s.pager.numPages + 1 :=
        UInt32.lt_add_one (fun he => UInt32.lt_irrefl _ (he ▸ hmax))
      obtain ⟨pg, heq, hnum, hlen, hother, hfree'⟩ :=
        Pager.allocatePage_grow hcore.pos hcore.len hfree hmax
      obtain ⟨hcore', hview, hroot⟩ := hcore.handOut hnU hn0 hlen
        (by rw [hnum]; exact UInt32.le_of_lt hlt) (by rw [hnum]; exact hlt)
        (by rw [hother 0 (Ne.symm hn0)]; rfl) (by rw [hother 0 (Ne.symm hn0)]; rfl)
        (fun q _ hq => hother q hq)
      exact wp_of_ok (hrun heq) ⟨hnU, ⟨hcore', [], hfree'⟩, hview, hroot⟩
  · exact wp_of_error (if_neg hg) rfl

/-- Dropping a cached copy, as `free_page` does first. -/
theorem Core.forget (h : Core s U) (p : PageId) :
    Core { s with cache := s.cache.pop p } U ∧
      ({ s with cache := s.cache.pop p } : BufferPool).look p = none ∧
      ∀ q, q ≠ p → ({ s with cache := s.cache.pop p } : BufferPool).view q = s.view q := by
  have hlook : ∀ q, ({ s with cache := s.cache.pop p } : BufferPool).look q
      = if p = q then none else s.look q := Lru.find_pop s.cache p
  have hsome : ∀ q pd, ({ s with cache := s.cache.pop p } : BufferPool).look q = some pd →
      s.look q = some pd := by
    intro q pd hq
    rw [hlook q] at hq
    split at hq
    · exact absurd hq (by simp)
    · exact hq
  refine ⟨⟨Lru.wf_pop h.wf p, h.len, h.pos, fun q pd hq => h.cached q pd (hsome q pd hq), h.used,
    fun q page h0 hq => h.clean q page h0 (hsome q _ hq), fun page hq => h.cleanMeta page (hsome 0 _ hq),
    h.magic, fun pd hq => h.magicMeta pd (hsome 0 pd hq)⟩, (hlook p).trans (if_pos rfl), ?_⟩
  intro q hq
  have hq' := (hlook q).trans (if_neg (Ne.symm hq))
  unfold view
  rw [hq']
  rfl

/-- Freeing a page takes it out of use, whatever the free list is like. -/
theorem Core.free (h : Core s U) (hp : p ∈ U) : Core (s.freePage p) (U \ {p}) ∧
    (∀ q ∈ U, q ≠ p → (s.freePage p).view q = s.view q) ∧ (s.freePage p).root = s.root := by
  obtain ⟨hp0, hpn⟩ := h.used p hp
  obtain ⟨hnum, hlen, hmeta, -, hother⟩ := Pager.freePage_pages h.pos h.len hp0 hpn
  obtain ⟨hcore₁, hlook, hview⟩ := h.forget p
  have hroot₁ : ({ s with cache := s.cache.pop p } : BufferPool).root = s.root := by
    unfold root; rw [hview 0 (Ne.symm hp0)]
  obtain ⟨hcore₂, hroot₂⟩ := hcore₁.repage (s.pager.freePage p) (U \ {p})
    (by rw [hlen, hnum, h.len]) (by rw [hnum]; exact h.pos)
    (by
      intro q hq hl
      refine ⟨hq, ?_⟩
      rintro rfl
      rw [hlook] at hl
      exact absurd hl (by simp))
    (by rintro q ⟨hq, _⟩; rw [hnum]; exact h.used q hq)
    (by
      intro q hq0 hq
      refine hother q hq0 ?_
      rintro rfl
      rw [hlook] at hq
      exact absurd hq (by simp))
    (by rw [hmeta, Page.rootField_setFree]; rfl) (by rw [hmeta, Page.hasMagic_setFree]; exact h.magic)
  refine ⟨hcore₂, fun q hq hne => ?_, hroot₂.trans hroot₁⟩
  exact (view_repage (s := { s with cache := s.cache.pop p })
    (hother q (h.used q hq).1 hne)).trans (hview q hne)

theorem Inv.free (h : Inv strict s U) (hp : p ∈ U) :
    ((guardedPool strict).freePage p).wp s (fun _ s' => Inv strict s' (U \ {p}) ∧
      (∀ q ∈ U, q ≠ p → s'.view q = s.view q) ∧ s'.root = s.root) Stopped := by
  obtain ⟨hcore, F, hfree⟩ := h
  obtain ⟨hp0, hpn⟩ := hcore.used p hp
  obtain ⟨hcore', hview, hroot⟩ := hcore.free hp
  have hrun : (guardedPool strict).freePage p s = (.ok (), s.freePage p) := rfl
  exact wp_of_ok hrun
    ⟨⟨hcore', _, Pager.freePage_push hcore.pos hcore.len hfree hp hp0 hpn⟩, hview, hroot⟩

/-- **The pool is a lawful store** as long as its monitor does not stop it. -/
def laws (strict : Bool) : (guardedPool strict).Laws where
  Inv := Inv strict
  view := view
  root := root
  valid := fun h hp => ⟨(h.1.used _ hp).1, ne_u32Max_of_lt (h.1.used _ hp).2⟩
  fetch := by
    intro s U p h hp
    refine wp_mono (h.fetch (Or.inr hp)) ?_ (fun _ _ he => he)
    rintro page s' ⟨hpage, hinv, hview, hroot⟩
    exact ⟨hpage, hinv, fun q hq => hview q (h.1.used q hq).1, hroot⟩
  write := by
    intro s U p page h hp
    have hp0 := (h.1.used p hp).1
    refine wp_mono (h.write (Or.inr hp) (fun he => absurd he hp0)) ?_ (fun _ _ he => he)
    rintro ⟨⟩ s' ⟨hinv, hself, hview, hroot⟩
    rw [if_neg hp0] at hroot
    exact ⟨hinv, hself hp0, fun q hq hne => hview q (h.1.used q hq).1 hne, hroot⟩
  alloc := fun h => h.alloc
  free := fun h hp => h.free hp
  fetchMeta := by
    intro s U h
    refine wp_mono (h.fetch (Or.inl rfl)) ?_ (fun _ _ he => he)
    rintro page s' ⟨hpage, hinv, hview, hroot⟩
    exact ⟨by rw [hpage]; rfl, hinv, fun q hq => hview q (h.1.used q hq).1, hroot⟩
  persist := by
    intro s U id h _
    refine wp_seq (h.fetch (Or.inl rfl)) ?_ (fun _ _ he => he)
    rintro page s₁ ⟨hpage, hinv₁, hview₁, hroot₁⟩
    have hmagic : (page.setRoot id).hasMagic := by
      rw [Page.hasMagic_setRoot, hpage]
      exact h.1.magic_view
    refine wp_mono (hinv₁.write (Or.inl rfl) (fun _ => hmagic)) ?_ (fun _ _ he => he)
    rintro ⟨⟩ s₂ ⟨hinv₂, _, hview₂, hroot₂⟩
    rw [if_pos rfl, Page.rootField_setRoot] at hroot₂
    refine ⟨hinv₂, fun q hq => ?_, hroot₂⟩
    have hq0 := (h.1.used q hq).1
    rw [hview₂ q hq0 hq0, hview₁ q hq0]

end BufferPool

end MagnumDB
