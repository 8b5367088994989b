import MagnumDB.Storage.Reopen

/-!
# The pool as a map of pages

Seen from outside, the buffer pool is a map from the pages that are allocated to
what was last written to them. Where a page is, in the cache or in the file, and
what is evicted or flushed on the way, does not show.

This holds as long as page 0 is not written through the pool, so that its free-list
head is never taken back, and as long as the pages can be counted: with `2 ^ 32`
pages the count is 0 again, and every page that is not cached reads as zeros.
-/

namespace MagnumDB

open BufferPool

/-- The calls of the pool. -/
inductive PoolCall where
  | allocate
  | free (p : PageId)
  | fetch (p : PageId)
  | write (p : PageId) (page : Page)
  | flush

/-- What a call returns. -/
inductive PoolResult where
  | id (p : PageId)
  | page (page : Page)
  | done

/-- The pages that are allocated, and what was last written to each since then. -/
abbrev PageMap := PageId → Option Page

namespace PoolCall

def exec (s : BufferPool) : PoolCall → PoolResult × BufferPool
  | .allocate => (.id s.allocatePage.1, s.allocatePage.2)
  | .free p => (.done, s.freePage p)
  | .fetch p => (.page (s.fetchPage p).1, (s.fetchPage p).2)
  | .write p page => (.done, s.writePage p page)
  | .flush => (.done, s.flushAll)

/-- What a call with this result does to the map. -/
def apply (m : PageMap) : PoolCall → PoolResult → PageMap
  | .allocate, .id p => Function.update m p (some Page.default)
  | .free p, _ => Function.update m p none
  | .write p page, _ => Function.update m p (some page)
  | _, _ => m

/-- Page 0 is not written, and other pages are only used while they are allocated. -/
def Legal (m : PageMap) : PoolCall → Prop
  | .allocate => True
  | .free p => p = 0 ∨ (m p).isSome
  | .fetch p => p = 0 ∨ (m p).isSome
  | .write p _ => p ≠ 0 ∧ (m p).isSome
  | .flush => True

/-- There is a page to allocate: one on the free list, or a number for a new one. -/
def Room (s : BufferPool) : PoolCall → Prop
  | .allocate => s.pager.freeHead ≠ u32Max ∨ s.pager.numPages < u32Max
  | _ => True

end PoolCall

instance PoolCall.decidableLegal (m : PageMap) : (c : PoolCall) → Decidable (c.Legal m)
  | .allocate => inferInstanceAs (Decidable True)
  | .free p => inferInstanceAs (Decidable (p = 0 ∨ (m p).isSome))
  | .fetch p => inferInstanceAs (Decidable (p = 0 ∨ (m p).isSome))
  | .write p _ => inferInstanceAs (Decidable (p ≠ 0 ∧ (m p).isSome))
  | .flush => inferInstanceAs (Decidable True)

instance PoolCall.decidableRoom (s : BufferPool) : (c : PoolCall) → Decidable (c.Room s)
  | .allocate => inferInstanceAs (Decidable (s.pager.freeHead ≠ u32Max ∨ s.pager.numPages < u32Max))
  | .free _ => inferInstanceAs (Decidable True)
  | .fetch _ => inferInstanceAs (Decidable True)
  | .write _ _ => inferInstanceAs (Decidable True)
  | .flush => inferInstanceAs (Decidable True)

/-- The states of the pool and of the map that legal calls lead to, if every call meets a
condition. -/
inductive PoolRun (C : BufferPool → PoolCall → Prop) (s₀ : BufferPool) (m₀ : PageMap) :
    BufferPool → PageMap → Prop where
  | start : PoolRun C s₀ m₀ s₀ m₀
  | call {s : BufferPool} {m : PageMap} (c : PoolCall) : PoolRun C s₀ m₀ s m → c.Legal m → C s c →
      PoolRun C s₀ m₀ (c.exec s).2 (c.apply m (c.exec s).1)

/-! ## Page 0 stays clean -/

namespace BufferPool

variable {s s' : BufferPool} {id : PageId}

/-- The cached copy of page 0 is not dirty. -/
def MetaClean (s : BufferPool) : Prop := ∀ page, s.look 0 ≠ some (page, true)

theorem MetaClean.settles (h : MetaClean s) (hs : Settles s s') :
    MetaClean s' ∧ s'.disk 0 = s.disk 0 := by
  refine ⟨fun page hl => h page (hs.dirty hl), ?_⟩
  cases hs.page 0 with
  | same _ h₂ => exact h₂
  | written page h₁ _ _ => exact absurd h₁ (h page)
  | dropped _ _ _ h₃ => exact h₃

theorem MetaClean.puts {page : Page} {dirty : Bool} (h : MetaClean s) (hp : Puts s s' id page dirty)
    (hid : id = 0 → dirty = false) : MetaClean s' ∧ s'.disk 0 = s.disk 0 := by
  constructor
  · intro page' hl
    rw [hp.look 0] at hl
    split at hl
    · rename_i he
      obtain ⟨-, hd⟩ := Prod.mk.inj (Option.some.inj hl)
      rw [hid he] at hd
      exact Bool.false_ne_true hd
    · exact h page' hl
  · unfold disk
    rw [hp.pager]

theorem MetaClean.fetch (h : MetaClean s) (hwf : s.cache.WF) (id : PageId) :
    MetaClean (s.fetchPage id).2 ∧ (s.fetchPage id).2.disk 0 = s.disk 0 := by
  cases hl : s.look id with
  | some pd => exact h.settles (fetchPage_hit hwf hl).2
  | none =>
    obtain ⟨_, s₁, hset, _, _, hput⟩ := fetchPage_miss hwf hl
    obtain ⟨h₁, hd₁⟩ := h.settles hset
    obtain ⟨h₂, hd₂⟩ := h₁.puts hput fun _ => rfl
    exact ⟨h₂, hd₂.trans hd₁⟩

theorem MetaClean.write (h : MetaClean s) (hwf : s.cache.WF) (hid : id ≠ 0) (page : Page) :
    MetaClean (s.writePage id page) ∧ (s.writePage id page).disk 0 = s.disk 0 := by
  obtain ⟨s₁, s₂, hset₁, _, hput, hset₂⟩ := writePage_spec hwf id page
  obtain ⟨h₁, hd₁⟩ := h.settles hset₁
  obtain ⟨h₂, hd₂⟩ := h₁.puts hput fun he => absurd he hid
  obtain ⟨h₃, hd₃⟩ := h₂.settles hset₂
  exact ⟨h₃, hd₃.trans (hd₂.trans hd₁)⟩

theorem MetaClean.pop (h : MetaClean s) {pager : Pager} (p : PageId) :
    MetaClean { s with cache := s.cache.pop p, pager } := by
  intro page hl
  have hl' : (s.cache.pop p).find 0 = some (page, true) := hl
  rw [Lru.find_pop] at hl'
  split at hl'
  · exact absurd hl' (by simp)
  · exact h page hl'

theorem headOk_of_disk {strict : Bool} (h : s'.disk 0 = s.disk 0) :
    headOk strict s.pager s'.pager := headOk_of_eq (congrArg Page.freeField h)

end BufferPool

/-! ## The map -/

/-- The pool has the pages of the map. -/
structure HoldsPages (s : BufferPool) (m : PageMap) : Prop where
  inv : Inv false s {p | (m p).isSome}
  metaClean : s.MetaClean
  view : ∀ p page, m p = some page → s.view p = page

namespace HoldsPages

variable {s : BufferPool} {m : PageMap} {p : PageId}

theorem valid {page : Page} (h : HoldsPages s m) (hp : m p = some page) :
    p ≠ 0 ∧ p < s.pager.numPages :=
  h.inv.1.used p (Option.isSome_of_eq_some hp)

theorem fetch (h : HoldsPages s m) (hp : p = 0 ∨ (m p).isSome) :
    HoldsPages (s.fetchPage p).2 m ∧ ∀ page, m p = some page → (s.fetchPage p).1 = page := by
  obtain ⟨hpage, hframe, hself, _⟩ := h.inv.1.fetch hp
  obtain ⟨hclean, hdisk⟩ := h.metaClean.fetch h.inv.1.wf p
  refine ⟨⟨h.inv.frame hframe hp (headOk_of_disk hdisk), hclean, fun q page hq => ?_⟩,
    fun page hm => hpage.trans (h.view p page hm)⟩
  have hq0 := (h.valid hq).1
  by_cases he : q = p
  · subst he
    exact (hself hq0).trans (h.view q page hq)
  · exact (hframe.view q hq0 he).trans (h.view q page hq)

theorem write (h : HoldsPages s m) (hp0 : p ≠ 0) (hp : (m p).isSome) (page : Page) :
    HoldsPages (s.writePage p page) (Function.update m p (some page)) := by
  have hwrite : Frame s (s.writePage p page) {q | (m q).isSome} p ∧ _ :=
    h.inv.1.write (Or.inr hp) fun he => absurd he hp0
  obtain ⟨hframe, hself, _⟩ := hwrite
  obtain ⟨hclean, hdisk⟩ := h.metaClean.write h.inv.1.wf hp0 page
  have hset : {q | (Function.update m p (some page) q).isSome} = {q | (m q).isSome} := by
    ext q
    by_cases he : q = p
    · subst he
      simp [hp]
    · simp [he]
  refine ⟨?_, hclean, fun q page' hq => ?_⟩
  · rw [hset]
    exact h.inv.frame hframe (Or.inr hp) (headOk_of_disk hdisk)
  · by_cases he : q = p
    · subst he
      rw [Function.update_self] at hq
      rw [hself hp0, Option.some.inj hq]
    · rw [Function.update_of_ne he] at hq
      exact (hframe.view q (h.valid hq).1 he).trans (h.view q page' hq)

theorem flush (h : HoldsPages s m) :
    HoldsPages s.flushAll m ∧ ∀ p page, m p = some page → s.flushAll.pager.readPage p = page := by
  have hset := flushAll_settles h.inv.1.wf
  obtain ⟨hclean, hdisk⟩ := h.metaClean.settles hset
  obtain ⟨hinv, hview, _⟩ := h.inv.settles hset (headOk_of_disk hdisk)
  have h' : HoldsPages s.flushAll m :=
    ⟨hinv, hclean, fun q page hq => (hview q (h.valid hq).1).trans (h.view q page hq)⟩
  refine ⟨h', fun p page hp => ?_⟩
  obtain ⟨hp0, hlt⟩ := h'.valid hp
  rw [readPage_inside hlt, ← h'.view p page hp]
  exact ((hinv.1.view_of_clean (flushAll_clean s)).1 p hp0).symm

theorem allocate (h : HoldsPages s m) (hroom : PoolCall.Room s .allocate) :
    s.allocatePage.1 ≠ 0 ∧ m s.allocatePage.1 = none ∧
      HoldsPages s.allocatePage.2 (Function.update m s.allocatePage.1 (some Page.default)) := by
  have hguard : poolGuard false .alloc s := by
    have hroom' : s.pager.freeHead ≠ u32Max ∨ s.pager.numPages < u32Max := hroom
    simpa [poolGuard] using hroom'
  have hrun : (guardedPool false).allocatePage s = (.ok s.allocatePage.1, s.allocatePage.2) :=
    if_pos hguard
  obtain ⟨hfresh, hinv, hview, _⟩ := Prog.wp_ok h.inv.alloc hrun
  have hnone : m s.allocatePage.1 = none := Option.not_isSome_iff_eq_none.mp hfresh
  have hzero : s.allocatePage.1 ≠ 0 := (hinv.1.used _ (Or.inr rfl)).1
  have hset : {q | (Function.update m s.allocatePage.1 (some Page.default) q).isSome}
      = {q | (m q).isSome} ∪ {s.allocatePage.1} := by
    ext q
    by_cases he : q = s.allocatePage.1
    · simp [he]
    · simp [he]
  refine ⟨hzero, hnone, ?_, h.metaClean, fun q page hq => ?_⟩
  · rw [hset]
    exact hinv
  · by_cases he : q = s.allocatePage.1
    · -- the new page is not cached, and it was cleared in the file
      rw [he, Function.update_self] at hq
      have hlook : s.allocatePage.2.look s.allocatePage.1 = none :=
        h.inv.1.look_unused hzero hfresh
      rw [he, view_of_none hlook, ← Option.some.inj hq]
      exact Pager.allocatePage_cleared s.pager
    · rw [Function.update_of_ne he] at hq
      exact (hview q (Option.isSome_of_eq_some hq)).trans (h.view q page hq)

theorem free (h : HoldsPages s m) (hp : (m p).isSome) :
    HoldsPages (s.freePage p) (Function.update m p none) := by
  have hrun : (guardedPool false).freePage p s = (.ok (), s.freePage p) := rfl
  obtain ⟨hinv, hview, _⟩ := Prog.wp_ok (h.inv.free hp) hrun
  have hset : {q | (Function.update m p none q).isSome} = {q | (m q).isSome} \ {p} := by
    ext q
    by_cases he : q = p
    · simp [he]
    · simp [he]
  refine ⟨?_, h.metaClean.pop p, fun q page hq => ?_⟩
  · rw [hset]
    exact hinv
  · have he : q ≠ p := by
      intro he
      rw [he, Function.update_self] at hq
      exact absurd hq (by simp)
    rw [Function.update_of_ne he] at hq
    exact (hview q (Option.isSome_of_eq_some hq) he).trans (h.view q page hq)

theorem free_zero (h : HoldsPages s m) : HoldsPages (s.freePage 0) (Function.update m 0 none) := by
  have hm : Function.update m 0 none = m := by
    refine Function.update_eq_self_iff.mpr ?_
    cases hz : m 0 with
    | none => rfl
    | some page => exact absurd rfl (h.valid hz).1
  have hpool : s.freePage 0 = { s with cache := s.cache.pop 0 } := by
    unfold freePage
    rw [show s.pager.freePage 0 = s.pager from if_pos (Or.inl rfl)]
  obtain ⟨hcore, _, hview⟩ := h.inv.1.forget 0
  rw [hm, hpool]
  exact ⟨⟨hcore, h.inv.2⟩, h.metaClean.pop 0,
    fun q page hq => (hview q (h.valid hq).1).trans (h.view q page hq)⟩

/-- **One call.** -/
theorem step (h : HoldsPages s m) {c : PoolCall} (hlegal : c.Legal m) (hroom : c.Room s) :
    HoldsPages (c.exec s).2 (c.apply m (c.exec s).1) := by
  cases c with
  | allocate => exact (h.allocate hroom).2.2
  | free p =>
    rcases hlegal with rfl | hp
    · exact h.free_zero
    · exact h.free hp
  | fetch p => exact (h.fetch hlegal).1
  | write p page => exact h.write hlegal.1 hlegal.2 page
  | flush => exact h.flush.1

/-- **Any legal calls.** -/
theorem run {s₀ : BufferPool} {m₀ : PageMap} (h₀ : HoldsPages s₀ m₀)
    (h : PoolRun PoolCall.Room s₀ m₀ s m) : HoldsPages s m := by
  induction h with
  | start => exact h₀
  | call c _ hlegal hroom ih => exact ih.step hlegal hroom

end HoldsPages

/-- A file in order: page 0 has the magic bytes, and the free list is apart from the pages of the
map, which are in the file. -/
structure Pager.Ready (pg : Pager) (m : PageMap) : Prop where
  len : pg.file.len = pg.numPages.toNat
  pos : 0 < pg.numPages
  magic : (pg.file.page 0).hasMagic
  free : ∃ F, FreeOk false pg {p | (m p).isSome} F
  pages : ∀ p page, m p = some page → p ≠ 0 ∧ p < pg.numPages ∧ pg.file.page p = page

theorem Pager.fresh_ready : Pager.fresh.Ready (fun _ => none) := by
  refine ⟨rfl, by decide, Page.initialMeta_magic, ⟨[], ?_⟩, fun _ _ h => absurd h (by simp)⟩
  have hset : {p : PageId | ((fun _ => none : PageMap) p).isSome} = ∅ := by simp
  rw [hset]
  exact Pager.fresh_freeOk false

theorem HoldsPages.opened {pg : Pager} {m : PageMap} (h : pg.Ready m) (capacity interval : Nat) :
    HoldsPages (BufferPool.opened pg capacity interval) m := by
  obtain ⟨F, hfree⟩ := h.free
  refine ⟨opened_inv capacity interval h.len h.pos h.magic (fun q hq => ?_) hfree,
    fun page hl => absurd ((opened_look pg capacity interval 0).symm.trans hl) (by simp), ?_⟩
  · obtain ⟨page, hq⟩ := Option.isSome_iff_exists.mp hq
    exact ⟨(h.pages q page hq).1, (h.pages q page hq).2.1⟩
  · exact fun p page hp => (h.pages p page hp).2.2

/-- **The pool refines a map of pages.** Whatever its capacity and its sync interval are, after any
legal calls a fetch returns what the map has, a flush leaves it in the file, and a page that is
handed out is not in the map. -/
theorem pool_refines_map {pg : Pager} {m₀ m : PageMap} {capacity interval : Nat} {s : BufferPool}
    (hready : pg.Ready m₀)
    (hrun : PoolRun PoolCall.Room (BufferPool.opened pg capacity interval) m₀ s m) :
    (∀ p page, m p = some page →
      p ≠ 0 ∧ (s.fetchPage p).1 = page ∧ s.flushAll.pager.readPage p = page) ∧
    (PoolCall.Room s .allocate → s.allocatePage.1 ≠ 0 ∧ m s.allocatePage.1 = none) := by
  have hs : HoldsPages s m := (HoldsPages.opened hready capacity interval).run hrun
  refine ⟨fun p page hp => ⟨(hs.valid hp).1, ?_, hs.flush.2 p page hp⟩, fun hroom => ?_⟩
  · exact (hs.fetch (Or.inr (Option.isSome_of_eq_some hp))).2 page hp
  · obtain ⟨hzero, hnone, _⟩ := hs.allocate hroom
    exact ⟨hzero, hnone⟩

/-- Make the calls, each of them legal and with room, and look at the state they lead to. -/
def checkCalls (P : BufferPool → PageMap → Bool) : List PoolCall → BufferPool → PageMap → Bool
  | [], s, m => P s m
  | c :: cs, s, m =>
    decide (c.Legal m) && decide (c.Room s) &&
      checkCalls P cs (c.exec s).2 (c.apply m (c.exec s).1)

theorem poolRun_of_check {C : BufferPool → PoolCall → Prop} {s₀ : BufferPool} {m₀ : PageMap}
    {P : BufferPool → PageMap → Bool} (hC : ∀ s c, PoolCall.Room s c → C s c) {cs : List PoolCall} :
    ∀ {s : BufferPool} {m : PageMap}, PoolRun C s₀ m₀ s m → checkCalls P cs s m →
    ∃ s' m', PoolRun C s₀ m₀ s' m' ∧ P s' m' := by
  induction cs with
  | nil => exact fun hrun hP => ⟨_, _, hrun, hP⟩
  | cons c cs ih =>
    intro s m hrun hcheck
    rw [checkCalls, Bool.and_eq_true, Bool.and_eq_true, decide_eq_true_eq, decide_eq_true_eq] at hcheck
    obtain ⟨⟨hlegal, hroom⟩, hrest⟩ := hcheck
    exact ih (hrun.call c hlegal (hC s c hroom)) hrest

/-- A page to write. -/
def somePage : Page := Page.default.setNext 7

/-- A pool with room for one page: the first page is evicted when the second one is fetched. -/
theorem pool_refines_evicted : ∃ s m page,
    PoolRun PoolCall.Room (BufferPool.opened Pager.fresh 1 0) (fun _ => none) s m ∧
      s.look 1 = none ∧ m 1 = some page ∧ page.next = 7 ∧ (s.fetchPage 1).1 = page := by
  have hcheck : checkCalls (fun s m => (s.look 1).isNone && (m 1).any fun page => page.next == 7)
      [.allocate, .write 1 somePage, .allocate, .fetch 2] (BufferPool.opened Pager.fresh 1 0)
      (fun _ => none) := by decide +kernel
  obtain ⟨s, m, hrun, hP⟩ := poolRun_of_check (fun _ _ h => h) .start hcheck
  obtain ⟨hlook, hpage⟩ := Bool.and_eq_true_iff.mp hP
  obtain ⟨page, hm, hnext⟩ := (Option.any_eq_true _ _).mp hpage
  exact ⟨s, m, page, hrun, Option.isNone_iff_eq_none.mp hlook, hm, beq_iff_eq.mp hnext,
    ((pool_refines_map Pager.fresh_ready hrun).1 1 page hm).2.1⟩

/-! ## When the count of pages starts over -/

section Wrap

variable {C : BufferPool → PoolCall → Prop} {s₀ s : BufferPool} {m₀ m : PageMap}

theorem Pager.allocatePage_end {pg : Pager} (hpos : 0 < pg.numPages) (hfree : pg.freeHead = u32Max) :
    pg.allocatePage = (pg.numPages, pg.writePage pg.numPages Page.default) := by
  unfold Pager.allocatePage
  rw [readPage_inside hpos]
  exact if_neg fun h => h.1 hfree

theorem Pager.allocatePage_end_count {pg : Pager} (hpos : 0 < pg.numPages)
    (hfree : pg.freeHead = u32Max) (hlt : pg.numPages.toNat + 1 < 2 ^ 32) :
    pg.allocatePage.2.numPages.toNat = pg.numPages.toNat + 1 ∧
      pg.allocatePage.2.freeHead = u32Max := by
  rw [Pager.allocatePage_end hpos hfree]
  have hnum : (pg.writePage pg.numPages Page.default).numPages = pg.numPages + 1 :=
    if_pos (UInt32.le_refl _)
  have hne : (0 : PageId) ≠ pg.numPages := fun he => UInt32.lt_irrefl _ (he ▸ hpos)
  have hone : (1 : UInt32).toNat = 1 := rfl
  refine ⟨?_, ?_⟩
  · rw [hnum, UInt32.toNat_add]
    omega
  · unfold Pager.freeHead
    rw [writePage_page, if_neg hne]
    exact hfree

theorem PoolRun.grow (hC : ∀ s, C s .allocate) (n : Nat) : ∀ {s : BufferPool} {m : PageMap},
    PoolRun C s₀ m₀ s m → 0 < s.pager.numPages → s.pager.freeHead = u32Max →
    s.pager.numPages.toNat + n < 2 ^ 32 →
    ∃ s' m', PoolRun C s₀ m₀ s' m' ∧ s'.cache = s.cache ∧ s'.pager.freeHead = u32Max ∧
      s'.pager.numPages.toNat = s.pager.numPages.toNat + n ∧
      ∀ q, q < s.pager.numPages → m' q = m q := by
  induction n with
  | zero => exact fun hrun _ hfree _ => ⟨_, _, hrun, rfl, hfree, rfl, fun _ _ => rfl⟩
  | succ n ih =>
    intro s m hrun hpos hfree hlt
    have hid : s.allocatePage.1 = s.pager.numPages :=
      congrArg Prod.fst (Pager.allocatePage_end hpos hfree)
    obtain ⟨hsucc, hfree'⟩ := Pager.allocatePage_end_count hpos hfree (by omega)
    obtain ⟨s', m', hrun', hcache, hfree'', hcount, hsame⟩ := ih
      (hrun.call .allocate trivial (hC s))
      (UInt32.lt_iff_toNat_lt.mpr (show 0 < s.pager.allocatePage.2.numPages.toNat by omega)) hfree'
      (show s.pager.allocatePage.2.numPages.toNat + n < 2 ^ 32 by omega)
    have hcount' : s'.pager.numPages.toNat = s.pager.allocatePage.2.numPages.toNat + n := hcount
    refine ⟨s', m', hrun', hcache, hfree'', by omega, fun q hq => ?_⟩
    have hin : q < s.pager.allocatePage.2.numPages := by
      rw [UInt32.lt_iff_toNat_lt] at hq ⊢
      omega
    have hsame' : m' q = Function.update m s.allocatePage.1 (some Page.default) q := hsame q hin
    rw [hsame', hid, Function.update_of_ne]
    rintro rfl
    exact UInt32.lt_irrefl _ hq

theorem fetchPage_of_none {p : PageId} (h : s.look p = none) :
    (s.fetchPage p).1 = s.pager.readPage p := by
  unfold fetchPage
  split
  · rename_i pd _ heq
    have hget := Lru.get_fst s.cache p
    rw [heq] at hget
    exact absurd (hget.trans h) (by simp)
  · rfl

/-- A cache for one page, with a clean copy of page 1: to fetch page 2 drops it. -/
theorem fetch_drops {x : Page} (hcache : s.cache = ⟨1, [(1, (x, false))]⟩) :
    (s.fetchPage 2).2.look 1 = none ∧ (s.fetchPage 2).2.pager = s.pager := by
  obtain ⟨pager, cache, count, interval⟩ := s
  obtain rfl : cache = _ := hcache
  exact ⟨rfl, rfl⟩

theorem cache_single {c : Lru PageId (Page × Bool)} (hcap : c.cap = 1)
    (hkeys : c.entries.map Prod.fst = [1]) (hclean : ∀ e ∈ c.entries, (!e.2.2)) :
    ∃ x, c = ⟨1, [(1, (x, false))]⟩ := by
  obtain ⟨cap, entries⟩ := c
  obtain rfl : cap = 1 := hcap
  match entries, hkeys, hclean with
  | [(id, (x, dirty))], hkeys, hclean =>
    obtain rfl : id = 1 := List.head_eq_of_cons_eq hkeys
    obtain rfl : dirty = false := by simpa using hclean _ List.mem_cons_self
    exact ⟨x, rfl⟩

end Wrap

/-- **A page is lost when the pages cannot be counted any more.** Page 1 is written and flushed, and
pages are allocated until there are `2 ^ 32`. All calls are legal. Page 1 is evicted, and reads
as zeros. -/
theorem page_lost_after_wrap : ∃ s m page,
    PoolRun (fun _ _ => True) (BufferPool.opened Pager.fresh 1 0) (fun _ => none) s m ∧
      m 1 = some page ∧ (s.fetchPage 1).1 ≠ page := by
  have hcheck : checkCalls (fun s m => s.cache.cap == 1 && s.cache.entries.map Prod.fst == [1] &&
        (s.cache.entries.all fun e => !e.2.2) && s.pager.numPages == 3 &&
        s.pager.freeHead == u32Max && ((m 1).any fun page => page.next == 7) && (m 2).isSome)
      [.allocate, .write 1 somePage, .flush, .allocate] (BufferPool.opened Pager.fresh 1 0)
      (fun _ => none) := by decide +kernel
  obtain ⟨s₁, m₁, hrun₁, hP⟩ :=
    poolRun_of_check (C := fun _ _ => True) (fun _ _ _ => trivial) .start hcheck
  simp only [Bool.and_eq_true, beq_iff_eq, Option.any_eq_true, List.all_eq_true] at hP
  obtain ⟨⟨⟨⟨⟨⟨hcap, hkeys⟩, hclean⟩, hnum⟩, hfree⟩, page, hpage, hnext⟩, htwo⟩ := hP
  obtain ⟨x, hcache⟩ := cache_single hcap hkeys hclean
  -- 3 pages so far, and as many more as can be counted
  obtain ⟨s₂, m₂, hrun₂, hcache₂, hfree₂, hcount, hsame⟩ := hrun₁.grow (fun _ => trivial)
    (2 ^ 32 - 4) (by rw [hnum]; decide) hfree (by rw [hnum]; decide)
  have hnum₂ : s₂.pager.numPages = u32Max := by
    refine UInt32.toNat_inj.mp ?_
    rw [hcount, hnum]
    rfl
  -- the next one makes the count 0
  have hpos₂ : 0 < s₂.pager.numPages := by rw [hnum₂]; decide
  have halloc := Pager.allocatePage_end hpos₂ hfree₂
  have hid : s₂.allocatePage.1 = u32Max := (congrArg Prod.fst halloc).trans hnum₂
  have hzero : s₂.allocatePage.2.pager.numPages = 0 := by
    have hpager : s₂.allocatePage.2.pager = s₂.pager.writePage s₂.pager.numPages Page.default :=
      congrArg Prod.snd halloc
    rw [hpager, hnum₂]
    exact if_pos (by rw [hnum₂]; exact UInt32.le_refl _)
  have hrun₃ := hrun₂.call .allocate trivial trivial
  have hm₃ : ∀ q, q < 3 → Function.update m₂ s₂.allocatePage.1 (some Page.default) q = m₁ q := by
    intro q hq
    rw [hid, Function.update_of_ne (ne_u32Max_of_lt hq)]
    exact hsame q (hnum ▸ hq)
  have hlegal : PoolCall.Legal (Function.update m₂ s₂.allocatePage.1 (some Page.default)) (.fetch 2) :=
    Or.inr (by rw [hm₃ 2 (by decide)]; exact htwo)
  have hrun₄ := hrun₃.call (.fetch 2) hlegal trivial
  have hcache₃ : s₂.allocatePage.2.cache = ⟨1, [(1, (x, false))]⟩ := hcache₂.trans hcache
  obtain ⟨hlook, hpager⟩ := fetch_drops hcache₃
  refine ⟨_, _, page, hrun₄, (hm₃ 1 (by decide)).trans hpage, fun he => ?_⟩
  have hread : (s₂.allocatePage.2.fetchPage 2).2.pager.readPage 1 = page :=
    (fetchPage_of_none hlook).symm.trans he
  rw [hpager, Pager.readPage, if_pos (by rw [hzero]; decide)] at hread
  rw [← hread] at hnext
  exact absurd hnext (by decide +kernel)

end MagnumDB
