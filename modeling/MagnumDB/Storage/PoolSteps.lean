import MagnumDB.Storage.Laws

/-!
# What the calls of the buffer pool do

The pool as a cache map and a file: `look` is the cached copy of a page with its
dirty flag, `disk` what the file has. Everything that happens behind the back of
the caller (an eviction, a flush) is a `Settles` step: some dirty copies are
written to the file, and some copies are dropped. A fetch is a settling step and
possibly a load; a write is a settling step, a put, and another settling step.
-/

namespace MagnumDB

namespace BufferPool

/-- The cached copy of a page, and whether it is dirty. -/
def look (s : BufferPool) (q : PageId) : Option (Page × Bool) := s.cache.find q

/-- What the file has in a slot. -/
def disk (s : BufferPool) (q : PageId) : Page := s.pager.file.page q

/-- What happened to one page in a settling step. -/
inductive Settled (s s' : BufferPool) (q : PageId) : Prop where
  | same : s'.look q = s.look q → s'.disk q = s.disk q → Settled s s' q
  | written (page : Page) : s.look q = some (page, true) → s'.disk q = page →
      s'.look q = none ∨ s'.look q = some (page, false) → Settled s s' q
  | dropped (page : Page) : s.look q = some (page, false) → s'.look q = none →
      s'.disk q = s.disk q → Settled s s' q

/-- Dirty copies were written to the file, copies were dropped, and nothing else. -/
structure Settles (s s' : BufferPool) : Prop where
  wf : s'.cache.WF
  cap : s'.cache.cap = s.cache.cap
  interval : s'.syncInterval = s.syncInterval
  page : ∀ q, Settled s s' q
  /-- The file does not grow, because cached pages are inside it. -/
  size : (∀ q pd, s.look q = some pd → q < s.pager.numPages) →
    s.pager.file.len = s.pager.numPages.toNat →
    s'.pager.numPages = s.pager.numPages ∧ s'.pager.file.len = s.pager.file.len

/-- A copy was put into the cache. -/
structure Puts (s s' : BufferPool) (id : PageId) (page : Page) (dirty : Bool) : Prop where
  wf : s'.cache.WF
  cap : s'.cache.cap = s.cache.cap
  interval : s'.syncInterval = s.syncInterval
  look : ∀ q, s'.look q = if id = q then some (page, dirty) else s.look q
  pager : s'.pager = s.pager

variable {s : BufferPool}

theorem Settles.refl (h : s.cache.WF) : Settles s s :=
  ⟨h, rfl, rfl, fun _ => .same rfl rfl, fun _ _ => ⟨rfl, rfl⟩⟩

/-! ## Writing back -/

theorem writePage_page (pg : Pager) (id q : PageId) (page : Page) :
    (pg.writePage id page).file.page q = if q = id then page else pg.file.page q := rfl

variable {id : PageId}

theorem writePage_size {pg : Pager} (page : Page) (h : id < pg.numPages)
    (hlen : pg.file.len = pg.numPages.toNat) :
    (pg.writePage id page).numPages = pg.numPages ∧
      (pg.writePage id page).file.len = pg.file.len := by
  have hlt : id.toNat < pg.numPages.toNat := UInt32.lt_iff_toNat_lt.mp h
  constructor
  · show (if id ≥ pg.numPages then id + 1 else pg.numPages) = _
    rw [if_neg (UInt32.not_le.mpr h)]
  · show max pg.file.len (id.toNat + 1) = _
    omega

/-- The eviction step makes room for a page, unless it is cached already. -/
theorem evict_settles (h : s.cache.WF) (id : PageId) :
    Settles s (s.evict id) ∧ (s.evict id).look id = s.look id ∧
      (s.evict id).disk id = s.disk id ∧
      ((s.evict id).cache.contains id ∨ (s.evict id).cache.len < (s.evict id).cache.cap) := by
  unfold evict
  by_cases hfull : s.cache.len = s.cache.cap ∧ ¬ s.cache.contains id
  · rw [if_pos hfull]
    obtain ⟨e, ⟨page, dirty⟩, hpop, hid, hfind, hgone, hothers, hwf, hroom⟩ := Lru.popLru_of_full h hfull
    rw [hpop]
    refine ⟨⟨hwf, rfl, rfl, fun q => ?_, fun hin hlen => ?_⟩, hothers id hid, ?_, Or.inr hroom⟩
    · by_cases hq : q = e
      · subst hq
        cases dirty with
        | true => exact .written page hfind (by simp [disk, writePage_page]) (Or.inl hgone)
        | false => exact .dropped page hfind hgone rfl
      · refine .same (hothers q hq) ?_
        cases dirty with
        | true => simp [disk, writePage_page, hq]
        | false => rfl
    · cases dirty with
      | true => exact writePage_size page (hin e _ hfind) hlen
      | false => exact ⟨rfl, rfl⟩
    · cases dirty with
      | true => simp [disk, writePage_page, hid]
      | false => rfl
  · rw [if_neg hfull]
    exact ⟨Settles.refl h, rfl, rfl, Lru.room_of_not_full h hfull⟩

theorem putAndEvict_spec (h : s.cache.WF) (id : PageId) (page : Page) (dirty : Bool)
    (hmiss : s.look id = none) :
    ∃ s₁, Settles s s₁ ∧ s₁.look id = none ∧ s₁.disk id = s.disk id ∧
      Puts s₁ (s.putAndEvict id page dirty) id page dirty := by
  obtain ⟨hset, hlook, hdisk, hroom⟩ := evict_settles h id
  refine ⟨s.evict id, hset, hlook.trans hmiss, hdisk, ?_⟩
  unfold putAndEvict
  dsimp only
  rw [Lru.get_eq_none (hlook.trans hmiss)]
  exact ⟨Lru.wf_put _ hroom hset.wf, Lru.put_cap _ _ _, rfl, fun q => Lru.find_put _ hroom q, rfl⟩

/-! ## Flushing -/

theorem foldl_writePage_page : ∀ (l : List (PageId × Page × Bool)) (pg : Pager) (q : PageId),
    (l.map Prod.fst).Nodup →
    ((l.foldl (fun pg e => pg.writePage e.1 e.2.1) pg).file.page q =
      match Lru.findIn q l with
      | some pd => pd.1
      | none => pg.file.page q)
  | [], _, _, _ => rfl
  | e :: l, pg, q, hn => by
    rw [List.map_cons, List.nodup_cons] at hn
    rw [List.foldl_cons, foldl_writePage_page l _ q hn.2, Lru.findIn]
    by_cases he : e.1 = q
    · rw [if_pos he]
      have hnone : Lru.findIn q l = none := Lru.findIn_eq_none_iff.mpr (he ▸ hn.1)
      rw [hnone, writePage_page, if_pos he.symm]
    · rw [if_neg he]
      cases Lru.findIn q l with
      | some pd => rfl
      | none => rw [writePage_page, if_neg (Ne.symm he)]

theorem foldl_writePage_size : ∀ (l : List (PageId × Page × Bool)) (pg : Pager),
    (∀ e ∈ l, e.1 < pg.numPages) → pg.file.len = pg.numPages.toNat →
    (l.foldl (fun pg e => pg.writePage e.1 e.2.1) pg).numPages = pg.numPages ∧
      (l.foldl (fun pg e => pg.writePage e.1 e.2.1) pg).file.len = pg.file.len
  | [], _, _, _ => ⟨rfl, rfl⟩
  | e :: l, pg, hin, hlen => by
    obtain ⟨hn, hl⟩ := writePage_size e.2.1 (hin e (List.mem_cons_self ..)) hlen
    rw [List.foldl_cons]
    have ih := foldl_writePage_size l (pg.writePage e.1 e.2.1)
      (fun x hx => by rw [hn]; exact hin x (List.mem_cons_of_mem _ hx)) (by rw [hl, hn, hlen])
    exact ⟨ih.1.trans hn, ih.2.trans hl⟩

theorem flushAll_look (s : BufferPool) (q : PageId) :
    s.flushAll.look q = (s.look q).map (fun pd => (pd.1, false)) := Lru.find_map _ _ _

/-- After a flush the file has every cached page. -/
theorem flushAll_disk (h : s.cache.WF) (q : PageId) :
    s.flushAll.disk q = match s.look q with
      | some (page, true) => page
      | _ => s.disk q := by
  have hn : ((s.cache.entries.filter (fun e => e.2.2)).map Prod.fst).Nodup :=
    h.nodup.sublist (List.filter_sublist.map _)
  have hpage := foldl_writePage_page _ s.pager q hn
  rw [Lru.findIn_filter h.nodup] at hpage
  refine hpage.trans ?_
  have hlook : Lru.findIn q s.cache.entries = s.look q := rfl
  rw [hlook]
  cases s.look q with
  | none => rfl
  | some pd =>
    obtain ⟨page, dirty⟩ := pd
    cases dirty <;> rfl

theorem flushAll_settles (h : s.cache.WF) : Settles s s.flushAll := by
  refine ⟨Lru.wf_map h (fun e => (e.1, false)), rfl, rfl, fun q => ?_, fun hin hlen => ?_⟩
  · have hdisk := flushAll_disk h q
    have hlook := flushAll_look s q
    cases hq : s.look q with
    | none =>
      rw [hq] at hdisk hlook
      exact .same (by rw [hlook, hq]; rfl) hdisk
    | some pd =>
      obtain ⟨page, dirty⟩ := pd
      rw [hq] at hdisk hlook
      cases dirty with
      | true => exact .written page hq hdisk (Or.inr hlook)
      | false => exact .same (by rw [hlook, hq]; rfl) hdisk
  · refine foldl_writePage_size _ s.pager (fun e he => ?_) hlen
    have hmem := (List.mem_filter.mp he).1
    exact hin e.1 e.2 (Lru.findIn_of_mem h.nodup hmem)

theorem countDirtyWrite_settles (h : s.cache.WF) : Settles s s.countDirtyWrite := by
  unfold countDirtyWrite
  split
  · split
    · have hset := flushAll_settles (s := { s with dirtyWriteCount := 0 }) h
      exact ⟨hset.wf, hset.cap, hset.interval, fun q => by
        cases hset.page q with
        | same h₁ h₂ => exact .same h₁ h₂
        | written page h₁ h₂ h₃ => exact .written page h₁ h₂ h₃
        | dropped page h₁ h₂ h₃ => exact .dropped page h₁ h₂ h₃, hset.size⟩
    · exact ⟨h, rfl, rfl, fun _ => .same rfl rfl, fun _ _ => ⟨rfl, rfl⟩⟩
  · exact Settles.refl h

/-! ## Fetching and writing -/

/-- A cached page is returned as it is; the cache only changes its order. -/
theorem fetchPage_hit (h : s.cache.WF) {pd : Page × Bool} (hit : s.look id = some pd) :
    (s.fetchPage id).1 = pd.1 ∧ Settles s (s.fetchPage id).2 := by
  unfold fetchPage
  rw [Lru.get_eq hit]
  exact ⟨rfl, Lru.wf_get h id, Lru.get_cap _ _, rfl, fun q => .same (Lru.find_get _ _ q) rfl,
    fun _ _ => ⟨rfl, rfl⟩⟩

/-- A page that is not cached is read from the file and cached clean. -/
theorem fetchPage_miss (h : s.cache.WF) (hmiss : s.look id = none) :
    (s.fetchPage id).1 = s.pager.readPage id ∧ ∃ s₁, Settles s s₁ ∧ s₁.look id = none ∧
      s₁.disk id = s.disk id ∧ Puts s₁ (s.fetchPage id).2 id (s.pager.readPage id) false := by
  unfold fetchPage
  rw [Lru.get_eq hmiss]
  exact ⟨rfl, putAndEvict_spec h id _ false hmiss⟩

theorem put_puts (h : s.cache.WF) (hc : (s.look id).isSome) (page : Page) (dirty : Bool) :
    Puts s { s with cache := s.cache.put id (page, dirty) } id page dirty := by
  have hroom : s.cache.contains id ∨ s.cache.len < s.cache.cap := Or.inl hc
  exact ⟨Lru.wf_put _ hroom h, Lru.put_cap _ _ _, rfl, fun q => Lru.find_put _ hroom q, rfl⟩

/-- `mark_dirty` on a cached page. -/
theorem markDirty_spec (h : s.cache.WF) {page : Page} {dirty : Bool}
    (hc : s.look id = some (page, dirty)) :
    ∃ s₂, Puts s s₂ id page true ∧ Settles s₂ (s.markDirty id) := by
  unfold markDirty
  rw [Lru.get_eq hc]
  have hfind := Lru.find_get s.cache id
  have hwf := Lru.wf_get h id
  have hcached : (look { s with cache := (s.cache.get id).2 } id).isSome := by
    show ((s.cache.get id).2.find id).isSome
    rw [hfind]
    exact Option.isSome_of_eq_some hc
  have hp := put_puts (s := { s with cache := (s.cache.get id).2 }) hwf hcached page true
  refine ⟨_, ⟨hp.wf, hp.cap.trans (Lru.get_cap _ _), hp.interval, fun q => ?_, hp.pager⟩,
    countDirtyWrite_settles hp.wf⟩
  refine (hp.look q).trans ?_
  show (if id = q then _ else (s.cache.get id).2.find q) = _
  rw [hfind]
  rfl

/-- A write puts a dirty copy into the cache, with settling before and after. -/
theorem writePage_spec (h : s.cache.WF) (id : PageId) (page : Page) :
    ∃ s₁ s₂, Settles s s₁ ∧ s₁.look id = s.look id ∧ Puts s₁ s₂ id page true ∧
      Settles s₂ (s.writePage id page) := by
  cases hc : s.look id with
  | none =>
    obtain ⟨s₁, hset, hnone, _, hput⟩ := putAndEvict_spec h id page true hc
    refine ⟨s₁, _, hset, hnone, hput, ?_⟩
    unfold writePage
    rw [Lru.get_eq hc]
    exact countDirtyWrite_settles hput.wf
  | some pd =>
    obtain ⟨old, dirty⟩ := pd
    have hfind := Lru.find_get s.cache id
    have hset : Settles s { s with cache := (s.cache.get id).2 } :=
      ⟨Lru.wf_get h id, Lru.get_cap _ _, rfl, fun q => .same (hfind q) rfl, fun _ _ => ⟨rfl, rfl⟩⟩
    have hlook : ({ s with cache := (s.cache.get id).2 } : BufferPool).look id
        = some (old, dirty) := (hfind id).trans hc
    have hp := put_puts hset.wf (by rw [hlook]; rfl) page dirty
    obtain ⟨s₂, hput, hset₂⟩ := markDirty_spec hp.wf ((hp.look id).trans (if_pos rfl))
    refine ⟨_, s₂, hset, hlook, ⟨hput.wf, hput.cap.trans hp.cap, hput.interval.trans hp.interval,
      fun q => ?_, hput.pager.trans hp.pager⟩, ?_⟩
    · rw [hput.look q]
      by_cases hq : id = q
      · rw [if_pos hq, if_pos hq]
      · rw [if_neg hq, if_neg hq, hp.look q, if_neg hq]
    · unfold writePage
      rw [Lru.get_eq hc]
      exact hset₂

end BufferPool

end MagnumDB
