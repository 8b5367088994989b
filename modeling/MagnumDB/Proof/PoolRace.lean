import MagnumDB.Storage.PoolLaws
import MagnumDB.Storage.SharedPool

/-!
# A fetch, a write and a flush of one page

A write is lost in three ways. A `fetch_page` that found the page missing puts the copy that it
read from the file over the one that was written meanwhile. A `write_page` changes a page that
was evicted after it was looked up, or before it is marked dirty. A `flush_all` that marked a
page clean writes it out after the page was evicted and written again.

When none of this comes about (`calm`), the page is the one that was written once the calls have
returned, whatever the order of the sections and whatever is evicted.
-/

namespace MagnumDB

open List

namespace SharedPool

variable {s : SharedPool} {p q : PageId}

/-! ## One page of the pool -/

/-- The entry of a page in the cache. -/
def look (s : SharedPool) (p : PageId) : Option (PageRef × Bool) := s.cache.find p

/-- A page as the file has it. -/
def disk (s : SharedPool) (p : PageId) : Page := s.pager.readPage p

/-- Putting the page `q` into the cache pushes the page `p` out. -/
def evicts (s : SharedPool) (p q : PageId) : Bool :=
  decide (s.cache.len = s.cache.cap) && !s.cache.contains q &&
    s.cache.popLru.1.map Prod.fst == some p

/-- The page has an id that a file can count, and beyond the end of the file there is nothing of
it. -/
def Inside (pg : Pager) (p : PageId) : Prop :=
  p ≠ u32Max ∧ (p ≥ pg.numPages → pg.file.page p = Page.default)

/-- What every section keeps: the cache is one, the page is one of the file, and references are not
given out twice. -/
structure Sound (s : SharedPool) (p : PageId) : Prop where
  wf : s.cache.WF
  inside : Inside s.pager p
  noMax : s.look u32Max = none
  refs : ∀ r d, s.look p = some (r, d) → r < s.nextRef

theorem fetchPage_of_some {e : PageRef × Bool} (h : s.look p = some e) : s.fetchPage p = s.pages e.1 := by
  unfold look at h
  unfold fetchPage
  rw [h]

theorem fetchPage_of_none (h : s.look p = none) : s.fetchPage p = s.disk p := by
  unfold look at h
  unfold fetchPage
  rw [h]
  rfl

/-! ## The file -/

variable {pg : Pager}

theorem Inside.readPage (hp : Inside pg p) : pg.readPage p = pg.file.page p := by
  unfold Pager.readPage
  split
  · exact (hp.2 ‹_›).symm
  · rfl

/-- A page that is written is inside the file, and the file does not get shorter. -/
theorem lt_numPages_writePage (hq : q ≠ u32Max) (page : Page) :
    q < (pg.writePage q page).numPages ∧ pg.numPages ≤ (pg.writePage q page).numPages := by
  unfold Pager.writePage
  split
  · rename_i hge
    have hmax : u32Max.toNat = 4294967295 := rfl
    have hne : q.toNat ≠ u32Max.toNat := fun he => hq (UInt32.toNat_inj.mp he)
    have hbound := q.toNat_lt
    have hone : (1 : UInt32).toNat = 1 := rfl
    have hle : pg.numPages.toNat ≤ q.toNat := UInt32.le_iff_toNat_le.mp hge
    rw [UInt32.lt_iff_toNat_lt, UInt32.le_iff_toNat_le, UInt32.toNat_add]
    omega
  · rename_i hlt
    exact ⟨UInt32.not_le.mp hlt, UInt32.le_refl _⟩

theorem Inside.writePage (hp : Inside pg p) (hq : q ≠ u32Max) (page : Page) :
    Inside (pg.writePage q page) p := by
  obtain ⟨hlt, hle⟩ := @lt_numPages_writePage q pg hq page
  refine ⟨hp.1, fun hbeyond => ?_⟩
  have hpq : p ≠ q := by
    rintro rfl
    exact absurd hlt (UInt32.not_lt.mpr hbeyond)
  show (if p = q then page else pg.file.page p) = _
  rw [if_neg hpq]
  exact hp.2 (UInt32.le_trans hle hbeyond)

theorem readPage_writePage (hp : Inside pg p) (hq : q ≠ u32Max) (page : Page) :
    (pg.writePage q page).readPage p = if p = q then page else pg.readPage p := by
  rw [(hp.writePage hq page).readPage, hp.readPage]
  rfl

/-- What was collected of a page is what the file has of it afterwards. -/
theorem foldl_writePage (pages : PageRef → Page) {toFlush : List (PageId × PageRef)}
    (hp : Inside pg p) (hmax : ∀ e ∈ toFlush, e.1 ≠ u32Max) :
    let pg' := toFlush.foldl (fun pager e => pager.writePage e.1 (pages e.2)) pg
    Inside pg' p ∧
      (∀ page, (∀ r, (p, r) ∈ toFlush → pages r = page) →
        pg'.readPage p = pg.readPage p ∧ (∀ r, (p, r) ∉ toFlush) ∨
          pg'.readPage p = page ∧ ∃ r, (p, r) ∈ toFlush) := by
  induction toFlush generalizing pg with
  | nil => exact ⟨hp, fun page _ => .inl ⟨rfl, nofun⟩⟩
  | cons e toFlush ih =>
    obtain ⟨he, hrest⟩ := forall_mem_cons.mp hmax
    have hnum := hp.writePage he (pages e.2)
    have hread := readPage_writePage hp he (pages e.2)
    obtain ⟨hinside, hcases⟩ := ih hnum hrest
    refine ⟨hinside, fun page hpage => ?_⟩
    rcases hcases page fun r hr => hpage r (mem_cons_of_mem _ hr) with ⟨hkept, hnone⟩ | ⟨hwritten, r, hr⟩
    · by_cases hpe : p = e.1
      · have hmem : (p, e.2) ∈ e :: toFlush := by rw [hpe]; exact mem_cons_self
        refine .inr ⟨?_, e.2, hmem⟩
        rw [foldl_cons, hkept, hread, if_pos hpe]
        exact hpage e.2 hmem
      · refine .inl ⟨?_, fun r hr => ?_⟩
        · rw [foldl_cons, hkept, hread, if_neg hpe]
        · rcases mem_cons.mp hr with heq | hr
          · exact hpe (congrArg Prod.fst heq)
          · exact hnone r hr
    · exact .inr ⟨hwritten, r, mem_cons_of_mem _ hr⟩

/-! ## The sections and one page -/

theorem lookup_fst (s : SharedPool) (q : PageId) : (s.lookup q).1 = (s.look q).map Prod.fst := by
  unfold lookup look
  rw [Lru.get_fst]

theorem look_lookup (s : SharedPool) (p q : PageId) : (s.lookup q).2.look p = s.look p :=
  Lru.find_get s.cache q p

theorem Sound.lookup (hs : s.Sound p) (q : PageId) : (s.lookup q).2.Sound p where
  wf := Lru.wf_get hs.wf q
  inside := hs.inside
  noMax := (look_lookup s u32Max q).trans hs.noMax
  refs r d hr := hs.refs r d ((look_lookup s p q).symm.trans hr)

/-- Eviction: either the page stays as it is, or it was in the cache and now is in the file only,
where it was written if it was dirty. -/
theorem evict_spec (hs : s.Sound p) (q : PageId) :
    (s.evict q).Sound p ∧ (s.evict q).pages = s.pages ∧ (s.evict q).nextRef = s.nextRef ∧
      ((s.evict q).cache.contains q ∨ (s.evict q).cache.len < (s.evict q).cache.cap) ∧
      (∀ q', q' = q → (s.evict q).look q' = s.look q') ∧
      ((s.evicts p q = false ∧ (s.evict q).look p = s.look p ∧ (s.evict q).disk p = s.disk p) ∨
        (s.evicts p q ∧ ∃ r d, s.look p = some (r, d) ∧ (s.evict q).look p = none ∧
          (s.evict q).disk p = if d then s.pages r else s.disk p)) := by
  unfold evict
  by_cases hfull : s.cache.len = s.cache.cap ∧ ¬ s.cache.contains q
  · rw [if_pos hfull]
    obtain ⟨k, ⟨r, d⟩, hpop, hkq, hfind, hgone, hother, hwf, hroom⟩ := Lru.popLru_of_full hs.wf hfull
    have hkmax : k ≠ u32Max := by
      rintro rfl
      have := hs.noMax
      unfold look at this
      rw [hfind] at this
      exact nomatch this
    have hevicts : s.evicts p q = (k == p) := by
      unfold evicts
      rw [hpop, decide_eq_true hfull.1, Bool.eq_false_iff.mpr hfull.2]
      rfl
    rw [hpop]
    dsimp only
    refine ⟨⟨hwf, ?_, ?_, ?_⟩, rfl, rfl, .inr hroom, ?_, ?_⟩
    · split
      · exact hs.inside.writePage hkmax _
      · exact hs.inside
    · by_cases hk : u32Max = k
      · exact absurd hk.symm hkmax
      · exact (hother _ hk).trans hs.noMax
    · intro r' d' hr'
      by_cases hk : p = k
      · have hnone : s.cache.popLru.2.find p = none := hk ▸ hgone
        exact nomatch hnone.symm.trans hr'
      · exact hs.refs r' d' ((hother p hk).symm.trans hr')
    · rintro q' rfl
      exact hother q' hkq
    · by_cases hk : p = k
      · refine .inr ⟨by rw [hevicts, hk]; exact BEq.rfl, r, d, hk ▸ hfind, hk ▸ hgone, ?_⟩
        cases d with
        | true =>
          show (s.pager.writePage k (s.pages r)).readPage p = _
          rw [readPage_writePage hs.inside hkmax, if_pos hk, if_pos rfl]
        | false => rfl
      · refine .inl ⟨by rw [hevicts]; simpa using Ne.symm hk, hother p hk, ?_⟩
        unfold disk
        split
        · rw [readPage_writePage hs.inside hkmax, if_neg hk]
        · rfl
  · rw [if_neg hfull]
    refine ⟨hs, rfl, rfl, Lru.room_of_not_full hs.wf hfull, fun _ _ => rfl, .inl ⟨?_, rfl, rfl⟩⟩
    have hnot : (decide (s.cache.len = s.cache.cap) && !s.cache.contains q) = false := by
      rw [Bool.eq_false_iff]
      simpa using hfull
    unfold evicts
    rw [hnot, Bool.false_and]

theorem look_putAndEvict (hs : s.Sound p) (q : PageId) (r : PageRef) (d : Bool) :
    (∀ q', (s.putAndEvict q r d).look q' = if q = q'
        then some (r, d || ((s.evict q).look q).any Prod.snd) else (s.evict q).look q') ∧
      (s.putAndEvict q r d).cache.WF ∧ (s.putAndEvict q r d).pager = (s.evict q).pager ∧
      (s.putAndEvict q r d).pages = (s.evict q).pages ∧
      (s.putAndEvict q r d).nextRef = (s.evict q).nextRef := by
  obtain ⟨hsound, -, -, hroom, -⟩ := evict_spec hs q
  set e := s.evict q with he
  have hgetroom := Lru.room_get hroom
  have hfst : (e.cache.get q).1 = e.look q := Lru.get_fst e.cache q
  have hwf := Lru.wf_get hsound.wf q
  have hfind (q' : PageId) := Lru.find_get e.cache q q'
  unfold putAndEvict
  rw [← he]
  dsimp only
  generalize e.cache.get q = g at *
  obtain ⟨o, c⟩ := g
  dsimp only at hfst hgetroom hwf hfind
  cases o with
  | none =>
    rw [← hfst]
    refine ⟨fun q' => ?_, Lru.wf_put _ hgetroom hwf, rfl, rfl, rfl⟩
    show (c.put q (r, d)).find q' = _
    rw [Lru.find_put _ hgetroom, hfind]
    simp [look]
  | some v =>
    rw [← hfst]
    refine ⟨fun q' => ?_, Lru.wf_put _ hgetroom hwf, rfl, rfl, rfl⟩
    show (c.put q (r, d || v.2)).find q' = _
    rw [Lru.find_put _ hgetroom, hfind]
    simp [look]

theorem put_other (hs : s.Sound p) (hqp : q ≠ p) (hq : q ≠ u32Max) (r : PageRef) (d : Bool) :
    (s.putAndEvict q r d).Sound p ∧ (s.putAndEvict q r d).pages = s.pages ∧
      ((s.evicts p q = false ∧ (s.putAndEvict q r d).look p = s.look p ∧
          (s.putAndEvict q r d).disk p = s.disk p) ∨
        (s.evicts p q ∧ ∃ r' d', s.look p = some (r', d') ∧
          (s.putAndEvict q r d).look p = none ∧
          (s.putAndEvict q r d).disk p = if d' then s.pages r' else s.disk p)) := by
  obtain ⟨hsound, hpages, hnext, -, -, hcases⟩ := evict_spec hs q
  obtain ⟨hlook, hwf, hpager, hpages', hnext'⟩ := look_putAndEvict hs q r d
  have hlookp : (s.putAndEvict q r d).look p = (s.evict q).look p := (hlook p).trans (if_neg hqp)
  have hdisk : (s.putAndEvict q r d).disk p = (s.evict q).disk p := by
    unfold disk
    rw [hpager]
  refine ⟨⟨hwf, hpager ▸ hsound.inside, ?_, ?_⟩, hpages'.trans hpages, ?_⟩
  · rw [hlook, if_neg hq]
    exact hsound.noMax
  · intro r' d' hr'
    rw [hnext']
    exact hsound.refs r' d' (hlookp.symm.trans hr')
  · rw [hlookp, hdisk]
    exact hcases

theorem put_self (hs : s.Sound p) (r : PageRef) (d : Bool) (hr : r < s.nextRef) :
    (s.putAndEvict p r d).Sound p ∧ (s.putAndEvict p r d).pages = s.pages ∧
      (s.putAndEvict p r d).look p = some (r, d || (s.look p).any Prod.snd) ∧
      (s.putAndEvict p r d).disk p = s.disk p := by
  obtain ⟨hsound, hpages, hnext, -, hself, hcases⟩ := evict_spec hs p
  obtain ⟨hlook, hwf, hpager, hpages', hnext'⟩ := look_putAndEvict hs p r d
  have hlookp : (s.putAndEvict p r d).look p = some (r, d || (s.look p).any Prod.snd) := by
    rw [hlook, if_pos rfl, hself p rfl]
  have hdisk : (s.evict p).disk p = s.disk p := by
    rcases hcases with ⟨-, -, hdisk⟩ | ⟨-, r', d', hthere, hgone, -⟩
    · exact hdisk
    · -- a page that is in the cache is not pushed out by itself
      rw [hself p rfl, hthere] at hgone
      exact nomatch hgone
  refine ⟨⟨hwf, hpager ▸ hsound.inside, ?_, ?_⟩, hpages'.trans hpages, hlookp, ?_⟩
  · rw [hlook, if_neg hs.inside.1]
    exact hsound.noMax
  · intro r' d' hr'
    rw [hlookp] at hr'
    obtain ⟨rfl, -⟩ := Prod.mk.inj (Option.some.inj hr')
    rw [hnext', hnext]
    exact hr
  · rw [← hdisk]
    unfold disk
    rw [hpager]

theorem Sound.newRef (hs : s.Sound p) (page : Page) : (s.newRef page).2.Sound p where
  wf := hs.wf
  inside := hs.inside
  noMax := hs.noMax
  refs r d hr := Nat.lt_succ_of_lt (hs.refs r d hr)

theorem Sound.overwrite (hs : s.Sound p) (r : PageRef) (page : Page) : (s.overwrite r page).Sound p where
  wf := hs.wf
  inside := hs.inside
  noMax := hs.noMax
  refs := hs.refs

theorem Sound.countDirtyWrite (hs : s.Sound p) :
    s.countDirtyWrite.2.Sound p ∧ s.countDirtyWrite.2.look p = s.look p ∧
      s.countDirtyWrite.2.disk p = s.disk p ∧ s.countDirtyWrite.2.pages = s.pages := by
  unfold SharedPool.countDirtyWrite
  split
  · split
    · exact ⟨⟨hs.wf, hs.inside, hs.noMax, hs.refs⟩, rfl, rfl, rfl⟩
    · exact ⟨⟨hs.wf, hs.inside, hs.noMax, hs.refs⟩, rfl, rfl, rfl⟩
  · exact ⟨hs, rfl, rfl, rfl⟩

theorem setDirty_spec (hs : s.Sound p) :
    (s.setDirty p).Sound p ∧ (s.setDirty p).pages = s.pages ∧ (s.setDirty p).disk p = s.disk p ∧
      (s.setDirty p).look p = (s.look p).map fun e => (e.1, true) := by
  have hfst : (s.cache.get p).1 = s.look p := Lru.get_fst s.cache p
  have hwf := Lru.wf_get hs.wf p
  have hfind (q' : PageId) := Lru.find_get s.cache p q'
  unfold setDirty
  generalize s.cache.get p = g at *
  obtain ⟨o, c⟩ := g
  dsimp only at hfst hwf hfind
  cases o with
  | none =>
    rw [← hfst]
    exact ⟨hs, rfl, rfl, rfl⟩
  | some v =>
    have hroom : c.contains p ∨ c.len < c.cap := by
      left
      unfold Lru.contains
      rw [hfind]
      show (s.look p).isSome
      rw [← hfst]
      rfl
    have hlook (q' : PageId) : (c.put p (v.1, true)).find q'
        = if p = q' then some (v.1, true) else s.look q' := by
      rw [Lru.find_put _ hroom, hfind]
      rfl
    rw [← hfst]
    refine ⟨⟨Lru.wf_put _ hroom hwf, hs.inside, ?_, ?_⟩, rfl, rfl, ?_⟩
    · exact (hlook u32Max).trans ((if_neg hs.inside.1).trans hs.noMax)
    · intro r d hr
      have hr' := (hlook p).symm.trans hr
      rw [if_pos rfl] at hr'
      obtain ⟨rfl, -⟩ := Prod.mk.inj (Option.some.inj hr')
      exact hs.refs v.1 v.2 hfst.symm
    · exact (hlook p).trans (if_pos rfl)

theorem collect_spec (hs : s.Sound p) :
    s.collect.2.Sound p ∧ s.collect.2.pages = s.pages ∧ s.collect.2.disk p = s.disk p ∧
      s.collect.2.look p = (s.look p).map (fun e => (e.1, false)) ∧
      (∀ r, (p, r) ∈ s.collect.1 ↔ s.look p = some (r, true)) ∧
      ∀ e ∈ s.collect.1, e.1 ≠ u32Max := by
  have hlook (q' : PageId) : s.collect.2.look q' = (s.look q').map fun e => (e.1, false) :=
    Lru.find_map s.cache _ q'
  have hmem (q' : PageId) (r : PageRef) : (q', r) ∈ s.collect.1 ↔ s.look q' = some (r, true) := by
    unfold collect look Lru.find
    rw [mem_map]
    constructor
    · rintro ⟨⟨k, v⟩, he, heq⟩
      obtain ⟨hin, hdirty⟩ := mem_filter.mp he
      obtain ⟨rfl, rfl⟩ := Prod.mk.inj heq
      rw [Lru.findIn_of_mem hs.wf.nodup hin]
      exact congrArg some (Prod.ext rfl hdirty)
    · intro hfind
      exact ⟨(q', (r, true)), mem_filter.mpr ⟨Lru.mem_of_findIn hfind, rfl⟩, rfl⟩
  refine ⟨⟨Lru.wf_map hs.wf fun e => (e.1, false), hs.inside, ?_, ?_⟩, rfl, rfl, hlook p, hmem p, ?_⟩
  · rw [hlook, hs.noMax]
    rfl
  · intro r d hr
    rw [hlook] at hr
    obtain ⟨e, he, heq⟩ := Option.map_eq_some_iff.mp hr
    obtain ⟨rfl, -⟩ := Prod.mk.inj heq
    exact hs.refs e.1 e.2 he
  · rintro ⟨k, r⟩ he rfl
    have hfind := (hmem u32Max r).mp he
    rw [hs.noMax] at hfind
    exact nomatch hfind

/-- Writing out what was collected: the page is in the file as it is now, if it was collected. -/
theorem writeOut_spec (hs : s.Sound p) {toFlush : List (PageId × PageRef)}
    (hmax : ∀ e ∈ toFlush, e.1 ≠ u32Max) :
    (s.writeOut toFlush).Sound p ∧ (s.writeOut toFlush).look p = s.look p ∧
      ∀ page, (∀ r, (p, r) ∈ toFlush → s.pages r = page) →
        ((s.writeOut toFlush).disk p = s.disk p ∧ (∀ r, (p, r) ∉ toFlush)) ∨
          ((s.writeOut toFlush).disk p = page ∧ ∃ r, (p, r) ∈ toFlush) := by
  obtain ⟨hinside, hcases⟩ := foldl_writePage s.pages hs.inside hmax
  exact ⟨⟨hs.wf, hinside, hs.noMax, hs.refs⟩, rfl, hcases⟩

end SharedPool

/-! ## The calls -/

/-- The fetch has found the page missing and has not put it into the cache yet. -/
def Fetching.missed : Fetching → Bool
  | .read | .put _ => true
  | _ => false

/-- The next section of the write changes the page. -/
def Writing.changes : Writing → Bool
  | .overwrite _ | .put => true
  | _ => false

/-- The write has looked the page up in the cache and not marked it dirty yet. -/
def Writing.holds : Writing → Bool
  | .overwrite _ | .mark => true
  | _ => false

/-- The write has changed the page. -/
def Writing.wrote : Writing → Bool
  | .mark | .count | .collect | .writeOut _ | .returned => true
  | _ => false

/-- What the write has collected and not written out yet. -/
def Writing.collected : Writing → List (PageId × PageRef)
  | .writeOut toFlush => toFlush
  | _ => []

/-- What the flush has collected and not written out yet. -/
def Flushing.collected : Flushing → List (PageId × PageRef)
  | .writeOut toFlush => toFlush
  | _ => []

namespace PoolRace

/-- What was marked clean and not written out yet. -/
def collected (r : PoolRace) : List (PageId × PageRef) := r.writing.collected ++ r.flushing.collected

/-- The page is not changed while a fetch is going to put an older copy into the cache, and it is
not evicted while a write or a flush has a reference to it. -/
def calm (p : PageId) (r : PoolRace) : PoolEvent → Bool
  | .write => !(r.writing.changes && r.fetching.missed)
  | .put q _ _ =>
    !r.pool.evicts p q || (!r.writing.holds && !r.collected.any fun e => e.1 == p)
  | _ => true

/-- Each section is calm in the state in which it comes. -/
def calmAll (p : PageId) (x : Page) : List PoolEvent → PoolRace → Bool
  | [], _ => true
  | e :: events, r => r.calm p e && calmAll p x events (r.step p x e)

end PoolRace

/-- How far a write is, without the flush at its end. -/
def Writing.phase : Writing → Writing
  | .count | .collect | .writeOut _ => .returned
  | writing => writing

theorem Writing.wrote_phase (writing : Writing) : writing.phase.wrote = writing.wrote := by
  cases writing <;> rfl

theorem Writing.holds_phase (writing : Writing) : writing.phase.holds = writing.holds := by
  cases writing <;> rfl

/-- Where the page is, and that it is the one that was written. -/
structure InOrder (p : PageId) (x : Page) (pool : SharedPool) (fetching : Fetching) (writing : Writing)
    (collected : List (PageId × PageRef)) : Prop where
  sound : pool.Sound p
  ids : ∀ e ∈ collected, e.1 ≠ u32Max
  missed : fetching.missed → pool.look p = none
  copy : ∀ page, fetching = .put page → page = pool.disk p
  held : ∀ ref, writing = .overwrite ref ∨ (p, ref) ∈ collected → ∃ d, pool.look p = some (ref, d)
  marking : writing = .mark → pool.look p ≠ none
  absent : writing = .put → ∀ ref, pool.look p ≠ some (ref, true) ∧ (p, ref) ∉ collected
  latest : writing.wrote → pool.fetchPage p = x
  /-- A clean entry is in the file, or will be. -/
  safe : writing.wrote → ∀ ref, pool.look p = some (ref, false) →
    pool.disk p = x ∨ writing = .mark ∨ (p, ref) ∈ collected

namespace InOrder

open SharedPool (fetchPage_of_some fetchPage_of_none put_self)

variable {p : PageId} {x : Page} {pool pool' : SharedPool} {fetching : Fetching} {writing : Writing}
  {collected collected' toFlush : List (PageId × PageRef)} {ref : PageRef} {d : Bool}
  (h : InOrder p x pool fetching writing collected)
include h

theorem same (hsound : pool'.Sound p) (hlook : pool'.look p = pool.look p)
    (hdisk : pool'.disk p = pool.disk p)
    (hpages : ∀ ref d, pool.look p = some (ref, d) → pool'.pages ref = pool.pages ref) :
    InOrder p x pool' fetching writing collected := by
  have hfetch : pool'.fetchPage p = pool.fetchPage p := by
    cases hl : pool.look p with
    | none => rw [fetchPage_of_none (hlook.trans hl), fetchPage_of_none hl, hdisk]
    | some e =>
      rw [fetchPage_of_some (hlook.trans hl), fetchPage_of_some hl, hpages _ _ hl]
  refine ⟨hsound, h.ids, ?_, ?_, ?_, ?_, ?_, ?_, ?_⟩
  · rw [hlook]; exact h.missed
  · rw [hdisk]; exact h.copy
  · rw [hlook]; exact h.held
  · rw [hlook]; exact h.marking
  · rw [hlook]; exact h.absent
  · rw [hfetch]; exact h.latest
  · rw [hlook, hdisk]; exact h.safe

theorem touched (q : PageId) : InOrder p x (pool.lookup q).2 fetching writing collected :=
  h.same (h.sound.lookup q) (SharedPool.look_lookup pool p q) rfl fun _ _ _ => rfl

theorem not_mem_of_none (hnone : pool.look p = none) (ref : PageRef) : (p, ref) ∉ collected := by
  intro hin
  obtain ⟨d, hd⟩ := h.held ref (.inr hin)
  exact nomatch hnone.symm.trans hd

/-! ### Fetching -/

/-- The page that was read from the file is put into the cache: nothing has put another one there
since it was missed. -/
theorem put_copy {page : Page} (hf : fetching = .put page) :
    InOrder p x ((pool.newRef page).2.putAndEvict p (pool.newRef page).1 false) .returned writing
      collected := by
  have hnone := h.missed (by rw [hf]; rfl)
  obtain ⟨hsound, hpages, hlook, hdisk⟩ :=
    put_self (h.sound.newRef page) pool.nextRef false (Nat.lt_succ_self _)
  have hlook' : ((pool.newRef page).2.putAndEvict p pool.nextRef false).look p
      = some (pool.nextRef, false) := by
    rw [hlook]
    show some (pool.nextRef, false || (pool.look p).any Prod.snd) = _
    rw [hnone]
    rfl
  have hpage : ((pool.newRef page).2.putAndEvict p pool.nextRef false).pages pool.nextRef = page := by
    rw [hpages]
    exact Function.update_self _ _ _
  have hfile (hwrote : writing.wrote) : pool.disk p = x :=
    (fetchPage_of_none hnone).symm.trans (h.latest hwrote)
  refine ⟨hsound, h.ids, nofun, nofun, fun ref hheld => ?_, fun _ hgone => ?_, fun hput ref => ?_,
    fun hwrote => ?_, fun hwrote _ _ => .inl (hdisk.trans (hfile hwrote))⟩
  · obtain ⟨d, hd⟩ := h.held ref hheld
    exact nomatch hnone.symm.trans hd
  · exact nomatch hlook'.symm.trans hgone
  · exact ⟨fun hdirty => (nomatch hlook'.symm.trans hdirty), (h.absent hput ref).2⟩
  · exact (fetchPage_of_some hlook').trans (hpage.trans ((h.copy page hf).trans (hfile hwrote)))

/-! ### Collecting and writing out -/

theorem collect (hlist : ∀ e, e ∈ collected' ↔ e ∈ collected ∨ e ∈ pool.collect.1) :
    InOrder p x pool.collect.2 fetching writing collected' := by
  obtain ⟨hsound, hpages, hdisk, hlook, hmem, hmax⟩ := SharedPool.collect_spec h.sound
  have hsome {ref : PageRef} {d : Bool} (hl : pool.look p = some (ref, d)) :
      pool.collect.2.look p = some (ref, false) := by
    rw [hlook, hl]
    rfl
  have hnone : pool.collect.2.look p = none ↔ pool.look p = none := by
    rw [hlook]
    exact Option.map_eq_none_iff
  have hfetch : pool.collect.2.fetchPage p = pool.fetchPage p := by
    cases hl : pool.look p with
    | none => rw [fetchPage_of_none (hnone.mpr hl), fetchPage_of_none hl, hdisk]
    | some e => rw [fetchPage_of_some (hsome hl), fetchPage_of_some hl, hpages]
  refine ⟨hsound, fun e he => ((hlist e).mp he).elim (h.ids e) (hmax e),
    fun hm => hnone.mpr (h.missed hm), by rw [hdisk]; exact h.copy, fun ref hheld => ?_,
    fun hm hgone => h.marking hm (hnone.mp hgone), fun hput ref => ⟨fun hdirty => ?_, fun hin => ?_⟩,
    by rw [hfetch]; exact h.latest, fun hwrote ref hl => ?_⟩
  · obtain ⟨d, hd⟩ : ∃ d, pool.look p = some (ref, d) := by
      rcases hheld with hw | hin
      · exact h.held ref (.inl hw)
      · exact ((hlist _).mp hin).elim (fun hin => h.held ref (.inr hin)) fun hin => ⟨_, (hmem ref).mp hin⟩
    exact ⟨false, hsome hd⟩
  · obtain ⟨e, -, heq⟩ := Option.map_eq_some_iff.mp (hlook.symm.trans hdirty)
    exact nomatch (Prod.mk.inj heq).2
  · -- a clean page is not collected
    exact ((hlist _).mp hin).elim (h.absent hput ref).2 fun hin =>
      (h.absent hput ref).1 ((hmem ref).mp hin)
  · obtain ⟨⟨ref', d⟩, he, heq⟩ := Option.map_eq_some_iff.mp (hlook.symm.trans hl)
    obtain ⟨rfl, -⟩ := Prod.mk.inj heq
    cases d with
    | true => exact .inr (.inr ((hlist _).mpr (.inr ((hmem ref').mpr he))))
    | false =>
      rw [hdisk]
      exact (h.safe hwrote ref' he).imp_right (Or.imp_right fun hin => (hlist _).mpr (.inl hin))

theorem writeOut (hlist : ∀ e, e ∈ collected ↔ e ∈ toFlush ∨ e ∈ collected') :
    InOrder p x (pool.writeOut toFlush) fetching writing collected' := by
  have hin {e : PageId × PageRef} (he : e ∈ collected') : e ∈ collected := (hlist e).mpr (.inr he)
  have hout {e : PageId × PageRef} (he : e ∈ toFlush) : e ∈ collected := (hlist e).mpr (.inl he)
  obtain ⟨hsound, hlook, hcases⟩ := SharedPool.writeOut_spec h.sound fun e he => h.ids e (hout he)
  -- what is written out is what is in the cache
  have hdisk := hcases (pool.fetchPage p) fun ref href => by
    obtain ⟨d, hd⟩ := h.held ref (.inr (hout href))
    exact (fetchPage_of_some hd).symm
  have hfile (hnone : pool.look p = none) : (pool.writeOut toFlush).disk p = pool.disk p := by
    rcases hdisk with ⟨hsame, -⟩ | ⟨-, ref, href⟩
    · exact hsame
    · exact absurd (hout href) (h.not_mem_of_none hnone ref)
  have hfetch : (pool.writeOut toFlush).fetchPage p = pool.fetchPage p := by
    cases hl : pool.look p with
    | none =>
      rw [fetchPage_of_none (hlook.trans hl), fetchPage_of_none hl, hfile hl]
    | some e => rw [fetchPage_of_some (hlook.trans hl), fetchPage_of_some hl]; rfl
  refine ⟨hsound, fun e he => h.ids e (hin he), fun hm => hlook.trans (h.missed hm), fun page hf => ?_,
    fun ref hheld => ?_, by rw [hlook]; exact h.marking, fun hput ref => ?_,
    by rw [hfetch]; exact h.latest, fun hwrote ref hl => ?_⟩
  · rw [hfile (h.missed (by rw [hf]; rfl))]
    exact h.copy page hf
  · rw [hlook]
    exact h.held ref (hheld.imp_right hin)
  · rw [hlook]
    exact ⟨(h.absent hput ref).1, fun he => (h.absent hput ref).2 (hin he)⟩
  · rcases hdisk with ⟨hsame, hnot⟩ | ⟨hnow, -⟩
    · rw [hsame]
      refine (h.safe hwrote ref (hlook.symm.trans hl)).imp_right (Or.imp_right fun he => ?_)
      exact ((hlist _).mp he).resolve_left (hnot ref)
    · exact .inl (hnow.trans (h.latest hwrote))

/-! ### Writing -/

theorem found (hl : pool.look p = some (ref, d)) : InOrder p x pool fetching (.overwrite ref) collected :=
  { h with
    held := by
      rintro ref' (hw | hin)
      · cases hw
        exact ⟨d, hl⟩
      · exact h.held ref' (.inr hin)
    marking := nofun
    absent := nofun
    latest := nofun
    safe := nofun }

theorem notFound (hnone : pool.look p = none) : InOrder p x pool fetching .put collected :=
  { h with
    held := fun ref hheld => h.held ref (.inr (hheld.resolve_left nofun))
    marking := nofun
    absent := fun _ ref => ⟨fun hl => (nomatch hnone.symm.trans hl), h.not_mem_of_none hnone ref⟩
    latest := nofun
    safe := nofun }

theorem overwritten (hw : writing = .overwrite ref) :
    InOrder p x (pool.overwrite ref x) fetching .mark collected := by
  obtain ⟨d, hl⟩ := h.held ref (.inl hw)
  have hl' : (pool.overwrite ref x).look p = some (ref, d) := hl
  exact { h with
    sound := h.sound.overwrite ref x
    held := fun ref' hheld => h.held ref' (.inr (hheld.resolve_left nofun))
    marking := fun _ hgone => nomatch hl.symm.trans hgone
    absent := nofun
    latest := fun _ => (fetchPage_of_some hl').trans (Function.update_self _ _ _)
    safe := fun _ _ _ => .inr (.inl rfl) }

theorem marked (hw : writing = .mark) : InOrder p x (pool.setDirty p) fetching .returned collected := by
  obtain ⟨hsound, hpages, hdisk, hlook⟩ := SharedPool.setDirty_spec h.sound
  obtain ⟨⟨ref, d⟩, hl⟩ := Option.ne_none_iff_exists'.mp (h.marking hw)
  rw [hl, Option.map_some] at hlook
  refine ⟨hsound, h.ids, fun hm => ?_, by rw [hdisk]; exact h.copy, fun ref' hheld => ?_, nofun, nofun,
    fun _ => ?_, fun _ ref' hclean => ?_⟩
  · exact nomatch hl.symm.trans (h.missed hm)
  · obtain ⟨d', hl'⟩ := h.held ref' (.inr (hheld.resolve_left nofun))
    obtain ⟨rfl, -⟩ := Prod.mk.inj (Option.some.inj (hl.symm.trans hl'))
    exact ⟨true, hlook⟩
  · rw [fetchPage_of_some hlook, hpages, ← fetchPage_of_some hl]
    exact h.latest (by rw [hw]; rfl)
  · exact nomatch hlook.symm.trans hclean

/-- The written page is put into the cache. The page was missing when the write began, so no flush has a
reference to it. -/
theorem put_written (hw : writing = .put) (hquiet : fetching.missed = false) :
    InOrder p x ((pool.newRef x).2.putAndEvict p (pool.newRef x).1 true) fetching .returned collected := by
  obtain ⟨hsound, hpages, hlook, -⟩ :=
    put_self (h.sound.newRef x) pool.nextRef true (Nat.lt_succ_self _)
  have hlook' : ((pool.newRef x).2.putAndEvict p pool.nextRef true).look p = some (pool.nextRef, true) :=
    hlook
  refine ⟨hsound, h.ids, fun hm => (nomatch hquiet.symm.trans hm), fun page hf => ?_, fun ref hheld => ?_,
    nofun, nofun, fun _ => ?_, fun _ ref hclean => (nomatch hlook'.symm.trans hclean)⟩
  · rw [hf] at hquiet
    exact nomatch hquiet
  · exact absurd (hheld.resolve_left nofun) (h.absent hw ref).2
  · refine (fetchPage_of_some hlook').trans ?_
    rw [hpages]
    exact Function.update_self _ _ _

/-! ### Other threads -/

/-- Another thread's page comes into the cache: the page may be pushed out, which is calm only if
nobody has a reference to it. -/
theorem pushed {q : PageId} (hqp : q ≠ p) (hq : q ≠ u32Max) (page : Page) (isDirty : Bool)
    (hcalm : pool.evicts p q → writing.holds = false ∧ ∀ e ∈ collected, e.1 ≠ p) :
    InOrder p x ((pool.newRef page).2.putAndEvict q (pool.newRef page).1 isDirty) fetching writing
      collected := by
  obtain ⟨hsound, hpages, hcases⟩ :=
    SharedPool.put_other (h.sound.newRef page) hqp hq (pool.newRef page).1 isDirty
  -- the new reference is none that the cache has
  have hkept (ref : PageRef) (d : Bool) (hd : pool.look p = some (ref, d)) :
      (pool.newRef page).2.pages ref = pool.pages ref :=
    Function.update_of_ne (Nat.ne_of_lt (h.sound.refs ref d hd)) _ _
  rcases hcases with ⟨-, hlook, hdisk⟩ | ⟨hevicts, ref, d, hthere, hgone, hdisk⟩
  · refine h.same hsound hlook hdisk fun ref d hd => ?_
    rw [hpages]
    exact hkept ref d hd
  · have hl : pool.look p = some (ref, d) := hthere
    obtain ⟨hholds, hfree⟩ := hcalm hevicts
    have hmark : writing ≠ .mark := fun hw => nomatch (hw ▸ hholds : Writing.mark.holds = false)
    refine ⟨hsound, h.ids, fun _ => hgone, fun page' hf => ?_, fun ref' hheld => ?_,
      fun hw => absurd hw hmark, fun hput ref' => ?_, fun hwrote => ?_, fun _ ref' hl' => ?_⟩
    · exact nomatch hl.symm.trans (h.missed (by rw [hf]; rfl))
    · rcases hheld with rfl | hin
      · exact nomatch hholds
      · exact absurd rfl (hfree _ hin)
    · exact ⟨fun hl' => (nomatch hgone.symm.trans hl'), (h.absent hput ref').2⟩
    · rw [fetchPage_of_none hgone, hdisk]
      have hx := (fetchPage_of_some hl).symm.trans (h.latest hwrote)
      cases d with
      | true => exact (hkept ref true hl).trans hx
      | false =>
        -- a clean entry that nobody has collected is what the file has
        rcases h.safe hwrote ref hl with hfile | hw | hin
        · exact hfile
        · exact absurd hw hmark
        · exact absurd rfl (hfree _ hin)
    · exact nomatch hgone.symm.trans hl'

end InOrder

namespace PoolRace

variable {p : PageId} {x : Page} {r : PoolRace}

def Inv (p : PageId) (x : Page) (r : PoolRace) : Prop :=
  InOrder p x r.pool r.fetching r.writing.phase r.collected

theorem look_of_lookup {o : Option PageRef} {pool pool' : SharedPool} (hl : pool.lookup p = (o, pool')) :
    (pool'.look p).map Prod.fst = o := by
  have hlook := pool.look_lookup p p
  have hfst := pool.lookup_fst p
  rw [hl] at hlook hfst
  rw [hlook]
  exact hfst.symm

theorem Inv.fetchStep (hr : r.Inv p x) : (r.fetchStep p).Inv p x := by
  obtain ⟨pool, fetching, writing, flushing⟩ := r
  cases fetching with
  | lookup =>
    have hpool := InOrder.touched hr p
    unfold PoolRace.fetchStep
    dsimp only at hpool ⊢
    generalize hl : pool.lookup p = l at hpool ⊢
    obtain ⟨_ | ref, pool'⟩ := l
    · exact { hpool with
        missed := fun _ => Option.map_eq_none_iff.mp (look_of_lookup hl)
        copy := nofun }
    · exact { hpool with missed := nofun, copy := nofun }
  | read => exact { hr with missed := fun _ => hr.missed rfl, copy := by rintro page ⟨⟩; rfl }
  | put page => exact InOrder.put_copy hr rfl
  | returned => exact hr

theorem Inv.writeStep (hr : r.Inv p x) (hcalm : r.calm p .write) : (r.writeStep p x).Inv p x := by
  obtain ⟨pool, fetching, writing, flushing⟩ := r
  cases writing with
  | lookup =>
    have hpool := InOrder.touched hr p
    unfold PoolRace.writeStep
    dsimp only at hpool ⊢
    generalize hl : pool.lookup p = l at hpool ⊢
    obtain ⟨_ | ref, pool'⟩ := l
    · exact hpool.notFound (Option.map_eq_none_iff.mp (look_of_lookup hl))
    · obtain ⟨⟨ref', d⟩, he, rfl⟩ := Option.map_eq_some_iff.mp (look_of_lookup hl)
      exact hpool.found he
  | overwrite ref => exact InOrder.overwritten hr rfl
  | mark => exact InOrder.marked hr rfl
  | put =>
    have hquiet : fetching.missed = false := by simpa [calm, Writing.changes] using hcalm
    exact InOrder.put_written hr rfl hquiet
  | count =>
    obtain ⟨hsound, hlook, hdisk, hpages⟩ := hr.sound.countDirtyWrite
    have hpool := InOrder.same hr hsound hlook hdisk fun _ _ _ => by rw [hpages]
    unfold PoolRace.writeStep Inv
    dsimp only
    -- a flush or the return comes next, which is the same phase
    split
    · exact hpool
    · exact hpool
  | collect => exact InOrder.collect hr fun e => by simp [PoolRace.writeStep, collected, Writing.collected, or_comm]
  | writeOut toFlush => exact InOrder.writeOut hr fun e => by simp [PoolRace.writeStep, collected, Writing.collected]
  | returned => exact hr

theorem Inv.flushStep (hr : r.Inv p x) : r.flushStep.Inv p x := by
  obtain ⟨pool, fetching, writing, flushing⟩ := r
  cases flushing with
  | collect => exact InOrder.collect hr fun e => by simp [PoolRace.flushStep, collected, Flushing.collected]
  | writeOut toFlush => exact InOrder.writeOut hr fun e => by simp [PoolRace.flushStep, collected, Flushing.collected, or_comm]
  | returned => exact hr

theorem Inv.put (hr : r.Inv p x) {q : PageId} (hqp : q ≠ p) (hq : q ≠ u32Max) (page : Page)
    (isDirty : Bool) (hcalm : r.calm p (.put q page isDirty)) :
    (r.step p x (.put q page isDirty)).Inv p x := by
  refine InOrder.pushed hr hqp hq page isDirty fun hevicts => ?_
  have hfree : (!r.pool.evicts p q ||
      (!r.writing.holds && !r.collected.any fun e => e.1 == p)) := hcalm
  rw [hevicts] at hfree
  rw [Writing.holds_phase]
  simpa using hfree

/-! ### Runs -/

theorem Inv.step (hr : r.Inv p x) {e : PoolEvent} (hforeign : e.foreign p)
    (hcalm : r.calm p e) : (r.step p x e).Inv p x := by
  cases e with
  | fetch => exact hr.fetchStep
  | write => exact hr.writeStep hcalm
  | flush => exact hr.flushStep
  | touch q => exact InOrder.touched hr q
  | put q page isDirty =>
    obtain ⟨hqp, hq⟩ := Bool.and_eq_true_iff.mp hforeign
    exact hr.put (bne_iff_ne.mp hqp) (bne_iff_ne.mp hq) page isDirty hcalm

theorem Inv.run (hr : r.Inv p x) {events : List PoolEvent}
    (hforeign : ∀ e ∈ events, e.foreign p)
    (hcalm : r.calmAll p x events) : (r.run p x events).Inv p x := by
  induction events generalizing r with
  | nil => exact hr
  | cons e events ih =>
    obtain ⟨he, hrest⟩ := forall_mem_cons.mp hforeign
    obtain ⟨hnow, hlater⟩ := Bool.and_eq_true_iff.mp hcalm
    exact ih (hr.step he hnow) hrest hlater

theorem Inv.begin {pool : SharedPool} (hs : pool.Sound p) : (PoolRace.begin pool).Inv p x :=
  ⟨hs, nofun, nofun, nofun, fun _ hheld => hheld.elim nofun nofun, nofun, nofun, nofun, nofun⟩

theorem wrote_of_returned (h : r.returned) : r.writing.wrote := by
  unfold returned at h
  split at h
  · rename_i hw _
    rw [hw]
    rfl
  · exact nomatch h

end PoolRace

/-- **Last write wins.** One thread fetches a page, one writes it and one flushes, section by section
in any order among threads that use other pages. If the page is changed only when no fetch has found
it missing and not yet put it into the cache, and if it is not evicted while the write or the flush
has a reference to it, then after all three a fetch returns what was written. -/
theorem write_survives_fetch_and_flush (p : PageId) (x : Page) (pool : SharedPool)
    (hsound : pool.Sound p) (events : List PoolEvent) (hforeign : ∀ e ∈ events, e.foreign p)
    (hcalm : (PoolRace.begin pool).calmAll p x events)
    (hreturned : ((PoolRace.begin pool).run p x events).returned) :
    ((PoolRace.begin pool).run p x events).pool.fetchPage p = x :=
  ((PoolRace.Inv.begin hsound).run hforeign hcalm).latest
    ((Writing.wrote_phase _).trans (PoolRace.wrote_of_returned hreturned))

/-- A pool with room for two pages, nothing in the cache, over a file of two empty pages. -/
def twoEntryPool : SharedPool where
  pager := ⟨⟨fun _ => Page.default, 2⟩, 2⟩
  cache := ⟨2, []⟩
  pages := fun _ => Page.default
  nextRef := 0
  dirtyWriteCount := 0
  syncInterval := 0

theorem sound_twoEntryPool : twoEntryPool.Sound 1 where
  wf := ⟨nodup_nil, Nat.zero_le _, by decide⟩
  inside := ⟨by decide, fun _ => rfl⟩
  noMax := rfl
  refs _ _ h := nomatch h

def pageWithNext : Page := Page.default.setNext 7

/-- The write comes first; later two other pages push the page out of the cache. -/
def writeThenEvict : List PoolEvent :=
  [.write, .write, .write, .fetch, .flush, .flush, .put 2 Page.default false, .put 3 Page.default true]

theorem write_survives_then_evicted :
    ((PoolRace.begin twoEntryPool).run 1 pageWithNext writeThenEvict).pool.fetchPage 1 = pageWithNext :=
  write_survives_fetch_and_flush 1 pageWithNext twoEntryPool sound_twoEntryPool writeThenEvict
    (by decide) rfl rfl

/-- The fetch finds the page missing, then the write puts its page into the cache. The fetch puts
the page of the file over it, and that is what is flushed. -/
def fetchOverWrite : List PoolEvent :=
  [.fetch, .write, .write, .fetch, .fetch, .write, .flush, .flush]

theorem write_lost_to_fetch :
    ((PoolRace.begin twoEntryPool).run 1 pageWithNext fetchOverWrite).returned ∧
      ((PoolRace.begin twoEntryPool).run 1 pageWithNext fetchOverWrite).pool.fetchPage 1 ≠ pageWithNext := by
  refine ⟨rfl, fun heq => ?_⟩
  have hold : ((PoolRace.begin twoEntryPool).run 1 pageWithNext fetchOverWrite).pool.fetchPage 1
      = Page.default := rfl
  have hnext : Page.default.next = pageWithNext.next := congrArg Page.next (hold.symm.trans heq)
  unfold pageWithNext at hnext
  rw [Page.next_setNext] at hnext
  exact absurd hnext (by decide)

end MagnumDB
