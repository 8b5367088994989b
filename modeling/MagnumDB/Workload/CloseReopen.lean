import MagnumDB.Storage.Lifetime

/-!
# Closing and opening again

`close` writes the dirty pages and forgets the pool. What a page reads as before is
its cached copy, what it reads as afterwards is what the flush has left in the file,
so the two must agree on the pages that are reached from the root. They do not have
to: a page that is fetched while it is on the free list stays in the cache, and when
the pager hands it out again it is cleared in the file and not in the cache.
-/

namespace MagnumDB

open Prog ByteString List

/-! ## What a flush leaves -/

namespace BufferPool

variable {s s' : BufferPool} {R : Set PageId} {v : PageId → Page}

/-- What a flush leaves of a page in the file: the cached copy if it is dirty, or else what is there. -/
def stored (s : BufferPool) (q : PageId) : Page :=
  match s.look q with
  | some (page, true) => page
  | _ => s.disk q

variable {q p : PageId}

theorem stored_of_none (h : s.look q = none) : s.stored q = s.disk q := by
  unfold stored
  rw [h]

theorem stored_of_dirty {page : Page} (h : s.look q = some (page, true)) : s.stored q = page := by
  unfold stored
  rw [h]

theorem stored_of_clean {page : Page} (h : s.look q = some (page, false)) :
    s.stored q = s.disk q := by
  unfold stored
  rw [h]

/-- Evictions and flushes do not change it. -/
theorem Settles.stored_eq (h : Settles s s') (q : PageId) : s'.stored q = s.stored q := by
  cases h.page q with
  | same h₁ h₂ => unfold stored; rw [h₁, h₂]
  | written page h₁ h₂ h₃ =>
    rw [stored_of_dirty h₁]
    rcases h₃ with h₃ | h₃
    · rw [stored_of_none h₃, h₂]
    · rw [stored_of_clean h₃, h₂]
  | dropped page h₁ h₂ h₃ => rw [stored_of_clean h₁, stored_of_none h₂, h₃]

/-- Page numbers count the pages of the file. -/
def Sized (pg : Pager) : Prop := pg.file.len = pg.numPages.toNat

/-- A page can be written beyond the end, but not at the last page number. -/
theorem writePage_grows {pg : Pager} {id : PageId} (page : Page) (hlen : Sized pg)
    (hid : id ≠ u32Max) :
    Sized (pg.writePage id page) ∧ pg.numPages ≤ (pg.writePage id page).numPages := by
  by_cases hlt : id < pg.numPages
  · obtain ⟨hnum, hfile⟩ := writePage_size page hlt hlen
    refine ⟨?_, by rw [hnum]; exact UInt32.le_refl _⟩
    unfold Sized
    rw [hnum, hfile, hlen]
  · have hge : pg.numPages ≤ id := UInt32.not_lt.mp hlt
    have hgeN := UInt32.le_iff_toNat_le.mp hge
    have hnum : (pg.writePage id page).numPages = id + 1 := if_pos hge
    have hidN : id.toNat ≠ 4294967295 := fun he => hid (UInt32.toNat_inj.mp he)
    have hidlt := id.toNat_lt
    have hsucc : (id + 1).toNat = id.toNat + 1 := by
      rw [UInt32.toNat_add]
      have hone : (1 : UInt32).toNat = 1 := rfl
      omega
    have hlen' : pg.file.len = pg.numPages.toNat := hlen
    constructor
    · show max pg.file.len (id.toNat + 1) = _
      rw [hnum, hsucc]
      omega
    · rw [hnum, UInt32.le_iff_toNat_le, hsucc]
      omega

theorem foldl_writePage_grows : ∀ (l : List (PageId × Page × Bool)) (pg : Pager), Sized pg →
    (∀ e ∈ l, e.1 ≠ u32Max) → Sized (l.foldl (fun pg e => pg.writePage e.1 e.2.1) pg) ∧
      pg.numPages ≤ (l.foldl (fun pg e => pg.writePage e.1 e.2.1) pg).numPages
  | [], _, hlen, _ => ⟨hlen, UInt32.le_refl _⟩
  | e :: l, pg, hlen, hne => by
    obtain ⟨hlen₁, hle₁⟩ := writePage_grows e.2.1 hlen (hne e mem_cons_self)
    obtain ⟨hlen₂, hle₂⟩ := foldl_writePage_grows l (pg.writePage e.1 e.2.1) hlen₁
      fun x hx => hne x (mem_cons_of_mem _ hx)
    exact ⟨hlen₂, UInt32.le_trans hle₁ hle₂⟩

/-- An eviction writes at most one page, a dirty one. -/
theorem evict_pager (h : s.cache.WF) (id : PageId) : (s.evict id).pager = s.pager ∨
    ∃ q page, s.look q = some (page, true) ∧ (s.evict id).pager = s.pager.writePage q page := by
  unfold evict
  split
  · rename_i hfull
    obtain ⟨q, ⟨page, dirty⟩, hpop, -, hfind, -⟩ := Lru.popLru_of_full h hfull
    rw [hpop]
    cases dirty with
    | false => exact Or.inl rfl
    | true => exact Or.inr ⟨q, page, hfind, rfl⟩
  · exact Or.inl rfl

/-! ## Reading -/

/-- The pages `R` are inside the file, and they read as `v`, before a flush and after it. -/
structure Serves (s : BufferPool) (R : Set PageId) (v : PageId → Page) : Prop where
  wf : s.cache.WF
  len : Sized s.pager
  /-- The page that would not fit into the count of pages is not about to be written. -/
  last : ∀ page, s.look u32Max ≠ some (page, true)
  inside : ∀ p ∈ R, p < s.pager.numPages
  view : ∀ p ∈ R, s.view p = v p
  stored : ∀ p ∈ R, s.stored p = v p

/-- What is cached clean is what the file has. -/
theorem Serves.disk (h : Serves s R v) (hp : p ∈ R) (hc : ∀ page, s.look p ≠ some (page, true)) :
    s.disk p = v p := by
  rw [← h.stored p hp]
  cases hl : s.look p with
  | none => exact (stored_of_none hl).symm
  | some pd =>
    obtain ⟨page, dirty⟩ := pd
    cases dirty with
    | true => exact absurd hl (hc page)
    | false => exact (stored_of_clean hl).symm

theorem Serves.settles (h : Serves s R v) (hs : Settles s s')
    (hgrow : Sized s'.pager ∧ s.pager.numPages ≤ s'.pager.numPages) : Serves s' R v := by
  refine ⟨hs.wf, hgrow.1, fun page hq => h.last page (hs.dirty hq), fun p hp => ?_, fun p hp => ?_,
    fun p hp => ?_⟩
  · exact UInt32.lt_of_lt_of_le (h.inside p hp) hgrow.2
  · -- only a clean copy can be dropped, and then the file has the same
    rcases hs.view_cases p with he | ⟨page, hl, _, hd⟩
    · rw [he, h.view p hp]
    · rw [hd]
      refine h.disk hp fun page' hl' => ?_
      rw [hl] at hl'
      exact absurd (congrArg (Option.map Prod.snd) hl') (by simp)
  · rw [hs.stored_eq p, h.stored p hp]

/-- A fetch writes at most one page, a dirty one. -/
theorem fetchPage_pager (h : s.cache.WF) (id : PageId) : (s.fetchPage id).2.pager = s.pager ∨
    ∃ q page, s.look q = some (page, true) ∧
      (s.fetchPage id).2.pager = s.pager.writePage q page := by
  unfold fetchPage
  split
  · exact Or.inl rfl
  · have hput : ∀ page dirty, (s.putAndEvict id page dirty).pager = (s.evict id).pager := by
      intro page dirty
      unfold putAndEvict
      dsimp only
      split <;> rfl
    rw [hput]
    exact evict_pager h id

/-- A page is read from the file and cached. -/
theorem Serves.load (h : Serves s R v) (hnone : s.look p = none) (hput : Puts s s' p (v p) false) :
    Serves s' R v := by
  have hdisk : ∀ q, s'.disk q = s.disk q := fun q => by
    unfold BufferPool.disk
    rw [hput.pager]
  have hself : s'.look p = some (v p, false) := (hput.look p).trans (if_pos rfl)
  have hother : ∀ q, q ≠ p → s'.look q = s.look q := fun q hq =>
    (hput.look q).trans (if_neg (Ne.symm hq))
  refine ⟨hput.wf, by rw [hput.pager]; exact h.len, fun page hq => ?_, by rw [hput.pager]; exact h.inside,
    fun q hq => ?_, fun q hq => ?_⟩
  · by_cases he : u32Max = p
    · rw [he, hself] at hq
      exact absurd (congrArg (Option.map Prod.snd) hq) (by simp)
    · exact h.last page ((hother _ he).symm.trans hq)
  · by_cases he : q = p
    · rw [he, view_of_some hself]
    · rw [← h.view q hq]
      unfold BufferPool.view
      rw [hother q he, hdisk]
  · rw [← h.stored q hq]
    by_cases he : q = p
    · rw [he, stored_of_clean hself, stored_of_none hnone, hdisk]
    · unfold BufferPool.stored
      rw [hother q he, hdisk]

/-- A fetch returns the page, whatever is evicted for it. -/
theorem Serves.fetch (h : Serves s R v) (hp : p ∈ R) :
    (s.fetchPage p).1 = v p ∧ Serves (s.fetchPage p).2 R v := by
  have hgrow : Sized (s.fetchPage p).2.pager ∧
      s.pager.numPages ≤ (s.fetchPage p).2.pager.numPages := by
    rcases fetchPage_pager h.wf p with he | ⟨q, page, hq, he⟩
    · rw [he]
      exact ⟨h.len, UInt32.le_refl _⟩
    · rw [he]
      exact writePage_grows page h.len fun hmax => h.last page (hmax ▸ hq)
  cases hl : s.look p with
  | some pd =>
    obtain ⟨hpage, hset⟩ := fetchPage_hit h.wf hl
    refine ⟨?_, h.settles hset hgrow⟩
    rw [hpage, ← h.view p hp, view_of_some hl]
  | none =>
    obtain ⟨hpage, s₁, hset, hnone, _, hput⟩ := fetchPage_miss h.wf hl
    have hread : s.pager.readPage p = v p := by
      rw [readPage_inside (h.inside p hp)]
      exact h.disk hp fun page hl' => absurd (hl.symm.trans hl') (by simp)
    rw [hread] at hpage hput
    rw [hput.pager] at hgrow
    exact ⟨hpage, (h.settles hset hgrow).load hnone hput⟩

theorem serves_fetches {root : PageId} (hreach : ∀ k p, Reaches v root k p → p ∈ R) :
    BTree.Fetches BufferPool.store (fun s => s.Serves R v) v root := by
  intro k p s hp hs
  obtain ⟨hpage, hs'⟩ := hs.fetch (hreach k p hp)
  refine ⟨(s.fetchPage p).2, ?_, hs'⟩
  show (Except.ok (s.fetchPage p).1, (s.fetchPage p).2) = _
  rw [hpage]

/-- A flush leaves the pages as they are, and nothing dirty. -/
theorem Serves.flushAll (h : Serves s R v) : Serves s.flushAll R v := by
  refine h.settles (flushAll_settles h.wf) (foldl_writePage_grows _ s.pager h.len fun e he hmax => ?_)
  obtain ⟨hmem, hdirty⟩ := mem_filter.mp he
  obtain ⟨id, page, dirty⟩ := e
  obtain rfl : dirty := hdirty
  have hid : id = u32Max := hmax
  exact h.last page (hid ▸ Lru.findIn_of_mem h.wf.nodup hmem)

end BufferPool

/-! ## One round -/

/-- The index reads the pages `R` as `v`, before a flush and after it, and page 0 will name its root. -/
structure BTree.Lasts (t : BTree BufferPool) (R : Set PageId) (v : PageId → Page) : Prop where
  serves : t.bufferPool.Serves R v
  magic : (t.bufferPool.stored 0).hasMagic
  root : (t.bufferPool.stored 0).rootField = t.rootPageId

/-- The pages can be in use, and the root is one of them. -/
structure UsablePages (R : Set PageId) (root : PageId) : Prop where
  root : root ∈ R
  proper : ∀ p ∈ R, p ≠ 0

section Round

variable {R : Set PageId} {v : PageId → Page} {root : PageId}

/-- A file that has the pages, and page 0 with the root: the pages are read from it. -/
theorem BTree.Lasts.openIndex {pg : Pager} (hR : UsablePages R root) (hlen : BufferPool.Sized pg)
    (hin : ∀ p ∈ R, p < pg.numPages) (hpages : ∀ p ∈ R, pg.file.page p = v p)
    (hmagic : (pg.file.page 0).hasMagic) (hroot : (pg.file.page 0).rootField = root)
    (config : Config) :
    ∃ t, Database.openIndex config pg.file = .ok (t, pg.file.checkpoint) ∧ t.rootPageId = root ∧
      t.Lasts R v := by
  have hrootlt := hin root hR.root
  have hpos : 0 < pg.numPages := UInt32.lt_of_le_of_lt UInt32.zero_le hrootlt
  have hread : pg.readPage 0 = pg.file.page 0 := BufferPool.readPage_inside hpos
  obtain ⟨s, _, hnew, hpager, hwf, hlook⟩ := BTree.new_opened 1024 config.syncInterval
    (hread ▸ hroot) (not_or.mpr ⟨hR.proper root hR.root, ne_u32Max_of_lt hrootlt⟩)
  rw [hread] at hlook
  have hnone : ∀ p ∈ R, s.look p = none := fun p hp =>
    (hlook p).trans (if_neg fun h => hR.proper p hp h.symm)
  have hdisk : ∀ q, s.disk q = pg.file.page q := fun q => by
    unfold BufferPool.disk
    rw [hpager]
  have hzero : s.stored 0 = pg.file.page 0 := by
    rw [BufferPool.stored_of_clean ((hlook 0).trans (if_pos rfl)), hdisk]
  refine ⟨⟨s, root⟩, openIndex_of_new (BufferPool.open_pager hlen hpos hmagic) hpos hnew, rfl,
    ⟨hwf, ?_, fun page hl => ?_, ?_, fun p hp => ?_, fun p hp => ?_⟩, ?_, ?_⟩
  · rw [hpager]
    exact hlen
  · exact absurd (BufferPool.Clean.of_look hlook _ _ hl) (by simp)
  · rw [hpager]
    exact hin
  · rw [BufferPool.view_of_none (hnone p hp), hdisk, hpages p hp]
  · rw [BufferPool.stored_of_none (hnone p hp), hdisk, hpages p hp]
  · rw [hzero]
    exact hmagic
  · rw [hzero]
    exact hroot

theorem BTree.Lasts.flush {t : BTree BufferPool} (h : t.Lasts R v) : t.flushAndSync.Lasts R v := by
  have hstored : t.flushAndSync.bufferPool.stored 0 = t.bufferPool.stored 0 :=
    (BufferPool.flushAll_settles h.serves.wf).stored_eq 0
  exact ⟨h.serves.flushAll, by rw [hstored]; exact h.magic, by rw [hstored]; exact h.root⟩

/-- **One round.** The database closes and opens again, and reads the same pages. -/
theorem BTree.Lasts.round {db : Database} (hR : UsablePages R db.index.rootPageId)
    (h : db.index.Lasts R v) (hwal : db.config.walEnabled = db.wal.isSome) (crc : Bytes → UInt32)
    (dir : Files) :
    ∃ db₁ db₂, Database.close db = (.ok (), db₁) ∧ Opens crc db.config (db₁.files dir) db₂ ∧
      db₂.config = db.config ∧ db₂.wal.isSome = db.wal.isSome ∧
      db₂.index.rootPageId = db.index.rootPageId ∧ db₂.index.Lasts R v := by
  obtain ⟨config, wal, ⟨s, root⟩⟩ := db
  have hflush : s.flushAll.Serves R v := h.serves.flushAll
  have hdisk : ∀ q, s.flushAll.pager.file.page q = s.stored q := fun q =>
    BufferPool.flushAll_disk h.serves.wf q
  cases wal with
  | none =>
    have hoff : config.walEnabled = false := hwal
    obtain ⟨t, hindex, hid, ht⟩ := BTree.Lasts.openIndex hR hflush.len hflush.inside
      (fun p hp => (hdisk p).trans (h.serves.stored p hp)) (by rw [hdisk]; exact h.magic)
      (by rw [hdisk]; exact h.root) config
    refine ⟨⟨config, none, ⟨s.flushAll, root⟩⟩, ⟨config, none, t⟩, rfl, ⟨0, fun n _ => ?_⟩, rfl, rfl,
      hid, ht⟩
    rw [open_no_log hoff]
    show (Database.openIndex config s.flushAll.pager.file).map _ = _
    rw [hindex]
    rfl
  | some w =>
    have hon : config.walEnabled := hwal
    have hpos : 0 < s.flushAll.pager.numPages :=
      UInt32.lt_of_le_of_lt UInt32.zero_le (hflush.inside root hR.root)
    -- the checkpoint goes into page 0, next to the magic bytes and the root
    let pg := s.flushAll.pager.writeCheckpointLsn w.currentLsn
    obtain ⟨hnum, hlen⟩ := BufferPool.writePage_size
      ((s.flushAll.pager.readPage 0).setLsn w.currentLsn) hpos hflush.len
    have hzero : pg.file.page 0 = (s.stored 0).setLsn w.currentLsn := by
      rw [← hdisk 0, ← BufferPool.readPage_inside hpos]
      rfl
    have hother : ∀ p ∈ R, pg.file.page p = v p := fun p hp =>
      (if_neg (hR.proper p hp)).trans ((hdisk p).trans (h.serves.stored p hp))
    have hin : ∀ p ∈ R, p < pg.numPages := fun p hp => hnum.symm ▸ hflush.inside p hp
    have hsized : BufferPool.Sized pg :=
      hlen.trans (hflush.len.trans (congrArg UInt32.toNat hnum.symm))
    obtain ⟨t, hindex, hid, ht⟩ := BTree.Lasts.openIndex hR hsized hin hother
      (by rw [hzero, Page.hasMagic_setLsn]; exact h.magic)
      (by rw [hzero, Page.rootField_setLsn]; exact h.root) config
    exact ⟨_, ⟨config, some ⟨[], 0⟩, t.flushAndSync⟩, rfl,
      opens_of_replay hon hindex rfl ⟨0, fun _ _ => rfl⟩, rfl, rfl, hid, ht.flush⟩

/-- By induction on the rounds: each of them leaves the index as it has to be for the next. -/
theorem BTree.Lasts.rounds (crc : Bytes → UInt32) (dir : Files) (n : Nat) : ∀ {db : Database},
    UsablePages R db.index.rootPageId → db.index.Lasts R v →
    db.config.walEnabled = db.wal.isSome →
    ∃ db', Lives crc dir (List.replicate n .shutdown) db [] db' ∧
      db'.index.rootPageId = db.index.rootPageId ∧ db'.index.Lasts R v := by
  induction n with
  | zero => exact fun _ h _ => ⟨_, .nil _, rfl, h⟩
  | succ n ih =>
    intro db hR h hwal
    obtain ⟨db₁, db₂, hclose, hopen, hconfig, hlog, hid, h₂⟩ := h.round hR hwal crc dir
    have hwal₂ : db₂.config.walEnabled = db₂.wal.isSome := by
      rw [hconfig, hlog]
      exact hwal
    obtain ⟨db', hlives, hid', h'⟩ := ih (hid ▸ hR) h₂ hwal₂
    exact ⟨db', .shutdown hclose hopen hlives, hid'.trans hid, h'⟩

/-- What is read is a function of the pages and the root. -/
theorem BTree.Lasts.reads {db : Database} (h : db.index.Lasts R v)
    (hreach : ∀ k p, Reaches v db.index.rootPageId k p → p ∈ R) (fuel : Nat) :
    (∀ key, (Database.get fuel key db).1
      = (BTree.search (imageStore v) fuel key ⟨(), db.index.rootPageId⟩).1) ∧
    ∀ pre, (Database.scanPrefix fuel pre db).1
      = (BTree.scanPrefix (imageStore v) fuel pre ⟨(), db.index.rootPageId⟩).1 := by
  have hfetch := BufferPool.serves_fetches hreach
  constructor
  · intro key
    obtain ⟨r, s', hrun, himage, _⟩ := BTree.reads_search hfetch fuel key _ h.serves
    rw [himage]
    exact congrArg Prod.fst hrun
  · intro pre
    obtain ⟨r, s', hrun, himage, _⟩ := BTree.reads_scanPrefix hfetch fuel pre _ h.serves
    rw [himage]
    exact congrArg Prod.fst hrun

end Round

/-! ## Any number of rounds -/

/-- The pages that are reached from the root. -/
def Database.Reached (db : Database) : Set PageId :=
  {p | ∃ kind, Reaches db.index.bufferPool.view db.index.rootPageId kind p}

/-- The pages that are reached from the root are all allocated: they are pages of the file, not on
the free list, and not page 0. -/
def Database.Allocated (db : Database) : Prop :=
  ∀ p ∈ db.Reached, p ≠ 0 ∧ p < db.index.bufferPool.pager.numPages ∧
    p ∉ db.index.bufferPool.pager.freeList

/-- What holds in any state: the cache is one that the LRU map can build, the page count is that of
the file, and there is a log if there should be one. -/
structure Database.Regular (db : Database) : Prop where
  wf : db.index.bufferPool.cache.WF
  len : db.index.bufferPool.pager.file.len = db.index.bufferPool.pager.numPages.toNat
  wal : db.config.walEnabled = db.wal.isSome

/-- The file will have what is read from the cache: a copy of a page reached from the root is dirty,
or is what the file has; page 0 will be in order, and name the root. -/
structure Database.Coherent (db : Database) : Prop where
  pages : ∀ p ∈ db.Reached, db.index.bufferPool.stored p = db.index.bufferPool.view p
  magic : (db.index.bufferPool.stored 0).hasMagic
  root : (db.index.bufferPool.stored 0).rootField = db.index.rootPageId
  last : ∀ page, db.index.bufferPool.look u32Max ≠ some (page, true)

/-- **Closing and opening preserves the contents.** From a state in which the cache and the file agree
on the pages reached from the root, after any number of rounds every `get` and every
`scan_prefix` has the result it had before. -/
theorem close_reopen_preserves {db : Database} (hdb : db.Regular) (halloc : db.Allocated)
    (hcoh : db.Coherent) (crc : Bytes → UInt32) (dir : Files) (n : Nat) :
    ∃ db', Lives crc dir (List.replicate n .shutdown) db [] db' ∧ ∀ fuel,
      (∀ key, (Database.get fuel key db').1 = (Database.get fuel key db).1) ∧
      ∀ pre, (Database.scanPrefix fuel pre db').1 = (Database.scanPrefix fuel pre db).1 := by
  have hR : UsablePages db.Reached db.index.rootPageId :=
    ⟨⟨.node, .root⟩, fun p hp => (halloc p hp).1⟩
  have hserves : db.index.bufferPool.Serves db.Reached db.index.bufferPool.view :=
    ⟨hdb.wf, hdb.len, hcoh.last, fun p hp => (halloc p hp).2.1, fun _ _ => rfl, hcoh.pages⟩
  have hlasts : db.index.Lasts db.Reached db.index.bufferPool.view :=
    ⟨hserves, hcoh.magic, hcoh.root⟩
  obtain ⟨db', hlives, hid, hlasts'⟩ := hlasts.rounds crc dir n hR hdb.wal
  have hreach : ∀ k p, Reaches db.index.bufferPool.view db.index.rootPageId k p → p ∈ db.Reached :=
    fun k _ hp => ⟨k, hp⟩
  refine ⟨db', hlives, fun fuel => ?_⟩
  obtain ⟨hget, hscan⟩ := hlasts.reads hreach fuel
  obtain ⟨hget', hscan'⟩ := hlasts'.reads (hid ▸ hreach) fuel
  rw [hid] at hget' hscan'
  exact ⟨fun key => (hget' key).trans (hget key).symm, fun pre => (hscan' pre).trans (hscan pre).symm⟩

variable {s : BufferPool} {db : Database} {v : PageId → Page} {C : List PageId} {key : Bytes}

/-- A pool in order agrees with its file. -/
theorem BufferPool.Core.stored_eq {U : Set PageId} (h : s.Core U) :
    (∀ q, q ≠ 0 → s.stored q = s.view q) ∧ (s.stored 0).rootField = s.root ∧
      (s.stored 0).hasMagic := by
  refine ⟨fun q hq => ?_, ?_, ?_⟩
  · cases hl : s.look q with
    | none => rw [stored_of_none hl, view_of_none hl]
    | some pd =>
      obtain ⟨page, dirty⟩ := pd
      cases dirty with
      | true => rw [stored_of_dirty hl, view_of_some hl]
      | false => rw [stored_of_clean hl, view_of_some hl, ← h.clean q page hq hl]
  · unfold BufferPool.root
    cases hl : s.look 0 with
    | none => rw [stored_of_none hl, view_of_none hl]
    | some pd =>
      obtain ⟨page, dirty⟩ := pd
      cases dirty with
      | true => rw [stored_of_dirty hl, view_of_some hl]
      | false => rw [stored_of_clean hl, view_of_some hl, ← h.cleanMeta page hl]
  · cases hl : s.look 0 with
    | none => rw [stored_of_none hl]; exact h.magic
    | some pd =>
      obtain ⟨page, dirty⟩ := pd
      cases dirty with
      | true => rw [stored_of_dirty hl]; exact h.magicMeta _ hl
      | false => rw [stored_of_clean hl]; exact h.magic

/-- An index that holds a map meets the conditions. -/
theorem HoldsMap.coherent {m : Bytes → Option Bytes} (h : HoldsMap db.index m)
    (hwal : db.config.walEnabled = db.wal.isSome) : db.Regular ∧ db.Allocated ∧ db.Coherent := by
  obtain ⟨K, d, c, ⟨v, hat, hrep, hK⟩, hread, hm⟩ := h
  obtain ⟨hcore, F, hfree⟩ := hat.inv
  have hrep' : Represents db.index.bufferPool.view c :=
    hrep.congr fun p hp => hat.view p (Or.inl hp)
  have hreached : ∀ p ∈ db.Reached, p ∈ {p | p ∈ pagesOf c} ∪ K := by
    intro p hp
    obtain ⟨kind, hp⟩ := hp
    rw [hat.rootId] at hp
    exact Or.inl (hp.mem_pages hrep' fun x hx => (hread x hx).genuine)
  obtain ⟨hpages, hroot, hmagic⟩ := hcore.stored_eq
  refine ⟨⟨hcore.wf, hcore.len, hwal⟩, fun p hp => ?_, fun p hp => ?_, hmagic, ?_, fun page hl => ?_⟩
  · obtain ⟨hp0, hlt⟩ := hcore.used p (hreached p hp)
    refine ⟨hp0, hlt, fun hmem => ?_⟩
    rw [hfree.freeList_eq] at hmem
    exact hfree.unused p hmem (hreached p hp)
  · exact hpages p (hcore.used p (hreached p hp)).1
  · exact hroot.trans (hat.stored.trans hat.rootId.symm)
  · exact ne_u32Max_of_lt (hcore.inside hl) rfl

/-- Two leaves under a root, and an overflow chain. -/
def keptRun : List DbOp :=
  [.put 0 [1] (List.replicate 2000 7), .put 0 [2] (List.replicate 2001 8),
    .put 0 [3] (List.replicate 1900 9), .put 0 [4] (List.replicate 200 9)]

theorem close_reopen_keptRun : ∃ db₀ rs db db', Opens crc32 Config.default Files.empty db₀ ∧
    DbRuns crc32 keptRun db₀ rs db ∧
    Lives crc32 Files.empty (List.replicate 2 .shutdown) db [] db' ∧
    ∀ fuel, (Database.get fuel [2] db').1 = (Database.get fuel [2] db).1 := by
  have hcheck : checkOpen crc32 Config.default Files.empty 20
      (checkRunDb crc32 20 keptRun fun db => db.wal.isSome && db.config.walEnabled) := by
    decide +kernel
  obtain ⟨db₀, hopen, _, _, _, _, hempty⟩ := open_empty crc32 Config.default rfl
  obtain ⟨db₀', hopen', hcheck⟩ := Opens.of_check hcheck
  obtain rfl : db₀' = db₀ := hopen'.unique hopen
  obtain ⟨rs, db, hruns, _, hholds, _, hwal⟩ :=
    hempty.dbEval (by simp [keptRun, DbOp.Sized, -List.reduceReplicate]) hcheck
  obtain ⟨hlog, hon⟩ := Bool.and_eq_true_iff.mp hwal
  obtain ⟨hregular, halloc, hcoh⟩ := hholds.coherent (hon.trans hlog.symm)
  obtain ⟨db', hlives, hsame⟩ := close_reopen_preserves hregular halloc hcoh crc32 Files.empty 2
  exact ⟨db₀', rs, db, db', hopen, hruns, hlives, fun fuel => (hsame fuel).1 [2]⟩

/-! ## A copy that is out of date -/

/-- Whether the pages a node names are among these nodes and these overflow pages. -/
def closedAt (v : PageId → Page) (nodes chain : List PageId) (p : PageId) : Bool :=
  match Node.fromPage (v p) with
  | .error _ => true
  | .ok (.internal i) => i.children.all nodes.contains
  | .ok (.leaf l) =>
    l.nextLeaf.all nodes.contains &&
      l.records.all fun r => !isOverflowHandle r.2 || chain.contains (handlePage r.2)

/-- Nothing outside of such lists is reached. -/
theorem Reaches.mem_closed {root : PageId} {nodes chain : List PageId} (hroot : root ∈ nodes)
    (hnodes : ∀ p ∈ nodes, closedAt v nodes chain p)
    (hchain : ∀ p ∈ chain, (v p).next = u32Max ∨ (v p).next ∈ chain) {kind : PageKind} {p : PageId}
    (h : Reaches v root kind p) :
    match kind with
    | .node => p ∈ nodes
    | .overflow => p ∈ chain := by
  induction h with
  | root => exact hroot
  | child _ hnode hc ih =>
    have hclosed := hnodes _ ih
    unfold closedAt at hclosed
    rw [hnode] at hclosed
    exact contains_iff_mem.mp (all_eq_true.mp hclosed _ hc)
  | next _ hnode hnext ih =>
    have hclosed := hnodes _ ih
    unfold closedAt at hclosed
    rw [hnode] at hclosed
    dsimp only at hclosed
    rw [hnext, Bool.and_eq_true_iff] at hclosed
    exact contains_iff_mem.mp hclosed.1
  | first _ hnode hr hover _ ih =>
    have hclosed := hnodes _ ih
    unfold closedAt at hclosed
    rw [hnode] at hclosed
    dsimp only at hclosed
    rw [Bool.and_eq_true_iff] at hclosed
    have hmem := all_eq_true.mp hclosed.2 _ hr
    rw [hover] at hmem
    exact contains_iff_mem.mp hmem
  | link _ hne ih => exact (hchain _ ih).resolve_left hne

/-- `Database.Allocated`, decided with lists of the pages that are reached. -/
def Database.checkAllocated (db : Database) (nodes chain : List PageId) : Bool :=
  let s := db.index.bufferPool
  nodes.contains db.index.rootPageId && nodes.all (closedAt s.view nodes chain) &&
    (chain.all fun p => (s.view p).next == u32Max || chain.contains (s.view p).next) &&
    (nodes ++ chain).all fun p =>
      p != 0 && decide (p < s.pager.numPages) && !s.pager.freeList.contains p

theorem Database.allocated_of_check {nodes chain : List PageId}
    (h : db.checkAllocated nodes chain) : db.Allocated := by
  unfold checkAllocated at h
  simp only [Bool.and_eq_true, all_eq_true, contains_iff_mem, Bool.or_eq_true, beq_iff_eq,
    mem_append, bne_iff_ne, decide_eq_true_eq, Bool.not_eq_true'] at h
  obtain ⟨⟨⟨hroot, hnodes⟩, hchain⟩, hall⟩ := h
  intro p hp
  obtain ⟨kind, hp⟩ := hp
  have hmem : p ∈ nodes ∨ p ∈ chain := by
    have hclosed := hp.mem_closed hroot hnodes hchain
    cases kind with
    | node => exact Or.inl hclosed
    | overflow => exact Or.inr hclosed
  obtain ⟨⟨hp0, hlt⟩, hfree⟩ := hall p hmem
  exact ⟨hp0, hlt, fun hin => Bool.false_ne_true (hfree.symm.trans (contains_iff_mem.mpr hin))⟩

/-- The cache has nothing but clean copies of what the file has. -/
structure BufferPool.Mirrors (s : BufferPool) (pg : Pager) : Prop where
  wf : s.cache.WF
  pager : s.pager = pg
  look : ∀ q pd, s.look q = some pd → pd = (pg.readPage q, false)

/-- From such a pool every page can be fetched, also outside of the file. -/
theorem BufferPool.Mirrors.fetch {pg : Pager} (h : s.Mirrors pg) (p : PageId) :
    (s.fetchPage p).1 = pg.readPage p ∧ (s.fetchPage p).2.Mirrors pg := by
  -- nothing is dirty, so nothing is written
  have hpager : (s.fetchPage p).2.pager = pg := by
    rcases fetchPage_pager h.wf p with he | ⟨q, page, hq, _⟩
    · rw [he, h.pager]
    · exact absurd (congrArg Prod.snd (h.look q _ hq)) (by simp)
  have hsettles : ∀ s' : BufferPool, Settles s s' → ∀ q pd, s'.look q = some pd →
      pd = (pg.readPage q, false) := by
    intro s' hs q pd hq
    obtain ⟨page, dirty⟩ := pd
    rcases hs.of_some hq with ⟨hl, _⟩ | ⟨hl, _⟩
    · exact h.look q _ hl
    · exact absurd (congrArg Prod.snd (h.look q _ hl)) (by simp)
  cases hl : s.look p with
  | some pd =>
    obtain ⟨hpage, hset⟩ := fetchPage_hit h.wf hl
    exact ⟨hpage.trans (congrArg Prod.fst (h.look p pd hl)), hset.wf, hpager, hsettles _ hset⟩
  | none =>
    obtain ⟨hpage, s₁, hset, _, _, hput⟩ := fetchPage_miss h.wf hl
    rw [h.pager] at hpage hput
    refine ⟨hpage, hput.wf, hpager, fun q pd hq => ?_⟩
    rw [hput.look q] at hq
    split at hq
    · rename_i he
      rw [← Option.some.inj hq, he]
    · exact hsettles s₁ hset q pd hq

theorem BufferPool.mirrors_fetches (pg : Pager) (root : PageId) :
    BTree.Fetches BufferPool.store (fun s => s.Mirrors pg) pg.readPage root := by
  intro k p s _ hs
  obtain ⟨hpage, hs'⟩ := hs.fetch p
  refine ⟨(s.fetchPage p).2, ?_, hs'⟩
  show (Except.ok (s.fetchPage p).1, (s.fetchPage p).2) = _
  rw [hpage]

/-- `BufferPool.Mirrors`, decided. -/
def BufferPool.checkMirrors (s : BufferPool) : Bool :=
  decide ((s.cache.entries.map Prod.fst).Nodup) && decide (s.cache.entries.length ≤ s.cache.cap) &&
    decide (0 < s.cache.cap) &&
    s.cache.entries.all fun e => !e.2.2 && e.2.1.data == (s.pager.readPage e.1).data

theorem BufferPool.mirrors_of_check (h : s.checkMirrors) : s.Mirrors s.pager := by
  unfold checkMirrors at h
  simp only [Bool.and_eq_true, decide_eq_true_eq, all_eq_true, Bool.not_eq_true', beq_iff_eq] at h
  obtain ⟨⟨⟨hnodup, hlen⟩, hcap⟩, hall⟩ := h
  refine ⟨⟨hnodup, hlen, hcap⟩, rfl, fun q pd hq => ?_⟩
  obtain ⟨hclean, hdata⟩ := hall (q, pd) (Lru.mem_of_findIn hq)
  exact Prod.ext (Page.ext_data hdata) hclean

/-- A chain that runs in a circle is never read to its end. -/
theorem BTree.resolveChain_circle (hC : ∀ p ∈ C, p ≠ u32Max ∧ (v p).next ∈ C) (len : Nat)
    (root : PageId) (value : Bytes) :
    ∀ (n : Nat) (p : PageId) (acc : Bytes), p ∈ C →
      (resolveChain (imageStore v) len n p acc ⟨(), root⟩).1 ≠ .ok value := by
  intro n
  induction n with
  | zero =>
    intro p acc hp
    unfold resolveChain
    rw [if_neg (hC p hp).1]
    simp [Prog.fail]
  | succ n ih =>
    intro p acc hp
    unfold resolveChain
    rw [if_neg (hC p hp).1]
    have hfetch : onPool ((imageStore v).fetchPage p) ⟨(), root⟩ = (.ok (v p), ⟨(), root⟩) := rfl
    dsimp only
    rw [bind_of_ok hfetch]
    cases (v p).slice 4 (4 + min (len - acc.length) chunkSize) with
    | error e =>
      intro h
      have herr : (Except.error e : Except Fail Bytes) = .ok value := h
      exact absurd herr (by simp)
    | ok part => exact ih _ _ (hC p hp).2

/-- A record of the root leaf whose chain runs in a circle is never returned. -/
theorem BTree.search_circle {root : PageId} {l : LeafNode} {pos : Nat} {r : Bytes × Bytes}
    (hroot : Node.fromPage (v root) = .ok (.leaf l))
    (hpos : binarySearch (l.records.map Prod.fst) key = .ok pos) (hr : l.records[pos]? = some r)
    (hover : isOverflowHandle r.2) (hfirst : handlePage r.2 ∈ C)
    (hC : ∀ p ∈ C, p ≠ u32Max ∧ (v p).next ∈ C) (n : Nat) (value : Option Bytes) :
    (search (imageStore v) n key ⟨(), root⟩).1 ≠ .ok value := by
  have hread : readNode (imageStore v) root ⟨(), root⟩ = (.ok (.leaf l), ⟨(), root⟩) :=
    Prod.ext hroot rfl
  have hfind : findLeaf (imageStore v) n key ⟨(), root⟩ = (.ok (root, l), ⟨(), root⟩) := by
    show (readNode (imageStore v) root >>= findLeafForInsert (imageStore v) key n root) _ = _
    rw [bind_of_ok hread]
    unfold findLeafForInsert
    rfl
  unfold search
  rw [bind_of_ok hfind]
  dsimp only
  rw [hpos]
  dsimp only
  rw [hr]
  dsimp only
  unfold readValueResolveOverflow
  rw [if_pos hover]
  intro h
  rcases hchain : resolveChain (imageStore v) (leNat (slice r.2 4 8)) n
      (u32FromLeBytes (slice r.2 8 12)) [] ⟨(), root⟩ with ⟨_ | part, t⟩
  · rw [bind_of_error hchain] at h
    exact absurd h (by simp)
  · exact resolveChain_circle hC _ root part n _ [] hfirst (congrArg Prod.fst hchain)

/-- A record of the root leaf whose chain runs through these pages, as the file has it. -/
def Database.checkCircle (db : Database) (key : Bytes) (C : List PageId) : Bool :=
  let v := db.index.bufferPool.pager.readPage
  db.index.bufferPool.checkMirrors && (C.all fun p => p != u32Max && C.contains (v p).next) &&
    match Node.fromPage (v db.index.rootPageId) with
    | .ok (.leaf l) =>
      match binarySearch (l.records.map Prod.fst) key with
      | .ok pos => l.records[pos]?.any fun r => isOverflowHandle r.2 && C.contains (handlePage r.2)
      | .error _ => false
    | _ => false

/-- `get` does not return for such a key. -/
theorem Database.not_reads_of_circle (h : db.checkCircle key C) (value : Option Bytes) :
    ¬ db.Reads key value := by
  unfold checkCircle at h
  dsimp only at h
  rw [Bool.and_eq_true_iff, Bool.and_eq_true_iff] at h
  obtain ⟨⟨hmirror, hC⟩, hleaf⟩ := h
  have hC' : ∀ p ∈ C, p ≠ u32Max ∧ (db.index.bufferPool.pager.readPage p).next ∈ C := by
    intro p hp
    simpa using all_eq_true.mp hC p hp
  split at hleaf
  · rename_i l hroot
    split at hleaf
    · rename_i pos hpos
      obtain ⟨r, hr, hhandle⟩ := (Option.any_eq_true _ _).mp hleaf
      obtain ⟨hover, hfirst⟩ := Bool.and_eq_true_iff.mp hhandle
      intro hreads
      obtain ⟨db', n, hn⟩ := hreads
      have hget : (BTree.search BufferPool.store n key db.index).1 = .ok value :=
        congrArg Prod.fst (hn n (Nat.le_refl n))
      obtain ⟨x, s', hrun, himage, _⟩ := BTree.reads_search
        (BufferPool.mirrors_fetches db.index.bufferPool.pager db.index.rootPageId) n key _
        (BufferPool.mirrors_of_check hmirror)
      refine BTree.search_circle hroot hpos hr hover (contains_iff_mem.mp hfirst) hC' n value ?_
      rw [himage, ← hget]
      exact (congrArg Prod.fst hrun).symm
    · exact absurd hleaf (by simp)
  · exact absurd hleaf (by simp)

/-- `get` returns this value. -/
def Database.checkReads (db : Database) (fuel : Nat) (key value : Bytes) : Bool :=
  match (Database.get fuel key db).1 with
  | .ok (some v) => v == value
  | _ => false

theorem Database.reads_of_check {fuel : Nat} {value : Bytes}
    (h : db.checkReads fuel key value) : db.Reads key (some value) := by
  unfold checkReads at h
  split at h
  · rename_i v hget
    obtain rfl : v = value := beq_iff_eq.mp h
    exact .of_run hget
  · exact absurd h (by simp)

/-- A database without a log. -/
def noLog : Config := { Config.default with walEnabled := false }

/-- A key so wide that a leaf has no room for two values of the largest inline size. -/
def wideKey (b : UInt8) : Bytes := List.replicate 70 b

/-- The value of a wide key is overwritten, and the leaf does not fit any more: the put fails after its
overflow pages are freed and one of them is taken for a new leaf. The next read fetches the other
one, which is free. Then a second put fails in the same way, after taking that page. -/
def staleRun : List DbOp :=
  [.put 0 [1] (List.replicate 2000 7), .put 0 (wideKey 2) (List.replicate 5000 8), .put 0 [3] [3],
    .put 0 [4] [4], .put 0 (wideKey 2) (List.replicate 2000 9), .get (wideKey 2),
    .put 0 (wideKey 1) (List.replicate 2000 9), .get [3]]

/-- **A key is lost in a clean close.** All pages that are reached are allocated, the last call returns
`Ok`, and `get` returns a value for the key. After the database is closed and opened again `get`
follows a page that the cache had another copy of, and does not return. -/
theorem stale_copy_lost : ∃ db₀ rs db db', Opens crc32 noLog Files.empty db₀ ∧
    Lives crc32 Files.empty (staleRun.map .call) db₀ rs db ∧ rs.getLast? = some (.ok (some [3])) ∧
    db.Allocated ∧ db.Reads (wideKey 2) (some (List.replicate 4092 0)) ∧
    Lives crc32 Files.empty [.shutdown] db [] db' ∧ ∀ value, ¬ db'.Reads (wideKey 2) value := by
  have hcheck : checkLife crc32 noLog 20 (staleRun.map .call) (fun rs db =>
      rs.getLast? == some (.ok (some [3])) && db.checkAllocated [1] [3] &&
      db.checkReads 20 (wideKey 2) (List.replicate 4092 0) &&
      ((evalLife crc32 Files.empty 20 [.shutdown] db).any fun x =>
        x.1.isEmpty && x.2.checkCircle (wideKey 2) [3, 0, 1111770957])) := by
    decide +kernel
  obtain ⟨db₀, rs, db, hopen, hlives, hcheck⟩ := lives_of_check hcheck
  simp only [Bool.and_eq_true, beq_iff_eq, Option.any_eq_true] at hcheck
  obtain ⟨⟨⟨hlast, halloc⟩, hget⟩, ⟨rs', db'⟩, hround, hrs, hcircle⟩ := hcheck
  obtain rfl : rs' = [] := isEmpty_iff.mp hrs
  exact ⟨db₀, rs, db, db', hopen, hlives, hlast, Database.allocated_of_check halloc,
    Database.reads_of_check hget, lives_of_eval hround, Database.not_reads_of_circle hcircle⟩

end MagnumDB
