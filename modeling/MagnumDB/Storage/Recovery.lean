import MagnumDB.Storage.DatabaseRun

/-!
# Opening and closing a database

`Database::open` over a data file that holds some bindings and a log of records:
the bindings are those of the file, updated with what the log makes permanent
after the checkpoint (`Replayable.opens`). It takes no more for granted than that
the file holds a sound tree and that the replay meets the conditions of the index.

`Database::close` writes everything that is dirty, stores the number of the last
record as the checkpoint, and empties the log.
-/

namespace MagnumDB

open TxLog WriteAheadLog Updates Prog List

/-- What an entry of the log writes to the index. -/
def WalEntry.write : WalEntry → Write Bytes Bytes
  | .put key value => (key, some value)
  | .delete key => (key, none)

/-- The call of the index that replays an entry. -/
def WalEntry.treeOp : WalEntry → TreeOp
  | .put key value => .insert key value
  | .delete key => .delete key

theorem WalEntry.apply_treeOp (m : Bytes → Option Bytes) (e : WalEntry) :
    e.treeOp.apply m = Updates.apply m e.write := by
  cases e <;> rfl

theorem value_length_of_fits {tx : UInt64} {key value : Bytes}
    (h : Record.Fits (.op tx (.put key value))) : value.length < 2 ^ 32 := by
  unfold Record.Fits Record.payload WriteAheadLog.putPayload at h
  simp only [length_append] at h
  omega

theorem sized_of_fits {ops : List DbOp} (h : ∀ r ∈ records ops, r.Fits) : ∀ op ∈ ops, op.Sized := by
  intro op hop
  cases op with
  | put txId key value =>
    exact value_length_of_fits (h _ (mem_filterMap.mpr ⟨_, hop, rfl⟩))
  | delete txId key | begin txId | commit txId | rollback txId | get key => trivial

/-! ## The recovery loop -/

variable {t : BTree BufferPool} {es : List WalEntry} {crc : Bytes → UInt32} {config : Config}
  {dir : Files} {m : Bytes → Option Bytes} {w : WriteAheadLog}

variable {t' : BTree BufferPool} {db : Database} {c : UInt64} {fuel : Nat}

/-- Replaying an entry is a call of the index. -/
theorem replayEntry_ends {e : WalEntry} {r : Option Bytes}
    (h : Ends (e.treeOp.exec BufferPool.store) t (.ok r, t')) :
    Ends (fun n => Database.replayEntry n e) t (.ok (), t') := by
  have hunit : ∀ {x : Nat → Prog Fail (BTree BufferPool) Unit},
      Ends (fun n => x n >>= fun _ => (pure none : Prog Fail _ (Option Bytes))) t (.ok r, t') →
      Ends x t (.ok (), t') := by
    intro x hx
    obtain ⟨n, hn⟩ := hx.of_bind_pure
    refine ⟨n, fun m hm => ?_⟩
    obtain ⟨hstate, hres⟩ := hn m hm
    match hrun : x m t with
    | (.ok (), t₁) => rw [hrun] at hstate; rw [show t₁ = t' from hstate]
    | (.error e, t₁) => rw [hrun] at hres; exact absurd hres (by simp [Except.map])
  cases e with
  | put key value => exact hunit h
  | delete key => exact hunit h

/-- Every entry finds the index in a state in which it can be replayed, and the flush at the end
does not move the free-list head. -/
def SafeReplay (entries : List WalEntry) (t : BTree BufferPool) : Prop :=
  SafeRun false (entries.map WalEntry.treeOp) t ∧
    ∀ t', Ends (fun n => Database.replayEntries n entries) t (.ok (), t') →
      headOk false t'.bufferPool.pager t'.bufferPool.flushAll.pager

/-- **Replay.** The entries update the bindings, in their order. -/
theorem HoldsMap.replay : ∀ {t : BTree BufferPool} {m : Bytes → Option Bytes},
    HoldsMap t m → (∀ e ∈ es, e.treeOp.Sized) → SafeRun false (es.map WalEntry.treeOp) t →
    ∃ t', Ends (fun n => Database.replayEntries n es) t (.ok (), t') ∧
      HoldsMap t' (applyAll m (es.map WalEntry.write)) ∧
      ∀ c, t.bufferPool.LsnIs c → t'.bufferPool.LsnIs c := by
  induction es with
  | nil => exact fun {t m} h _ _ => ⟨t, ⟨0, fun _ _ => rfl⟩, h, fun _ hc => hc⟩
  | cons e es ih =>
    intro t m h hsize hsafe
    obtain ⟨hok, hrest⟩ := hsafe
    obtain ⟨r, t₁, hends, h₁, hlsn₁⟩ := h.treeStep e.treeOp (hsize e mem_cons_self) hok
    rw [WalEntry.apply_treeOp] at h₁
    obtain ⟨t', hends', h', hlsn⟩ := ih h₁ (fun x hx => hsize x (mem_cons_of_mem _ hx))
      (hrest _ _ hends)
    exact ⟨t', (replayEntry_ends hends).bind hends', h', fun c hc => hlsn c (hlsn₁ c hc)⟩

/-- The index takes the key of the entry. -/
def WalEntry.Allowed : WalEntry → Prop
  | .put key _ => key.length ≤ maxKeySize
  | .delete _ => True

instance WalEntry.decidableAllowed (e : WalEntry) : Decidable e.Allowed :=
  match e with
  | .put key _ => inferInstanceAs (Decidable (key.length ≤ maxKeySize))
  | .delete _ => inferInstanceAs (Decidable True)

/-- The length of the value is one that can be stored. -/
def WalEntry.Storable : WalEntry → Prop
  | .put _ value => value.length < 2 ^ 32
  | .delete _ => True

theorem WalEntry.sized {e : WalEntry} (hkey : e.Allowed) (hvalue : e.Storable) : e.treeOp.Sized := by
  cases e with
  | put key value => exact ⟨hkey, hvalue⟩
  | delete key => trivial

/-- With enough fuel, opening the directory returns the database. -/
def Opens (crc : Bytes → UInt32) (config : Config) (dir : Files) (db : Database) : Prop :=
  ∃ n, ∀ m, n ≤ m → Database.open crc config dir m = .ok db

theorem Opens.unique {db' : Database} (h : Opens crc config dir db)
    (h' : Opens crc config dir db') :
    db = db' := by
  obtain ⟨n, hn⟩ := h
  obtain ⟨k, hk⟩ := h'
  exact Except.ok.inj ((hn _ (Nat.le_max_left n k)).symm.trans (hk _ (Nat.le_max_right n k)))

/-- The checkpoint LSN stored in a data file. -/
def DataFile.checkpoint (data : DataFile) : UInt64 := (data.page 0).lsnField

/-- A file that holds a tree is opened as it is. -/
theorem FileHolds.file_eq {data : DataFile} {pager : Pager} {root : PageId}
    (hopen : Pager.open data = .ok pager) (h : HoldsMap ⟨BufferPool.opened pager 1024 0, root⟩ m) :
    pager.file = data := by
  obtain ⟨_, _, c, ⟨_, hat, _, _⟩, _, _⟩ := h
  have hroot : (pager.file.page 0).rootField = c.id := hat.stored
  have hne : c.id ≠ 0 := (hat.inv.1.used c.id (Or.inl (BTree.id_mem_pages c))).1
  unfold Pager.open at hopen
  dsimp only at hopen
  split at hopen
  · -- a new file has no root
    rw [← Except.ok.inj hopen] at hroot
    exact absurd (hroot.symm.trans Page.initialMeta_root) hne
  · split at hopen
    · rw [← Except.ok.inj hopen]
    · exact absurd hopen (by simp)

/-- The first half of `Database::open`, once the file can be opened and the tree is found. -/
theorem openIndex_of_new {pager : Pager} (hopen : Pager.open pager.file = .ok pager)
    (hpos : 0 < pager.numPages)
    (hnew : BTree.new BufferPool.store (BufferPool.opened pager 1024 config.syncInterval) = .ok t) :
    Database.openIndex config pager.file = .ok (t, pager.file.checkpoint) := by
  have hlsn : pager.readCheckpointLsn = pager.file.checkpoint := by
    unfold Pager.readCheckpointLsn DataFile.checkpoint
    rw [BufferPool.readPage_inside hpos]
  unfold Database.openIndex
  rw [Except.bind_of_ok hopen, Except.bind_of_ok hopen, hlsn]
  exact Except.bind_of_ok hnew

/-- The index of a file that holds a tree. -/
theorem FileHolds.openIndex {data : DataFile} (h : FileHolds data m) (config : Config) :
    ∃ t, Database.openIndex config data = .ok (t, data.checkpoint) ∧
      t.bufferPool.Clean ∧ t.bufferPool.LsnIs data.checkpoint ∧ HoldsMap t m := by
  obtain ⟨pager, root, hopen, hmap⟩ := h
  obtain rfl := FileHolds.file_eq hopen hmap
  obtain ⟨s, hnew, hpager, hclean, hlsnIs, hholds⟩ := (hmap.opened 1024 config.syncInterval).new
  obtain ⟨_, _, _, ⟨_, hat, _, _⟩, _, _⟩ := hmap
  exact ⟨⟨s, root⟩, openIndex_of_new hopen hat.inv.1.pos hnew, hclean, hlsnIs, hholds⟩

/-- The end of `Database::open`, once the index is there and the log is read. -/
theorem opens_of_replay (hwal : config.walEnabled)
    (hindex : Database.openIndex config dir.data = .ok (t, c))
    (hrec : (WriteAheadLog.open dir.wal).recover crc c = (es, w))
    (hends : Ends (fun n => Database.replayEntries n es) t (.ok (), t')) :
    Opens crc config dir ⟨config, some w, t'.flushAndSync⟩ := by
  obtain ⟨n, hn⟩ := hends
  refine ⟨n, fun k hk => ?_⟩
  have hk' : Database.replayEntries k es t = (.ok (), t') := hn k hk
  unfold Database.open
  rw [Except.bind_of_ok hindex]
  dsimp only
  rw [if_pos hwal, hrec]
  rw [hk']
  rfl

/-- **Recovery.** The index that is found holds `m`, and the log says `es`. If the entries can be
replayed, the database opens and holds `m` updated with them. -/
theorem HoldsMap.recovers (hholds : HoldsMap t m) (hlsn : t.bufferPool.LsnIs c)
    (hwal : config.walEnabled) (hindex : Database.openIndex config dir.data = .ok (t, c))
    (hrec : (WriteAheadLog.open dir.wal).recover crc c = (es, w)) (hsize : ∀ e ∈ es, e.treeOp.Sized)
    (hsafe : SafeReplay es t) :
    ∃ db, Opens crc config dir db ∧ db.config = config ∧ db.wal = some w ∧
      db.index.bufferPool.Clean ∧ db.index.bufferPool.LsnIs c ∧
      HoldsMap db.index (applyAll m (es.map WalEntry.write)) := by
  obtain ⟨hrun, hflush⟩ := hsafe
  obtain ⟨t', hends, hholds', hlsn'⟩ := hholds.replay hsize hrun
  exact ⟨_, opens_of_replay hwal hindex hrec hends, rfl, rfl, BufferPool.flushAll_clean _,
    (hlsn' c hlsn).settles (BufferPool.flushAll_settles hholds'.wf), hholds'.flush (hflush t' hends)⟩

/-- What recovery needs of a directory whose log has the records `rs`: the data file holds a sound
tree, with the bindings `B`, the records can be read, and what they make permanent after the
checkpoint can be replayed. -/
structure Replayable (config : Config) (dir : Files) (rs : List Record) (B : Bytes → Option Bytes) :
    Prop where
  data : FileHolds dir.data B
  fits : ∀ r ∈ rs, r.Fits
  short : rs.length < 2 ^ 64
  safe : ∀ t c, Database.openIndex config dir.data = .ok (t, c) →
    SafeReplay (TxLog.replay 0 (skipTo c.toNat 0 rs)) t

/-- What the log makes permanent after the checkpoint. -/
def Files.entries (dir : Files) (rs : List Record) : List WalEntry :=
  TxLog.replay 0 (skipTo dir.data.checkpoint.toNat 0 rs)

section Replayable

variable {crc : Bytes → UInt32} {config : Config} {dir : Files} {rs : List Record}
  {B : Bytes → Option Bytes}

/-- Only what was logged is replayed. -/
theorem Files.mem_entries {e : WalEntry} (h : e ∈ dir.entries rs) : ∃ tx, Event.op tx e ∈ rs := by
  obtain ⟨before, tx, after, hrs, _⟩ := mem_replay_skipTo.mp h
  exact ⟨tx, by rw [hrs]; exact mem_append_right _ mem_cons_self⟩

theorem Replayable.storable (h : Replayable config dir rs B) : ∀ e ∈ dir.entries rs, e.Storable := by
  intro e he
  obtain ⟨tx, hmem⟩ := Files.mem_entries he
  cases e with
  | put key value => exact value_length_of_fits (h.fits _ hmem)
  | delete key => trivial

theorem Replayable.recover_eq (h : Replayable config dir rs B) (hlog : dir.wal = fileOf crc rs) :
    (WriteAheadLog.open dir.wal).recover crc dir.data.checkpoint
      = (dir.entries rs, ⟨dir.wal, UInt64.ofNat rs.length⟩) := by
  have hlog' : dir.wal = fileOf crc rs ++ [] := by rw [hlog, append_nil]
  rw [hlog']
  exact recover_records h.fits h.short rfl _ _

/-- **Recovery after a crash.** If the index takes the keys of all entries, the database opens,
and holds what the file held, updated with the entries. -/
theorem Replayable.opens (h : Replayable config dir rs B) (hwal : config.walEnabled)
    (hlog : dir.wal = fileOf crc rs) (hkeys : ∀ e ∈ dir.entries rs, e.Allowed) :
    ∃ db, Opens crc config dir db ∧ HoldsMap db.index (applyAll B ((dir.entries rs).map WalEntry.write)) := by
  obtain ⟨t, hindex, _, hlsn, hholds⟩ := h.data.openIndex config
  obtain ⟨db, hopens, _, _, _, _, hdb⟩ := hholds.recovers hlsn hwal hindex (h.recover_eq hlog)
    (fun e he => WalEntry.sized (hkeys e he) (h.storable e he)) (h.safe _ _ hindex)
  exact ⟨db, hopens, hdb⟩

end Replayable

/-- The index of a new directory: a new tree, and checkpoint 0. -/
theorem openIndex_empty (config : Config) :
    ∃ t, Database.openIndex config DataFile.empty = .ok (t, 0) ∧ t.bufferPool.Synced ∧
      t.bufferPool.LsnIs 0 ∧ HoldsMap t (fun _ => none) := by
  obtain ⟨t, id, hfresh, hsync, -⟩ := BTree.fresh_holds false 1024 config.syncInterval
  have hreopen : Pager.open Pager.fresh.file = .ok Pager.fresh :=
    (BTree.opened_fresh_inv false 1024 config.syncInterval).1.open_file
  have hlsn : Pager.fresh.readCheckpointLsn = 0 := Page.initialMeta_lsn
  have hlsn₀ := BufferPool.LsnIs.opened Pager.fresh 1024 config.syncInterval
  rw [show (Pager.fresh.file.page 0).lsnField = 0 from Page.initialMeta_lsn] at hlsn₀
  refine ⟨t, ?_, hsync, BTree.fresh_keeps (BufferPool.lsnIs_kept false 0) hlsn₀ hfresh,
    fresh_holdsMap hfresh⟩
  unfold BTree.fresh at hfresh
  rw [Pager.open_empty] at hfresh
  unfold Database.openIndex
  rw [Except.bind_of_ok Pager.open_empty, Except.bind_of_ok hreopen, hlsn]
  exact Except.bind_of_ok hfresh

/-- Nothing to replay, and a flush that does not move the free-list head. -/
theorem safeReplay_nil
    (hhead : t.bufferPool.flushAll.pager.freeHead = t.bufferPool.pager.freeHead) :
    SafeReplay [] t := by
  refine ⟨trivial, fun t' hends => ?_⟩
  obtain ⟨-, rfl⟩ := Prod.mk.inj (hends.unique ⟨0, fun _ _ => rfl⟩)
  exact BufferPool.headOk_of_eq hhead

theorem FileHolds.opens (crc : Bytes → UInt32) (h : FileHolds dir.data m)
    (hwal : config.walEnabled) (hlog : dir.wal = []) :
    ∃ db, Opens crc config dir db ∧ db.config = config ∧ db.wal = some ⟨[], 0⟩ ∧
      db.index.bufferPool.Clean ∧ db.index.bufferPool.LsnIs dir.data.checkpoint ∧
      HoldsMap db.index m := by
  obtain ⟨t, hindex, hclean, hlsn, hholds⟩ := h.openIndex config
  -- nothing is dirty, so the flush writes nothing
  have hhead : t.bufferPool.flushAll.pager.freeHead = t.bufferPool.pager.freeHead :=
    congrArg Page.freeField (BufferPool.flushAll_disk_clean hholds.wf hclean 0)
  have hrec : (WriteAheadLog.open dir.wal).recover crc dir.data.checkpoint = ([], ⟨[], 0⟩) := by
    rw [hlog]
    rfl
  exact hholds.recovers hlsn hwal hindex hrec (fun _ h => absurd h not_mem_nil)
    (safeReplay_nil hhead)

theorem open_empty (crc : Bytes → UInt32) (config : Config) (hwal : config.walEnabled) :
    ∃ db, Opens crc config Files.empty db ∧ db.config = config ∧ db.wal = some ⟨[], 0⟩ ∧
      db.index.bufferPool.Clean ∧ db.index.bufferPool.LsnIs 0 ∧
      HoldsMap db.index (fun _ => none) := by
  obtain ⟨t, hindex, hsync, hlsn, hholds⟩ := openIndex_empty config
  have hsafe : SafeReplay [] t :=
    safeReplay_nil (hsync.settles (BufferPool.flushAll_settles hholds.wf)).2
  exact hholds.recovers hlsn hwal hindex rfl (fun _ h => absurd h not_mem_nil) hsafe

/-! ## Closing -/

/-- Storing a checkpoint LSN leaves the bindings alone. -/
theorem HoldsMap.writeCheckpointLsn (h : HoldsMap t m) (lsn : UInt64) :
    HoldsMap { t with bufferPool := t.bufferPool.writeCheckpointLsn lsn } m ∧
      (t.bufferPool.writeCheckpointLsn lsn).pager.file.checkpoint = lsn := by
  obtain ⟨K, d, c, ⟨v, hat, hrep, hK⟩, hread, hm⟩ := h
  obtain ⟨hinv, hroot, hview, hpage⟩ := hat.inv.writeCheckpointLsn lsn
  constructor
  · refine ⟨K, d, c, ⟨v, ⟨hinv, fun q hq => ?_, hat.rootId, hroot.trans hat.stored⟩, hrep, hK⟩,
      hread, hm⟩
    exact (hview q (hat.inv.1.used q hq).1).trans (hat.view q hq)
  · exact (congrArg Page.lsnField hpage).trans (Page.lsnField_setLsn _ _)

/-- **A clean close.** The file holds what the index held, the checkpoint is the number of the last
record, and the log is empty. -/
theorem HoldsMap.close (h : HoldsMap db.index m) (hwal : db.wal = some w)
    (hhead : headOk false db.index.bufferPool.pager db.index.bufferPool.flushAll.pager) :
    ∃ db', Database.close db = (.ok (), db') ∧ db'.wal = some ⟨[], 0⟩ ∧ db'.config = db.config ∧
      FileHolds db'.index.bufferPool.pager.file m ∧
      db'.index.bufferPool.pager.file.checkpoint = w.lsn := by
  obtain ⟨config, wal, t⟩ := db
  obtain rfl : wal = some w := hwal
  obtain ⟨hholds, hlsn⟩ := (h.flush hhead).writeCheckpointLsn w.lsn
  exact ⟨_, rfl, rfl, rfl, hholds.file (BufferPool.flushAll_clean t.bufferPool), hlsn⟩

/-! ## Deciding concrete runs -/

theorem replayEntries_agrees (entries : List WalEntry) {n m : Nat} (h : n ≤ m) :
    Upto GaveUp (Database.replayEntries n entries) (Database.replayEntries m entries) := by
  induction entries with
  | nil => exact .refl _
  | cons e es ih =>
    refine .bind ?_ fun _ => ih
    cases e with
    | put key value => exact BTree.insert_agrees (.refl _) h key value
    | delete key => exact BTree.delete_agrees (.refl _) h key

/-- How a database with a log was opened. -/
theorem open_inv (hwal : config.walEnabled)
    (h : Database.open crc config dir fuel = .ok db) :
    ∃ t c es w t', Database.openIndex config dir.data = .ok (t, c) ∧
      (WriteAheadLog.open dir.wal).recover crc c = (es, w) ∧
      Database.replayEntries fuel es t = (.ok (), t') ∧ db = ⟨config, some w, t'.flushAndSync⟩ := by
  unfold Database.open at h
  cases hindex : Database.openIndex config dir.data with
  | error e =>
    rw [hindex] at h
    exact absurd h (by simp [bind, Except.bind])
  | ok tc =>
    obtain ⟨t, c⟩ := tc
    rw [Except.bind_of_ok hindex] at h
    dsimp only at h
    rw [if_pos hwal] at h
    match hrec : (WriteAheadLog.open dir.wal).recover crc c with
    | (es, w) =>
      rw [hrec] at h
      dsimp only at h
      match hrun : Database.replayEntries fuel es t with
      | (.ok (), t') =>
        rw [hrun] at h
        exact ⟨t, c, es, w, t', rfl, hrec, hrun, (Except.ok.inj h).symm⟩
      | (.error e, t') =>
        rw [hrun] at h
        exact absurd h (by simp [throw, throwThe, MonadExceptOf.throw])

/-- Without a log, the database is the index. -/
theorem open_no_log (hwal : config.walEnabled = false) (fuel : Nat) :
    Database.open crc config dir fuel
      = (Database.openIndex config dir.data).map fun tc => ⟨config, none, tc.1⟩ := by
  unfold Database.open
  cases hindex : Database.openIndex config dir.data with
  | error e => rfl
  | ok tc =>
    rw [Except.bind_of_ok rfl]
    dsimp only
    rw [if_neg (by simp [hwal])]
    rfl

/-- More fuel opens the same database. -/
theorem Opens.of_run (h : Database.open crc config dir fuel = .ok db) :
    Opens crc config dir db := by
  cases hwal : config.walEnabled with
  | true =>
    obtain ⟨t, c, es, w, t', hindex, hrec, hrun, rfl⟩ := open_inv hwal h
    have hends : Ends (fun n => Database.replayEntries n es) t (.ok (), t') :=
      Ends.of_ok (fun hnm => replayEntries_agrees es hnm) hrun
    exact opens_of_replay hwal hindex hrec hends
  | false =>
    refine ⟨0, fun n _ => ?_⟩
    rw [open_no_log hwal] at h ⊢
    exact h

/-- Decide something about the database that is opened. -/
def checkOpen (crc : Bytes → UInt32) (config : Config) (dir : Files) (fuel : Nat)
    (P : Database → Bool) : Bool :=
  match Database.open crc config dir fuel with
  | .ok db => P db
  | .error _ => false

theorem Opens.of_check {P : Database → Bool} (h : checkOpen crc config dir fuel P) :
    ∃ db, Opens crc config dir db ∧ P db := by
  unfold checkOpen at h
  split at h
  · rename_i db hopen
    exact ⟨db, Opens.of_run hopen, h⟩
  · exact absurd h (by simp)

end MagnumDB
