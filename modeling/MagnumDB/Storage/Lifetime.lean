import MagnumDB.Storage.Recovery

/-!
# The life of a database

A database lives through calls, clean shutdowns and crashes, and is opened again
after each of the latter two. In a crash some of the dirty pages of the pool may
have reached the file and others not.
-/

namespace MagnumDB

open Prog

/-- The file if only some of the dirty pages are written, those that `written` says. -/
def BufferPool.flushSome (s : BufferPool) (written : PageId → Bool) : Pager :=
  (s.cache.entries.filter fun e => e.2.2 && written e.1).foldl
    (fun pager e => pager.writePage e.1 e.2.1) s.pager

/-- A page of that file: the cached copy if it was dirty and is written, or else what the file had. -/
theorem BufferPool.flushSome_page {s : BufferPool} (h : s.cache.WF) (written : PageId → Bool)
    (q : PageId) :
    (s.flushSome written).file.page q = match s.look q with
      | some (page, true) => if written q then page else s.disk q
      | _ => s.disk q := by
  have hn : ((s.cache.entries.filter fun e => e.2.2 && written e.1).map Prod.fst).Nodup :=
    h.nodup.sublist (List.filter_sublist.map _)
  have hpage := foldl_writePage_page _ s.pager q hn
  rw [Lru.findIn_filter h.nodup] at hpage
  refine hpage.trans ?_
  have hlook : Lru.findIn q s.cache.entries = s.look q := rfl
  rw [hlook]
  cases s.look q with
  | none => rfl
  | some pd =>
    obtain ⟨page, dirty⟩ := pd
    cases dirty with
    | false => rfl
    | true =>
      simp only [Option.filter, Bool.true_and]
      cases written q <;> rfl

/-- Whichever pages are written, the checkpoint LSN stays. -/
theorem BufferPool.LsnIs.flushSome {s : BufferPool} {c : UInt64} (h : s.LsnIs c) (hwf : s.cache.WF)
    (written : PageId → Bool) : (s.flushSome written).file.checkpoint = c := by
  unfold DataFile.checkpoint
  rw [flushSome_page hwf]
  split
  · rename_i page hl
    split
    · exact h.2 _ hl
    · exact h.1
  · exact h.1

/-- What is left in the directory when the process ends here and some dirty pages are written. -/
def Database.torn (db : Database) (dir : Files) (written : PageId → Bool) : Files :=
  { db.files dir with data := (db.index.bufferPool.flushSome written).file }

/-- What happens to a database. -/
inductive Act where
  | call (op : DbOp)
  | shutdown
  | crash (written : PageId → Bool)

/-- The database goes through these events, and the calls have these results. -/
inductive Lives (crc : Bytes → UInt32) (dir : Files) : List Act → Database →
    List (Except Fail (Option Bytes)) → Database → Prop where
  | nil (db : Database) : Lives crc dir [] db [] db
  | call {op : DbOp} {acts : List Act} {db db₁ db' : Database} {r : Except Fail (Option Bytes)}
      {rs : List (Except Fail (Option Bytes))} : Ends (op.exec crc) db (r, db₁) →
      Lives crc dir acts db₁ rs db' → Lives crc dir (.call op :: acts) db (r :: rs) db'
  | shutdown {acts : List Act} {db db₁ db₂ db' : Database} {rs : List (Except Fail (Option Bytes))} :
      Database.close db = (.ok (), db₁) → Opens crc db.config (db₁.files dir) db₂ →
      Lives crc dir acts db₂ rs db' → Lives crc dir (.shutdown :: acts) db rs db'
  | crash {written : PageId → Bool} {acts : List Act} {db db₁ db' : Database}
      {rs : List (Except Fail (Option Bytes))} : Opens crc db.config (db.torn dir written) db₁ →
      Lives crc dir acts db₁ rs db' → Lives crc dir (.crash written :: acts) db rs db'

/-! ## Deciding concrete lives -/

/-- Go through the events, with the given fuel. -/
def evalLife (crc : Bytes → UInt32) (dir : Files) (fuel : Nat) : List Act → Database →
    Option (List (Except Fail (Option Bytes)) × Database)
  | [], db => some ([], db)
  | .call op :: acts, db =>
    let r := op.exec crc fuel db
    if finished r.1 then (evalLife crc dir fuel acts r.2).map fun x => (r.1 :: x.1, x.2) else none
  | .shutdown :: acts, db =>
    match Database.close db with
    | (.ok (), db₁) =>
      match Database.open crc db.config (db₁.files dir) fuel with
      | .ok db₂ => evalLife crc dir fuel acts db₂
      | .error _ => none
    | (.error _, _) => none
  | .crash written :: acts, db =>
    match Database.open crc db.config (db.torn dir written) fuel with
    | .ok db₁ => evalLife crc dir fuel acts db₁
    | .error _ => none

variable {crc : Bytes → UInt32} {fuel : Nat} {config : Config}

theorem lives_of_eval {dir : Files} : ∀ {acts : List Act}
    {db db' : Database} {rs : List (Except Fail (Option Bytes))},
    evalLife crc dir fuel acts db = some (rs, db') → Lives crc dir acts db rs db'
  | [], db, db', rs, h => by
    obtain ⟨rfl, rfl⟩ := Prod.mk.inj (Option.some.inj h)
    exact .nil _
  | .call op :: acts, db, db', rs, h => by
    rw [evalLife] at h
    split at h
    · rename_i hfin
      obtain ⟨⟨rs₁, db₁⟩, hrest, heq⟩ := Option.map_eq_some_iff.mp h
      obtain ⟨rfl, rfl⟩ := Prod.mk.inj heq
      exact .call (DbOp.ends_of_finished hfin) (lives_of_eval hrest)
    · exact absurd h (by simp)
  | .shutdown :: acts, db, db', rs, h => by
    rw [evalLife] at h
    split at h
    · rename_i db₁ hclose
      split at h
      · rename_i db₂ hopen
        exact .shutdown hclose (Opens.of_run hopen) (lives_of_eval h)
      · exact absurd h (by simp)
    · exact absurd h (by simp)
  | .crash written :: acts, db, db', rs, h => by
    rw [evalLife] at h
    split at h
    · rename_i db₁ hopen
      exact .crash (Opens.of_run hopen) (lives_of_eval h)
    · exact absurd h (by simp)

theorem Database.Reads.of_run {db : Database} {key : Bytes} {value : Option Bytes}
    (h : (Database.get fuel key db).1 = .ok value) : db.Reads key value := by
  have hfin : finished ((DbOp.get key).exec (fun _ => 0) fuel db).1 := by
    show finished (Database.get fuel key db).1
    rw [h]
    rfl
  have hends : Ends (fun n => Database.get n key) db (Database.get fuel key db) :=
    DbOp.ends_of_finished hfin
  have hrun : Database.get fuel key db = (.ok value, (Database.get fuel key db).2) := Prod.ext h rfl
  rw [hrun] at hends
  exact ⟨_, hends⟩

/-- Open a new directory, go through the events, and look at the results and the database. -/
def checkLife (crc : Bytes → UInt32) (config : Config) (fuel : Nat) (acts : List Act)
    (P : List (Except Fail (Option Bytes)) → Database → Bool) : Bool :=
  match Database.open crc config Files.empty fuel with
  | .ok db =>
    match evalLife crc Files.empty fuel acts db with
    | some x => P x.1 x.2
    | none => false
  | .error _ => false

theorem lives_of_check {acts : List Act} {P : List (Except Fail (Option Bytes)) → Database → Bool}
    (h : checkLife crc config fuel acts P) :
    ∃ db rs db', Opens crc config Files.empty db ∧ Lives crc Files.empty acts db rs db' ∧
      P rs db' := by
  unfold checkLife at h
  split at h
  · rename_i db hopen
    split at h
    · rename_i x hlife
      exact ⟨db, x.1, x.2, Opens.of_run hopen, lives_of_eval hlife, h⟩
    · exact absurd h (by simp)
  · exact absurd h (by simp)

end MagnumDB
