import MagnumDB.Wal.RecoverProof

/-!
# Recovery of a log that was cut

Wherever a log is cut, `recover` returns the replay of the records before the cut.
What is left of the record at the cut stays in the file, and new records are
written behind it, where the reader does not get.
-/

namespace MagnumDB

open TxLog Framing WriteAheadLog

/-- **Torn-log recovery.** The file of any calls, cut after `k` bytes: `j` is the
largest number of calls whose file fits in `k` bytes, `recover` returns what these
`j` records make permanent, and the next record gets the number `j + 1`. -/
theorem recover_truncated (crc : Bytes → UInt32) (rs : List Record) (hfit : ∀ r ∈ rs, r.Fits)
    (hlen : rs.length < 2 ^ 64) :
    ∃ w, appendAll crc rs («open» []) = (.ok (), w) ∧ ∀ k, ∃ j,
      IsGreatest {i | i ≤ rs.length ∧
        (appendAll crc (rs.take i) («open» [])).2.file.length ≤ k} j ∧
      recover crc 0 («open» (w.file.take k))
        = (replay 0 (rs.take j), ⟨w.file.take k, UInt64.ofNat j⟩) := by
  refine ⟨_, appendAll_open rs, fun k => ?_⟩
  obtain ⟨j, torn, hwhole, htake, htorn⟩ := take_encodeFrom (recordBytes crc) rs 0 k
  refine ⟨j, ?_, ?_⟩
  · have hset : {i | i ≤ rs.length ∧ (appendAll crc (rs.take i) («open» [])).2.file.length ≤ k}
        = {i | i ≤ rs.length ∧ (encodeFrom (recordBytes crc) 0 (rs.take i)).length ≤ k} := by
      ext i
      simp only [Set.mem_ofPred_eq, appendAll_open, fileOf]
    rw [hset]
    exact hwhole
  · have hj : j ≤ rs.length := hwhole.1.1
    -- what is left of the record at the cut is not read
    have hstop : readFrame crc torn = none := by
      rcases htorn with rfl | ⟨r, hr, h⟩
      · rfl
      · exact readFrame_torn (hfit r hr) h
    have hlen' : (rs.take j).length < 2 ^ 64 := by
      rw [List.length_take]
      omega
    have hrec := recover_records (fun r hr => hfit r (List.mem_of_mem_take hr)) hlen' hstop 0 0
    have hall : skipTo (0 : UInt64).toNat 0 (rs.take j) = rs.take j :=
      skipTo_of_le (Nat.zero_le _) _
    rw [List.length_take, Nat.min_eq_left hj, hall] at hrec
    have hfile : (fileOf crc rs).take k = fileOf crc (rs.take j) ++ torn := htake
    rw [«open», hfile]
    exact hrec

/-- A transaction with one put. -/
def commitLog : List Record := [.begin 1, .op 1 (.put [107] [118]), .commit 1]

theorem recover_truncated_commitLog :
    ∃ w, appendAll crc32 commitLog («open» []) = (.ok (), w) ∧ ∀ k, ∃ j,
      IsGreatest {i | i ≤ commitLog.length ∧
        (appendAll crc32 (commitLog.take i) («open» [])).2.file.length ≤ k} j ∧
      recover crc32 0 («open» (w.file.take k))
        = (replay 0 (commitLog.take j), ⟨w.file.take k, UInt64.ofNat j⟩) :=
  recover_truncated crc32 commitLog
    (by simp [commitLog, Record.Fits, Record.payload, putPayload]) (by decide)

/-- **What is in a log cannot be taken back by what follows.** Whatever the bytes of a file are
and whatever comes behind them, what is recovered from the longer file begins with what is
recovered from the shorter one. -/
theorem recover_extends (crc : Bytes → UInt32) (c : UInt64) (file more : Bytes) :
    (recover crc c («open» file)).1 <+: (recover crc c («open» (file ++ more))).1 :=
  recoverLoop_append c more .init file (by simp [«open»])

/-! ## Logging after a recovery -/

/-- What a second recovery returns, when nothing was left behind the records. -/
theorem recover_continued {crc : Bytes → UInt32} {old new : List Record}
    (hold : ∀ r ∈ old, r.Fits) (hnew : ∀ r ∈ new, r.Fits)
    (hlen : old.length + new.length < 2 ^ 64) (c lsn : UInt64) :
    (recover crc c ⟨fileOf crc old ++ encodeFrom (recordBytes crc) old.length new, lsn⟩).1
      = replay 0 (skipTo c.toNat 0 old) ++
          replayFrom 0 (skipTo c.toNat 0 old) (skipTo (c.toNat - old.length) 0 new) := by
  have hfile : fileOf crc old ++ encodeFrom (recordBytes crc) old.length new
      = fileOf crc (old ++ new) ++ [] := by
    rw [fileOf, fileOf, encodeFrom_append, Nat.zero_add, List.append_nil]
  have hfit : ∀ r ∈ old ++ new, r.Fits := by
    intro r hr
    rcases List.mem_append.mp hr with hr | hr
    · exact hold r hr
    · exact hnew r hr
  rw [hfile, recover_records hfit (by rw [List.length_append]; exact hlen) rfl, skipTo_append,
    Nat.zero_add, replay_append]
  have hshift : skipTo c.toNat old.length new = skipTo (c.toNat - old.length) 0 new :=
    skipTo_shift c.toNat old.length new
  rw [hshift]

/-- **Logging after a recovery.** A log of complete records, then a tail at which
the reader stops, also once the new records follow it. The second recovery returns
the entries of the first and then those of the new records exactly when

* there is no tail, no commit among the new records completes a transaction that
  the old ones leave open, and the checkpoint does not reach into the new records
  (or hides nothing of them); or
* there is a tail, but nothing new was made permanent. -/
theorem recover_append_iff (crc : Bytes → UInt32) (old new : List Record) (tail : Bytes)
    (c : UInt64) (hold : ∀ r ∈ old, r.Fits) (hnew : ∀ r ∈ new, r.Fits)
    (hlen : old.length + new.length < 2 ^ 64)
    (htail : tail = [] ∨
      readFrame crc (tail ++ encodeFrom (recordBytes crc) old.length new) = none) :
    ∃ w, appendAll crc new (recover crc c («open» (fileOf crc old ++ tail))).2 = (.ok (), w) ∧
      ((recover crc c w).1
          = (recover crc c («open» (fileOf crc old ++ tail))).1 ++ replay 0 new ↔
        (tail = [] ∧ ¬ Carries 0 (skipTo c.toNat 0 old) new ∧
          replay 0 (skipTo (c.toNat - old.length) 0 new) = replay 0 new) ∨
        (tail ≠ [] ∧ replay 0 new = [])) := by
  have hstop : readFrame crc tail = none := by
    rcases htail with rfl | h
    · rfl
    · exact readFrame_of_append h
  have hfirst := recover_records hold (by omega) hstop c 0
  have happend : appendAll crc new ⟨fileOf crc old ++ tail, UInt64.ofNat old.length⟩ = _ :=
    appendAll_eq rfl
  rw [«open», hfirst]
  refine ⟨_, happend, ?_⟩
  by_cases ht : tail = []
  · subst ht
    simp only [List.append_nil, ne_eq, not_true_eq_false, false_and, or_false, true_and]
    rw [recover_continued hold hnew hlen, List.append_cancel_left_eq]
    rcases Nat.le_total c.toNat old.length with hc | hc
    · -- nothing of the new records is below the checkpoint
      have hz : c.toNat - old.length = 0 := by omega
      rw [hz, skipTo_of_le (Nat.le_refl 0), and_iff_left rfl]
      exact replayFrom_eq_replay _ _
    · -- everything of the old records is, so they leave nothing open
      have hopen : ∀ tx, pending (skipTo c.toNat 0 old) tx = [] :=
        pending_of_markers (skipTo_markers (by omega))
      have hnone : ∀ es, ¬ Carries 0 (skipTo c.toNat 0 old) es := by
        intro es hcarry
        obtain ⟨_, tx, _, _, _, _, hp⟩ := hcarry
        exact hp (hopen tx)
      rw [(replayFrom_eq_replay _ _).mpr (hnone _), and_iff_right (hnone new)]
  · have hrest : readFrame crc (tail ++ encodeFrom (recordBytes crc) old.length new) = none :=
      htail.resolve_left ht
    rw [List.append_assoc, recover_records hold (by omega) hrest]
    simp [ht]

/-- The log of the next results: one put. -/
def putLog (key : UInt8) : List Record := [.op 0 (.put [key] [key])]

/-- One put, a recovery, a committed transaction, a recovery. -/
theorem recover_append_iff_commitLog :
    ∃ w, appendAll crc32 commitLog
        (recover crc32 0 («open» (fileOf crc32 (putLog 97) ++ []))).2 = (.ok (), w) ∧
      (recover crc32 0 w).1 = (recover crc32 0 («open» (fileOf crc32 (putLog 97) ++ []))).1 ++
        replay 0 commitLog := by
  obtain ⟨w, hw, hiff⟩ := recover_append_iff crc32 (putLog 97) commitLog [] 0
    (by simp [putLog, Record.Fits, Record.payload, putPayload])
    (by simp [commitLog, Record.Fits, Record.payload, putPayload]) (by decide) (Or.inl rfl)
  refine ⟨w, hw, hiff.mpr (Or.inl ⟨rfl, ?_, ?_⟩)⟩
  · exact (replayFrom_eq_replay _ _).mp (by decide)
  · decide

set_option maxRecDepth 20000 in
/-- One byte of a record that was not finished stays in the file after the first
recovery. The put that is logged behind it is lost. -/
theorem torn_byte_hides_put :
    (recover crc32 0 («open» (fileOf crc32 (putLog 97) ++ [0]))).1 = [.put [97] [97]] ∧
      replay 0 (putLog 98) = [.put [98] [98]] ∧
      (recover crc32 0 (appendAll crc32 (putLog 98)
        (recover crc32 0 («open» (fileOf crc32 (putLog 97) ++ [0]))).2).2).1
        = [.put [97] [97]] := by
  decide +kernel

end MagnumDB
