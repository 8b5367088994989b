import MagnumDB.Wal.RecoverProof

/-!
# Recovery from a checkpoint

Records up to the checkpoint go through a branch of their own in `recover`, which
follows the markers and does not look at the operations. What the two branches make
of a log agrees with one reading of the whole log, from which the operations up to
the checkpoint are taken out.

The branches part ways on a record whose payload does not fit its length field. The
one that looks at the operation stops there; the other one goes on, in the middle of
the payload.
-/

namespace MagnumDB

open ByteString TxLog Framing WriteAheadLog List

/-- **Skipping agrees with full replay.** With the operations numbered by their LSNs, `recover` from
a checkpoint returns those of a full recovery that have larger numbers, in the same order, and leaves
the same log. -/
theorem recover_checkpoint_subsequence (crc : Bytes → UInt32) (rs : List Record) (c : UInt64)
    (hfit : ∀ r ∈ rs, r.Fits) (hlen : rs.length < 2 ^ 64) :
    ∃ w, appendAll crc rs («open» []) = (.ok (), w) ∧
      (recover crc 0 («open» w.file)).1 = (replay 0 (numberFrom 1 rs)).map Prod.snd ∧
      (recover crc c («open» w.file)).1
        = ((replay 0 (numberFrom 1 rs)).filter fun x => decide (c.toNat < x.1)).map Prod.snd ∧
      (recover crc c («open» w.file)).2 = (recover crc 0 («open» w.file)).2 := by
  have hrec : ∀ c : UInt64, recover crc c («open» (fileOf crc rs))
      = (((replay 0 (numberFrom 1 rs)).filter fun x => decide (c.toNat < x.1)).map Prod.snd,
          ⟨fileOf crc rs, UInt64.ofNat rs.length⟩) := by
    intro c
    have h : recover crc c ⟨fileOf crc rs ++ [], 0⟩ = _ := recover_records hfit hlen rfl c 0
    rw [append_nil, replay_skipTo] at h
    exact h
  refine ⟨_, appendAll_open rs, ?_, by rw [hrec c], by rw [hrec c, hrec 0]⟩
  -- a full recovery leaves out nothing, since the numbers start at 1
  have hall : replay 0 (skipTo 0 0 rs) = (replay 0 (numberFrom 1 rs)).map Prod.snd := by
    rw [skipTo_of_le (Nat.le_refl 0)]
    have hmap : replay (0 : UInt64) ((numberFrom 1 rs).map (Event.map Prod.snd)) = _ :=
      replayFrom_map Prod.snd [] _
    rw [numberFrom_map_snd] at hmap
    exact hmap
  rw [hrec 0, ← hall, replay_skipTo]
  rfl

/-- A transaction with two puts. -/
def straddlingLog : List Record :=
  [.begin 1, .op 1 (.put [97] [97]), .op 1 (.put [98] [98]), .commit 1]

/-- The checkpoint is between the two puts. -/
theorem recover_checkpoint_straddling :
    ∃ w, appendAll crc32 straddlingLog («open» []) = (.ok (), w) ∧
      (recover crc32 0 («open» w.file)).1 = [.put [97] [97], .put [98] [98]] ∧
      (recover crc32 2 («open» w.file)).1 = [.put [98] [98]] := by
  obtain ⟨w, hw, hfull, hskip, _⟩ :=
    recover_checkpoint_subsequence crc32 straddlingLog 2 (by decide) (by decide)
  exact ⟨w, hw, hfull, hskip⟩

/-! ## A payload that does not fit -/

section LongPayload

variable {crc : Bytes → UInt32} {key value : Bytes}

/-- A payload of `2 ^ 32` bytes is announced as empty. If its first four bytes, the length of the key,
happen to be the checksum of the header, the record is read as one without a payload, and the key
is read next. -/
theorem readFrame_wrapped (hlen : (putPayload key value).length = 2 ^ 32)
    (hsum : UInt32.ofNat key.length = crc (header 1 0 .put [])) (rest : Bytes) :
    ∃ rest', readFrame crc (recordBytes crc 0 (.op 0 (.put key value)) ++ rest)
      = some (⟨1, 0, 1, []⟩, key ++ rest') := by
  have hhead : header 1 0 .put (putPayload key value) = header 1 0 .put [] := by
    unfold header
    rw [hlen]
    rfl
  have hmod : (putPayload key value).length % 2 ^ 32 = 0 := by rw [hlen, Nat.mod_self]
  obtain ⟨sum, hrecord⟩ : ∃ sum, recordBytes crc 0 (.op 0 (.put key value))
      = header 1 0 .put (putPayload key value) ++ (putPayload key value ++ sum) := ⟨_, rfl⟩
  let after := u32ToLeBytes (UInt32.ofNat value.length) ++ (value ++ (sum ++ rest))
  refine ⟨after, ?_⟩
  have hbytes : recordBytes crc 0 (.op 0 (.put key value)) ++ rest
      = header 1 0 .put (putPayload key value) ++
          (u32ToLeBytes (UInt32.ofNat key.length) ++ (key ++ after)) := by
    rw [hrecord]
    simp only [putPayload, append_assoc, after]
  have hread := readExact_append (u32ToLeBytes (UInt32.ofNat key.length)) (key ++ after)
  rw [u32ToLeBytes_length] at hread
  rw [hbytes, readFrame_header_mod, hmod, hhead]
  simp only [WriteAheadLog.readExact, Nat.not_lt_zero, if_false, take_zero, drop_zero, Option.bind_some]
  rw [← WriteAheadLog.readExact, hread, Option.bind_some, u32FromLeBytes_toLeBytes, append_nil, hsum]
  simp only [ne_eq, not_true_eq_false, if_false]
  rfl

/-- Nothing is read from zero bytes if the checksum of a header of zeros is not zero. -/
theorem readFrame_zeros (hzero : crc (List.replicate 21 0) ≠ 0) (rest : Bytes) :
    readFrame crc (List.replicate 21 0 ++ (List.replicate 4 0 ++ rest)) = none := by
  have hhead := readExact_append (List.replicate 21 0) (List.replicate 4 0 ++ rest)
  have hsum := readExact_append (List.replicate 4 0) rest
  rw [length_replicate] at hhead hsum
  have hlen : (u32FromLeBytes (slice (List.replicate 21 0) 17 21)).toNat = 0 := by decide
  have hbytes : u32FromLeBytes (List.replicate 4 0) = 0 := by decide
  have hnone : WriteAheadLog.readExact 0 (List.replicate 4 0 ++ rest) = some ([], List.replicate 4 0 ++ rest) := rfl
  unfold readFrame
  simp only [hhead, Option.bind_eq_bind, Option.bind_some, hlen, hnone, hsum, hbytes, append_nil]
  rw [if_pos hzero]

/-- Without a checkpoint `recover` stops at such a record. A checkpoint makes it go on, and read what
the key holds. -/
theorem recover_wrapped {entry : WalEntry} {more : Bytes} (hr : Record.Fits (.op 0 entry))
    (hlen : (putPayload key value).length = 2 ^ 32)
    (hsum : UInt32.ofNat key.length = crc (header 1 0 .put []))
    (hkey : key = recordBytes crc 1 (.op 0 entry) ++
      (List.replicate 21 0 ++ (List.replicate 4 0 ++ more)))
    (hzero : crc (List.replicate 21 0) ≠ 0) :
    (recover crc 0 («open» (fileOf crc [.op 0 (.put key value)]))).1 = [] ∧
      (recover crc 1 («open» (fileOf crc [.op 0 (.put key value)]))).1 = [entry] := by
  obtain ⟨rest, hfirst⟩ := readFrame_wrapped hlen hsum []
  have hfirst' : readFrame crc (fileOf crc [.op 0 (.put key value)]) = _ := hfirst
  have hsecond : readFrame crc (key ++ rest) = some (⟨2, 0, (Record.opType (.op 0 entry)).code,
      Record.payload (.op 0 entry)⟩,
      List.replicate 21 0 ++ (List.replicate 4 0 ++ (more ++ rest))) := by
    rw [hkey]
    simp only [append_assoc]
    exact readFrame_record hr 1 _
  obtain ⟨fuel, hfuel⟩ : ∃ fuel, (fileOf crc [.op 0 (.put key value)]).length = fuel + 2 := by
    have hbytes : (fileOf crc [.op 0 (.put key value)]).length
        = 25 + (putPayload key value).length := by
      rw [fileOf, encodeFrom, encodeFrom, append_nil]
      exact recordBytes_length crc 0 _
    exact ⟨25 + (putPayload key value).length - 2, by omega⟩
  have hloop : ∀ c, (recover crc c («open» (fileOf crc [.op 0 (.put key value)]))).1
      = (recoverLoop crc c (fuel + 2) .init (fileOf crc [.op 0 (.put key value)])).committed := by
    intro c
    rw [← hfuel]
    rfl
  constructor
  · rw [hloop, recoverLoop, hfirst']
    rfl
  · have hskip : Recovery.init.frame 1 ⟨1, 0, 1, []⟩ = .yield (Recovery.init.seen 1) := rfl
    have htake := Recovery.frame_record hr 1 2 (Recovery.init.seen 1)
    rw [if_neg (by decide)] at htake
    rw [hloop, recoverLoop, hfirst']
    dsimp only
    rw [hskip]
    dsimp only
    rw [recoverLoop, hsecond]
    dsimp only
    have htake' : (Recovery.init.seen 1).frame 1 ⟨2, 0, (Record.opType (.op 0 entry)).code,
        Record.payload (.op 0 entry)⟩ = _ := htake
    rw [htake']
    dsimp only
    rw [recoverLoop_stop (readFrame_zeros hzero _)]
    rfl

end LongPayload

/-- The length of a key that is the checksum of the header in front of it. -/
def wrapKeyLength : Nat := (crc32 (header 1 0 .put [])).toNat

/-- A key that begins with the bytes of a record. -/
def wrapKey : Bytes :=
  recordBytes crc32 1 (.op 0 (.put [98] [98])) ++ (List.replicate 21 0 ++ (List.replicate 4 0 ++
    List.replicate (wrapKeyLength - 60) 0))

/-- A value that fills the payload up to `2 ^ 32` bytes. -/
def wrapValue : Bytes := List.replicate (2 ^ 32 - 8 - wrapKeyLength) 0

/-- **A checkpoint brings up an entry that a full recovery does not have**, after one put of a long
key. -/
theorem long_payload_breaks_skip :
    ∃ w, appendAll crc32 [.op 0 (.put wrapKey wrapValue)] («open» []) = (.ok (), w) ∧
      (recover crc32 0 («open» w.file)).1 = [] ∧
      (recover crc32 1 («open» w.file)).1 = [.put [98] [98]] := by
  have hK : wrapKeyLength = 3820908453 := by decide +kernel
  have hkeyLen : wrapKey.length = wrapKeyLength := by
    have hinner : (recordBytes crc32 1 (.op 0 (.put [98] [98]))).length = 35 :=
      recordBytes_length crc32 1 _
    unfold wrapKey
    simp only [length_append, length_replicate, hinner]
    omega
  have hlen : (putPayload wrapKey wrapValue).length = 2 ^ 32 := by
    have hvalueLen : wrapValue.length = 2 ^ 32 - 8 - wrapKeyLength := length_replicate
    simp only [putPayload, length_append, u32ToLeBytes_length, hkeyLen, hvalueLen]
    omega
  have hsum : UInt32.ofNat wrapKey.length = crc32 (header 1 0 .put []) := by
    rw [hkeyLen, wrapKeyLength, UInt32.ofNat_toNat]
  obtain ⟨hfull, hskip⟩ := recover_wrapped (by decide) hlen hsum rfl (by decide +kernel)
  exact ⟨_, appendAll_open _, hfull, hskip⟩

end MagnumDB
