import MagnumDB.Lib.Framing
import MagnumDB.Lib.TxSkip
import MagnumDB.Storage.Page

/-!
# The write-ahead log

`src/wal/mod.rs`. A record is a 21-byte header, a payload and the CRC-32 of both.
The checksum function is a parameter here, an arbitrary function of the bytes;
`crc32` is the one that `crc32fast` computes.
-/

namespace MagnumDB

open ByteString TxLog

/-- `WalEntry`: an operation to replay. -/
inductive WalEntry where
  | put (key value : Bytes)
  | delete (key : Bytes)
  deriving DecidableEq

/-- `WalOpType`. -/
inductive WalOpType where
  | put
  | delete
  | begin
  | commit
  | rollback
  deriving DecidableEq

/-- `op_type as u8`. -/
def WalOpType.code : WalOpType → UInt8
  | .put => 1
  | .delete => 2
  | .begin => 3
  | .commit => 4
  | .rollback => 5

/-- One byte of the CRC-32 of `crc32fast`, with the reflected polynomial. -/
def crc32Byte (c : UInt32) (b : UInt8) : UInt32 :=
  (List.range 8).foldl
    (fun c _ => if c &&& 1 = 1 then (c >>> 1) ^^^ 0xEDB88320 else c >>> 1) (c ^^^ b.toUInt32)

/-- `Hasher::new`, `update`, `finalize`. -/
def crc32 (bs : Bytes) : UInt32 := bs.foldl crc32Byte 0xFFFFFFFF ^^^ 0xFFFFFFFF

-- the check value of the CRC-32 catalogue, for the digits 1 to 9
example : crc32 [49, 50, 51, 52, 53, 54, 55, 56, 57] = 0xCBF43926 := by decide +kernel

/-- `WriteAheadLog`: what the file holds, and the number of the last record. -/
structure WriteAheadLog where
  file : Bytes
  lsn : UInt64
  deriving DecidableEq

namespace WriteAheadLog

/-- `WriteAheadLog::open`: the file is opened as it is, or created empty. -/
def «open» (file : Bytes) : WriteAheadLog := ⟨file, 0⟩

/-- `current_lsn`. -/
def currentLsn (w : WriteAheadLog) : UInt64 := w.lsn

/-! ## Writing -/

variable (crc : Bytes → UInt32)

/-- The header of a record: `[LSN: 8B][TxID: 8B][Type: 1B][Len: 4B]`. -/
def header (lsn txId : UInt64) (opType : WalOpType) (payload : Bytes) : Bytes :=
  u64ToLeBytes lsn ++ (u64ToLeBytes txId ++ ([opType.code] ++
    u32ToLeBytes (UInt32.ofNat payload.length)))

/-- `write_record`. The file is opened for appending. The addition wraps at `2 ^ 64`, as in a
release build. -/
def writeRecord (txId : UInt64) (opType : WalOpType) (payload : Bytes) :
    Prog Fail WriteAheadLog UInt64 := do
  let w ← Prog.get
  let lsn := w.lsn + 1
  let head := header lsn txId opType payload
  let sum := crc (head ++ payload)
  Prog.modify fun w => ⟨w.file ++ (head ++ (payload ++ u32ToLeBytes sum)), lsn⟩
  return lsn

/-- The payload of a PUT: `[KeyLen: 4B][Key][ValLen: 4B][Val]`. -/
def putPayload (key value : Bytes) : Bytes :=
  u32ToLeBytes (UInt32.ofNat key.length) ++ (key ++
    (u32ToLeBytes (UInt32.ofNat value.length) ++ value))

/-- The payload of a DELETE: `[KeyLen: 4B][Key]`. -/
def deletePayload (key : Bytes) : Bytes := u32ToLeBytes (UInt32.ofNat key.length) ++ key

/-- `append_tx_put`. -/
def appendTxPut (txId : UInt64) (key value : Bytes) : Prog Fail WriteAheadLog UInt64 :=
  writeRecord crc txId .put (putPayload key value)

/-- `append_put`. -/
def appendPut (key value : Bytes) : Prog Fail WriteAheadLog UInt64 := appendTxPut crc 0 key value

/-- `append_tx_delete`. -/
def appendTxDelete (txId : UInt64) (key : Bytes) : Prog Fail WriteAheadLog UInt64 :=
  writeRecord crc txId .delete (deletePayload key)

/-- `append_delete`. -/
def appendDelete (key : Bytes) : Prog Fail WriteAheadLog UInt64 := appendTxDelete crc 0 key

/-- `append_begin`. -/
def appendBegin (txId : UInt64) : Prog Fail WriteAheadLog UInt64 := writeRecord crc txId .begin []

/-- `append_commit`. -/
def appendCommit (txId : UInt64) : Prog Fail WriteAheadLog UInt64 := writeRecord crc txId .commit []

/-- `append_rollback`. -/
def appendRollback (txId : UInt64) : Prog Fail WriteAheadLog UInt64 :=
  writeRecord crc txId .rollback []

/-- `checkpoint`: the file is cut to nothing and the numbers begin over. -/
def checkpoint : Prog Fail WriteAheadLog Unit := Prog.modify fun _ => ⟨[], 0⟩

/-! ## Reading -/

/-- A record as it is read, before its payload is looked at. -/
structure Frame where
  lsn : UInt64
  txId : UInt64
  opCode : UInt8
  payload : Bytes

/-- `read_exact`: the next `n` bytes and what follows them, or an error. -/
def readExact (n : Nat) (rest : Bytes) : Option (Bytes × Bytes) :=
  if rest.length < n then none else some (rest.take n, rest.drop n)

/-- The first half of the loop of `recover`: read a record and check its sum. -/
def readFrame (rest : Bytes) : Option (Frame × Bytes) := do
  let (head, rest) ← readExact 21 rest
  let lsn := u64FromLeBytes (slice head 0 8)
  let txId := u64FromLeBytes (slice head 8 16)
  let opCode := (slice head 16 17).headD 0
  let payloadLen := (u32FromLeBytes (slice head 17 21)).toNat
  let (payload, rest) ← readExact payloadLen rest
  let (crcBuf, rest) ← readExact 4 rest
  let expected := u32FromLeBytes crcBuf
  if crc (head ++ payload) ≠ expected then
    none
  else
    some (⟨lsn, txId, opCode, payload⟩, rest)

/-- The payload of a PUT, if it is long enough. -/
def decodePut (payload : Bytes) : Option WalEntry :=
  if payload.length < 8 then none else
    let klen := (u32FromLeBytes (slice payload 0 4)).toNat
    if payload.length < 4 + klen + 4 then none else
      let key := slice payload 4 (4 + klen)
      let vlenOffset := 4 + klen
      let vlen := (u32FromLeBytes (slice payload vlenOffset (vlenOffset + 4))).toNat
      if payload.length < vlenOffset + 4 + vlen then none else
        some (.put key (slice payload (vlenOffset + 4) (vlenOffset + 4 + vlen)))

/-- The payload of a DELETE, if it is long enough. -/
def decodeDelete (payload : Bytes) : Option WalEntry :=
  if payload.length < 4 then none else
    let klen := (u32FromLeBytes (slice payload 0 4)).toNat
    if payload.length < 4 + klen then none else
      some (.delete (slice payload 4 (4 + klen)))

/-- The variables of the loop of `recover`: `committed_entries`, `active_txs` and
`max_lsn`. -/
structure Recovery where
  committed : List WalEntry
  active : UInt64 → Option (List WalEntry)
  maxLsn : UInt64

/-- The variables before the first iteration. -/
def Recovery.init : Recovery := ⟨[], fun _ => none, 0⟩

namespace Recovery

/-- An entry outside a transaction is committed, any other waits. -/
def push (st : Recovery) (txId : UInt64) (entry : WalEntry) : Recovery :=
  if txId = 0 then
    { st with committed := st.committed ++ [entry] }
  else
    { st with active :=
        Function.update st.active txId (some ((st.active txId).getD [] ++ [entry])) }

/-- A BEGIN record. -/
def begin (st : Recovery) (txId : UInt64) : Recovery :=
  if 0 < txId then { st with active := Function.update st.active txId (some []) } else st

/-- `active_txs.remove`. -/
def remove (st : Recovery) (txId : UInt64) : Recovery :=
  { st with active := Function.update st.active txId none }

/-- A COMMIT record. -/
def commit (st : Recovery) (txId : UInt64) : Recovery :=
  match st.active txId with
  | some entries => { st.remove txId with committed := st.committed ++ entries }
  | none => st.remove txId

/-- The number of a record counts as soon as its sum is right. -/
def seen (st : Recovery) (lsn : UInt64) : Recovery :=
  if st.maxLsn < lsn then { st with maxLsn := lsn } else st

/-- The second half of the loop of `recover`: go on with the new variables, or
break. -/
def frame (checkpointLsn : UInt64) (st : Recovery) (f : Frame) : ForInStep Recovery :=
  let st := st.seen f.lsn
  if f.lsn ≤ checkpointLsn then
    -- already checkpointed: only the markers are followed
    match f.opCode with
    | 3 => .yield (st.begin f.txId)
    | 4 => .yield (st.remove f.txId)
    | 5 => .yield (st.remove f.txId)
    | _ => .yield st
  else
    match f.opCode with
    | 1 =>
      match decodePut f.payload with
      | some entry => .yield (st.push f.txId entry)
      | none => .done st
    | 2 =>
      match decodeDelete f.payload with
      | some entry => .yield (st.push f.txId entry)
      | none => .done st
    | 3 => .yield (st.begin f.txId)
    | 4 => .yield (st.commit f.txId)
    | 5 => .yield (st.remove f.txId)
    | _ => .done st

end Recovery

/-- The loop of `recover`. An iteration reads at least 25 bytes, so as many
iterations as the file has bytes are enough. -/
def recoverLoop (checkpointLsn : UInt64) : Nat → Recovery → Bytes → Recovery
  | 0, st, _ => st
  | fuel + 1, st, rest =>
    match readFrame crc rest with
    | none => st
    | some (f, rest) =>
      match st.frame checkpointLsn f with
      | .done st => st
      | .yield st => recoverLoop checkpointLsn fuel st rest

/-- `recover`: the entries to replay, and the log ready for appending. Nothing is
cut from the file. -/
def recover (checkpointLsn : UInt64) (w : WriteAheadLog) : List WalEntry × WriteAheadLog :=
  let st := recoverLoop crc checkpointLsn w.file.length .init w.file
  (st.committed, { w with lsn := st.maxLsn })

end WriteAheadLog

end MagnumDB
