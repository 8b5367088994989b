import MagnumDB.Wal.Log

/-!
# What the log's reader makes of a log

A record is read back as it was written, and a record cut short is not read at
all. From the two, `recover` of whole records followed by something unreadable is
the replay of the records.
-/

namespace MagnumDB

open ByteString TxLog Framing List

/-- A record of the log, as the caller sees it. -/
abbrev Record := Event UInt64 WalEntry

namespace Record

/-- The tag a record is written with. -/
def opType : Record → WalOpType
  | .op _ (.put _ _) => .put
  | .op _ (.delete _) => .delete
  | .begin _ => .begin
  | .commit _ => .commit
  | .rollback _ => .rollback

/-- The payload a record is written with. -/
def payload : Record → Bytes
  | .op _ (.put key value) => WriteAheadLog.putPayload key value
  | .op _ (.delete key) => WriteAheadLog.deletePayload key
  | .begin _ | .commit _ | .rollback _ => []

/-- The length of the payload fits its field. -/
def Fits (r : Record) : Prop := r.payload.length < 2 ^ 32

instance decidableFits (r : Record) : Decidable r.Fits :=
  inferInstanceAs (Decidable (r.payload.length < 2 ^ 32))

end Record

namespace WriteAheadLog

variable (crc : Bytes → UInt32)

/-- The call that logs a record. -/
def append : Record → Prog Fail WriteAheadLog UInt64
  | .op txId (.put key value) => appendTxPut crc txId key value
  | .op txId (.delete key) => appendTxDelete crc txId key
  | .begin txId => appendBegin crc txId
  | .commit txId => appendCommit crc txId
  | .rollback txId => appendRollback crc txId

/-- Calls in a row. -/
def appendAll : List Record → Prog Fail WriteAheadLog Unit
  | [] => pure ()
  | r :: rs => do
    let _ ← append crc r
    appendAll rs

/-- The bytes of the record after `n` others. -/
def recordBytes (n : Nat) (r : Record) : Bytes :=
  let head := header (UInt64.ofNat (n + 1)) r.tx r.opType r.payload
  head ++ (r.payload ++ u32ToLeBytes (crc (head ++ r.payload)))

/-- The file that records make, from an empty log. -/
def fileOf (rs : List Record) : Bytes := encodeFrom (recordBytes crc) 0 rs

/-! ## Writing -/

variable {crc} {n : Nat} {rest : Bytes} {r : Record}

theorem writeRecord_eq (crc : Bytes → UInt32) {w : WriteAheadLog} (hw : w.lsn = UInt64.ofNat n)
    (r : Record) :
    writeRecord crc r.tx r.opType r.payload w
      = (.ok (UInt64.ofNat (n + 1)), ⟨w.file ++ recordBytes crc n r, UInt64.ofNat (n + 1)⟩) := by
  have hnext : w.lsn + 1 = UInt64.ofNat (n + 1) := by
    rw [hw, UInt64.ofNat_add]
    rfl
  simp only [writeRecord, Prog.bind_def, Prog.bind, Prog.get, hnext, Prog.pure_def, Prog.pure,
    Prog.modify, recordBytes]

theorem append_eq (crc : Bytes → UInt32) {w : WriteAheadLog} (hw : w.lsn = UInt64.ofNat n)
    (r : Record) :
    append crc r w
      = (.ok (UInt64.ofNat (n + 1)), ⟨w.file ++ recordBytes crc n r, UInt64.ofNat (n + 1)⟩) := by
  have h := writeRecord_eq crc hw r
  cases r with
  | op tx entry => cases entry <;> exact h
  | begin tx | commit tx | rollback tx => exact h

theorem appendAll_eq {rs : List Record} :
    ∀ {w : WriteAheadLog} {n : Nat}, w.lsn = UInt64.ofNat n →
      appendAll crc rs w
        = (.ok (), ⟨w.file ++ encodeFrom (recordBytes crc) n rs, UInt64.ofNat (n + rs.length)⟩) := by
  induction rs with
  | nil =>
    intro w n hw
    simp only [appendAll, encodeFrom, append_nil, length_nil, Nat.add_zero, ← hw]
    rfl
  | cons r rs ih =>
    intro w n hw
    have hstep := append_eq crc hw r
    have hrest := ih (w := ⟨w.file ++ recordBytes crc n r, UInt64.ofNat (n + 1)⟩) rfl
    rw [appendAll, Prog.bind_of_ok hstep, hrest]
    have hlen : n + 1 + rs.length = n + (r :: rs).length := by simp only [length_cons]; omega
    simp only [encodeFrom, append_assoc, hlen]

/-- The calls that make a log return, and leave the file of their records. -/
theorem appendAll_open (rs : List Record) :
    appendAll crc rs («open» []) = (.ok (), ⟨fileOf crc rs, UInt64.ofNat rs.length⟩) := by
  have hall : appendAll crc rs («open» []) = _ := appendAll_eq (n := 0) rfl
  simpa [«open», fileOf] using hall

/-! ## Reading one record -/

theorem readExact_append (xs ys : Bytes) : readExact xs.length (xs ++ ys) = some (xs, ys) := by
  rw [readExact, if_neg (by rw [length_append]; omega), take_left, drop_left]

theorem readExact_more {a b : Bytes} (h : readExact n rest = some (a, b)) (more : Bytes) :
    readExact n (rest ++ more) = some (a, b ++ more) := by
  unfold readExact at h ⊢
  split at h
  · exact absurd h (by simp)
  · rename_i hlen
    obtain ⟨rfl, rfl⟩ := Prod.mk.inj (Option.some.inj h)
    rw [if_neg (by rw [length_append]; omega), take_append_of_le_length (by omega),
      drop_append_of_le_length (by omega)]

theorem readExact_of_lt (h : rest.length < n) : readExact n rest = none := by
  rw [readExact, if_pos h]

/-- A length that fits its field is read back. -/
theorem toNat_ofNat_length {bs : Bytes} (h : bs.length < 2 ^ 32) :
    (UInt32.ofNat bs.length).toNat = bs.length := by
  rw [UInt32.toNat_ofNat', Nat.mod_eq_of_lt h]

theorem header_length (lsn txId : UInt64) (opType : WalOpType) (payload : Bytes) :
    (header lsn txId opType payload).length = 21 := by
  simp [header]

/-- After a header, the length it names decides what is read: four bytes of the length of the
payload. -/
theorem readFrame_header_mod (lsn txId : UInt64) (opType : WalOpType) (payload rest : Bytes) :
    readFrame crc (header lsn txId opType payload ++ rest)
      = (readExact (payload.length % 2 ^ 32) rest).bind fun (body, rest) =>
          (readExact 4 rest).bind fun (sum, rest) =>
            if crc (header lsn txId opType payload ++ body) ≠ u32FromLeBytes sum then none
            else some (⟨lsn, txId, opType.code, body⟩, rest) := by
  have hread := readExact_append (header lsn txId opType payload) rest
  rw [header_length] at hread
  have hlsn : slice (header lsn txId opType payload) 0 8 = u64ToLeBytes lsn := by
    rw [header, slice_append_left _ _ (by simp)]
    simp [slice, take_of_length_le]
  have htx : slice (header lsn txId opType payload) 8 16 = u64ToLeBytes txId :=
    slice_mid (by simp) (by simp)
  have hop : slice (header lsn txId opType payload) 16 17 = [opType.code] := by
    rw [header, slice_append_right _ _ (by simp), slice_append_right _ _ (by simp)]
    rfl
  have hl : slice (header lsn txId opType payload) 17 21
      = u32ToLeBytes (UInt32.ofNat payload.length) := by
    rw [header, slice_append_right _ _ (by simp), slice_append_right _ _ (by simp),
      slice_append_right _ _ (by simp)]
    simp [slice, take_of_length_le]
  simp only [readFrame, hread, hlsn, htx, hop, hl, u64FromLeBytes_toLeBytes,
    u32FromLeBytes_toLeBytes, UInt32.toNat_ofNat', headD_cons, Option.bind_eq_bind,
    Option.bind_some]

theorem readFrame_header {lsn txId : UInt64} {opType : WalOpType} {payload : Bytes}
    (hlen : payload.length < 2 ^ 32) (rest : Bytes) :
    readFrame crc (header lsn txId opType payload ++ rest)
      = (readExact payload.length rest).bind fun (body, rest) =>
          (readExact 4 rest).bind fun (sum, rest) =>
            if crc (header lsn txId opType payload ++ body) ≠ u32FromLeBytes sum then none
            else some (⟨lsn, txId, opType.code, body⟩, rest) := by
  rw [readFrame_header_mod, Nat.mod_eq_of_lt hlen]

theorem readFrame_record (hr : r.Fits) (n : Nat) (rest : Bytes) :
    readFrame crc (recordBytes crc n r ++ rest)
      = some (⟨UInt64.ofNat (n + 1), r.tx, r.opType.code, r.payload⟩, rest) := by
  simp only [recordBytes, append_assoc]
  rw [readFrame_header hr, readExact_append, Option.bind_some]
  have hsum := readExact_append
    (u32ToLeBytes (crc (header (UInt64.ofNat (n + 1)) r.tx r.opType r.payload ++ r.payload))) rest
  rw [u32ToLeBytes_length] at hsum
  dsimp only
  rw [hsum, Option.bind_some, u32FromLeBytes_toLeBytes, if_neg (by simp)]

theorem readFrame_append {rest' : Bytes} {f : Frame} (h : readFrame crc rest = some (f, rest'))
    (more : Bytes) : readFrame crc (rest ++ more) = some (f, rest' ++ more) := by
  unfold readFrame at h ⊢
  simp only [Option.bind_eq_bind, Option.bind_eq_some_iff] at h
  obtain ⟨⟨head, r₁⟩, h₁, ⟨payload, r₂⟩, h₂, ⟨sum, r₃⟩, h₃, h⟩ := h
  dsimp only at h₂ h₃ h
  simp only [readExact_more h₁, Option.bind_eq_bind, Option.bind_some]
  rw [readExact_more h₂, Option.bind_some]
  rw [readExact_more h₃, Option.bind_some]
  split at h
  · exact absurd h (by simp)
  · rename_i hsum
    obtain ⟨rfl, rfl⟩ := Prod.mk.inj (Option.some.inj h)
    rw [if_neg hsum]

theorem readFrame_of_append {more : Bytes} (h : readFrame crc (rest ++ more) = none) :
    readFrame crc rest = none := by
  cases hr : readFrame crc rest with
  | none => rfl
  | some found =>
    rw [readFrame_append hr] at h
    exact absurd h (by simp)

theorem recordBytes_length (crc : Bytes → UInt32) (n : Nat) (r : Record) :
    (recordBytes crc n r).length = 25 + r.payload.length := by
  simp only [recordBytes, length_append, header_length, u32ToLeBytes_length]
  omega

theorem readFrame_torn (hr : r.Fits) {torn : Bytes} (h : Torn (recordBytes crc) n r torn) :
    readFrame crc torn = none := by
  obtain ⟨hpre, hne⟩ := h
  have hlt : torn.length < 25 + r.payload.length := by
    have hle := hpre.length_le
    have heq : torn.length ≠ (recordBytes crc n r).length := fun he => hne (hpre.eq_of_length he)
    rw [recordBytes_length] at hle heq
    omega
  rcases Nat.lt_or_ge torn.length 21 with hhead | hhead
  · rw [readFrame, readExact_of_lt hhead]
    rfl
  · -- the header is whole, so the length it names is the one that was written
    obtain ⟨rest, rfl⟩ : header (UInt64.ofNat (n + 1)) r.tx r.opType r.payload <+: torn := by
      refine prefix_of_prefix_length_le (prefix_append _ _) hpre ?_
      rw [header_length]
      exact hhead
    rw [length_append, header_length] at hlt
    rw [readFrame_header hr]
    rcases Nat.lt_or_ge rest.length r.payload.length with hbody | hbody
    · rw [readExact_of_lt hbody]
      rfl
    · rw [readExact, if_neg (Nat.not_lt.mpr hbody), Option.bind_some]
      dsimp only
      rw [readExact_of_lt]
      · rfl
      · rw [length_drop]
        omega

/-! ## What the reader does with a record -/

theorem decodePut_payload {key value : Bytes} (h : (putPayload key value).length < 2 ^ 32) :
    decodePut (putPayload key value) = some (.put key value) := by
  have hlen : (putPayload key value).length = 8 + key.length + value.length := by
    simp only [putPayload, length_append, u32ToLeBytes_length]
    omega
  have hk : slice (putPayload key value) 0 4 = u32ToLeBytes (UInt32.ofNat key.length) := by
    rw [putPayload, slice_append_left _ _ (by simp)]
    simp [slice, take_of_length_le]
  have hkey : slice (putPayload key value) 4 (4 + key.length) = key :=
    slice_mid (by simp) (by simp)
  have hv : slice (putPayload key value) (4 + key.length) (4 + key.length + 4)
      = u32ToLeBytes (UInt32.ofNat value.length) := by
    rw [putPayload, ← append_assoc]
    exact slice_mid (by simp) (by simp)
  have hval : slice (putPayload key value) (4 + key.length + 4) (4 + key.length + 4 + value.length)
      = value := by
    have happ : putPayload key value = (u32ToLeBytes (UInt32.ofNat key.length) ++ key ++
        u32ToLeBytes (UInt32.ofNat value.length)) ++ (value ++ []) := by
      simp [putPayload]
    rw [happ]
    exact slice_mid (by simp only [length_append, u32ToLeBytes_length])
      (by simp only [length_append, u32ToLeBytes_length])
  have hkn : (UInt32.ofNat key.length).toNat = key.length := toNat_ofNat_length (by omega)
  have hvn : (UInt32.ofNat value.length).toNat = value.length := toNat_ofNat_length (by omega)
  simp only [decodePut, hk, hkey, hv, hval, u32FromLeBytes_toLeBytes, hkn, hvn, hlen]
  rw [if_neg (by omega), if_neg (by omega), if_neg (by omega)]

theorem decodeDelete_payload {key : Bytes} (h : (deletePayload key).length < 2 ^ 32) :
    decodeDelete (deletePayload key) = some (.delete key) := by
  have hlen : (deletePayload key).length = 4 + key.length := by
    simp only [deletePayload, length_append, u32ToLeBytes_length]
  have hk : slice (deletePayload key) 0 4 = u32ToLeBytes (UInt32.ofNat key.length) := by
    rw [deletePayload, slice_append_left _ _ (by simp)]
    simp [slice, take_of_length_le]
  have hkey : slice (deletePayload key) 4 (4 + key.length) = key := by
    have happ : deletePayload key = u32ToLeBytes (UInt32.ofNat key.length) ++ (key ++ []) := by
      simp [deletePayload]
    rw [happ]
    exact slice_mid (by simp) (by simp)
  have hkn : (UInt32.ofNat key.length).toNat = key.length := toNat_ofNat_length (by omega)
  simp only [decodeDelete, hk, hkey, u32FromLeBytes_toLeBytes, hkn, hlen]
  rw [if_neg (by omega), if_neg (by omega)]

/-- The variables after a record that is not skipped. -/
def Recovery.take (st : Recovery) : Record → Recovery
  | .op txId entry => st.push txId entry
  | .begin txId => st.begin txId
  | .commit txId => st.commit txId
  | .rollback txId => st.remove txId

/-- The variables after a record below the checkpoint. -/
def Recovery.skip (st : Recovery) : Record → Recovery
  | .op _ _ => st
  | .begin txId => st.begin txId
  | .commit txId | .rollback txId => st.remove txId

/-- The reader goes on after every record that was written. -/
theorem Recovery.frame_record (hr : r.Fits) (c lsn : UInt64) (st : Recovery) :
    st.frame c ⟨lsn, r.tx, r.opType.code, r.payload⟩
      = .yield (if lsn ≤ c then (st.seen lsn).skip r else (st.seen lsn).take r) := by
  by_cases hc : lsn ≤ c
  · rw [if_pos hc, frame, if_pos hc]
    cases r with
    | op tx entry => cases entry <;> rfl
    | begin tx | commit tx | rollback tx => rfl
  · rw [if_neg hc, frame, if_neg hc]
    cases r with
    | op tx entry =>
      cases entry with
      | put key value =>
        have hput := decodePut_payload hr
        simp only [Record.opType, WalOpType.code, Record.payload, hput]
        rfl
      | delete key =>
        have hdelete := decodeDelete_payload hr
        simp only [Record.opType, WalOpType.code, Record.payload, hdelete]
        rfl
    | begin tx | commit tx | rollback tx => rfl

end WriteAheadLog

end MagnumDB
