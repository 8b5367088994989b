import MagnumDB.Wal.LogProof

/-!
# `recover` is replay

The reader keeps a hash map of open transactions. `Recovery.Tracks` says what it
holds after some events: for every transaction the operations that wait, and in
`committed` the replay of the events. One record keeps this, so a log does.
-/

namespace MagnumDB.WriteAheadLog

open TxLog Framing List

variable {crc : Bytes → UInt32}

/-- The variables of the loop stand for the events. -/
structure Recovery.Tracks (st : Recovery) (es : List Record) : Prop where
  committed : st.committed = replay 0 es
  active : ∀ tx, tx ≠ 0 → (st.active tx).getD [] = pending es tx
  zero : st.active 0 = none

namespace Recovery

theorem init_tracks : Recovery.init.Tracks [] := ⟨rfl, fun _ _ => rfl, rfl⟩

variable {st : Recovery} {es : List Record}

theorem seen_tracks (h : st.Tracks es) (lsn : UInt64) : (st.seen lsn).Tracks es := by
  unfold seen
  split
  · exact ⟨h.committed, h.active, h.zero⟩
  · exact h

theorem replay_snoc (es : List Record) (r : Record) :
    replay 0 (es ++ [r]) = replay 0 es ++ emits 0 es r := by
  rw [replay_append]
  simp [replayFrom]

theorem begin_tracks (h : st.Tracks es) (tx : UInt64) :
    (st.begin tx).Tracks (es ++ [.begin tx]) := by
  have hpos : 0 < tx ↔ tx ≠ 0 := UInt64.pos_iff_ne_zero
  have hc : replay 0 (es ++ [.begin tx]) = replay 0 es := by
    rw [replay_snoc]
    exact append_nil _
  by_cases htx : tx = 0
  · have hst : st.begin tx = st := by
      rw [Recovery.begin, if_neg (by rw [hpos]; exact fun hne => hne htx)]
    rw [hst]
    refine ⟨h.committed.trans hc.symm, fun t ht => ?_, h.zero⟩
    have hne : tx ≠ t := fun he => ht (he ▸ htx)
    rw [pending_snoc, h.active t ht]
    simp [Event.buffer, hne]
  · have hst : st.begin tx = { st with active := Function.update st.active tx (some []) } := by
      rw [Recovery.begin, if_pos (hpos.mpr htx)]
    rw [hst]
    refine ⟨h.committed.trans hc.symm, fun t ht => ?_, ?_⟩
    · rw [pending_snoc]
      by_cases hne : t = tx
      · subst hne
        simp [Event.buffer]
      · have hne' : tx ≠ t := fun he => hne he.symm
        simp [Event.buffer, hne, hne', h.active t ht]
    · have h0 : (0 : UInt64) ≠ tx := fun he => htx he.symm
      simp [h0, h.zero]

theorem remove_active (h : st.Tracks es) {r : Record} {tx : UInt64}
    (hr : r = .commit tx ∨ r = .rollback tx) :
    (∀ t, t ≠ 0 → ((st.remove tx).active t).getD [] = pending (es ++ [r]) t) ∧
      (st.remove tx).active 0 = none := by
  have hbuf : ∀ t, r.buffer t (pending es t) = if tx = t then [] else pending es t := by
    intro t
    rcases hr with rfl | rfl <;> rfl
  constructor
  · intro t ht
    rw [pending_snoc, hbuf]
    by_cases hne : t = tx
    · subst hne
      simp [remove]
    · have hne' : tx ≠ t := fun he => hne he.symm
      simp [remove, hne, hne', h.active t ht]
  · by_cases h0 : (0 : UInt64) = tx
    · simp [remove, h0]
    · simp [remove, h0, h.zero]

theorem rollback_tracks (h : st.Tracks es) (tx : UInt64) :
    (st.remove tx).Tracks (es ++ [.rollback tx]) := by
  obtain ⟨hactive, hzero⟩ := remove_active h (Or.inr rfl)
  refine ⟨?_, hactive, hzero⟩
  rw [replay_snoc]
  exact h.committed.trans (append_nil _).symm

theorem commit_tracks (h : st.Tracks es) (tx : UInt64) :
    (st.commit tx).Tracks (es ++ [.commit tx]) := by
  obtain ⟨hactive, hzero⟩ := remove_active h (Or.inl rfl)
  have hemit : emits 0 es (.commit tx) = (st.active tx).getD [] := by
    by_cases htx : tx = 0
    · rw [htx, h.zero]
      rfl
    · rw [h.active tx htx]
      simp [emits, htx]
  have hcommitted : replay 0 (es ++ [.commit tx]) = st.committed ++ (st.active tx).getD [] := by
    rw [replay_snoc, hemit, h.committed]
  unfold commit
  cases hs : st.active tx with
  | some entries =>
    rw [hs] at hcommitted
    exact ⟨hcommitted.symm, hactive, hzero⟩
  | none =>
    rw [hs] at hcommitted
    exact ⟨(append_nil _).symm.trans hcommitted.symm, hactive, hzero⟩

theorem push_tracks (h : st.Tracks es) (tx : UInt64) (entry : WalEntry) :
    (st.push tx entry).Tracks (es ++ [.op tx entry]) := by
  by_cases htx : tx = 0
  · subst htx
    refine ⟨?_, fun t ht => ?_, ?_⟩
    · simp [push, replay_snoc, emits, h.committed]
    · have hne : (0 : UInt64) ≠ t := fun he => ht he.symm
      rw [pending_snoc]
      simp [push, Event.buffer, hne, h.active t ht]
    · simp [push, h.zero]
  · refine ⟨?_, fun t ht => ?_, ?_⟩
    · simp [push, htx, replay_snoc, emits, h.committed]
    · rw [pending_snoc]
      by_cases hne : t = tx
      · subst hne
        simp [push, ht, Event.buffer, h.active t ht]
      · have hne' : tx ≠ t := fun he => hne he.symm
        simp [push, htx, hne, hne', Event.buffer, h.active t ht]
    · have h0 : (0 : UInt64) ≠ tx := fun he => htx he.symm
      simp [push, htx, h0, h.zero]

theorem take_tracks (h : st.Tracks es) (r : Record) : (st.take r).Tracks (es ++ [r]) := by
  cases r with
  | op tx entry => exact push_tracks h tx entry
  | begin tx => exact begin_tracks h tx
  | commit tx => exact commit_tracks h tx
  | rollback tx => exact rollback_tracks h tx

/-- A record below the checkpoint: an operation leaves nothing, and since no
operation has been kept, there is nothing for a COMMIT to emit. -/
theorem skip_tracks (h : st.Tracks es) (hes : ∀ e ∈ es, e.isMarker) (r : Record) :
    (st.skip r).Tracks (if r.isMarker = false then es else es ++ [r]) := by
  cases r with
  | op tx entry => exact h
  | begin tx => exact begin_tracks h tx
  | rollback tx => exact rollback_tracks h tx
  | commit tx =>
    obtain ⟨hactive, hzero⟩ := remove_active h (Or.inl rfl)
    refine ⟨?_, hactive, hzero⟩
    have hemit : emits 0 es (.commit tx) = [] := by
      simp [emits, pending_of_markers hes]
    show st.committed = replay 0 (es ++ [.commit tx])
    rw [replay_snoc, hemit, append_nil, h.committed]

/-- The variables after the record that follows `n` others. -/
def next (c : UInt64) (n : Nat) (st : Recovery) (r : Record) : Recovery :=
  if UInt64.ofNat (n + 1) ≤ c then (st.seen (UInt64.ofNat (n + 1))).skip r
  else (st.seen (UInt64.ofNat (n + 1))).take r

/-- The variables after some records. -/
def run (c : UInt64) : Nat → Recovery → List Record → Recovery
  | _, st, [] => st
  | n, st, r :: rs => run c (n + 1) (next c n st r) rs

theorem take_maxLsn (st : Recovery) (r : Record) : (st.take r).maxLsn = st.maxLsn := by
  cases r with
  | op tx entry =>
    simp only [Recovery.take, push]
    split <;> rfl
  | begin tx =>
    simp only [Recovery.take, Recovery.begin]
    split <;> rfl
  | commit tx =>
    simp only [Recovery.take, commit]
    split <;> rfl
  | rollback tx => rfl

theorem skip_maxLsn (st : Recovery) (r : Record) : (st.skip r).maxLsn = st.maxLsn := by
  cases r with
  | op tx entry => rfl
  | begin tx => exact take_maxLsn st (.begin tx)
  | commit tx => rfl
  | rollback tx => rfl

/-- The numbers of a log increase, so each record's is the largest so far. -/
theorem seen_maxLsn {n : Nat} (h : st.maxLsn = UInt64.ofNat n) (hn : n + 1 < 2 ^ 64) :
    (st.seen (UInt64.ofNat (n + 1))).maxLsn = UInt64.ofNat (n + 1) := by
  have hlt : st.maxLsn < UInt64.ofNat (n + 1) := by
    rw [h, UInt64.lt_iff_toNat_lt, UInt64.toNat_ofNat', UInt64.toNat_ofNat',
      Nat.mod_eq_of_lt hn, Nat.mod_eq_of_lt (by omega)]
    omega
  rw [seen, if_pos hlt]

theorem next_maxLsn {n : Nat} (h : st.maxLsn = UInt64.ofNat n) (hn : n + 1 < 2 ^ 64) (c : UInt64)
    (r : Record) : (next c n st r).maxLsn = UInt64.ofNat (n + 1) := by
  unfold next
  split
  · rw [skip_maxLsn, seen_maxLsn h hn]
  · rw [take_maxLsn, seen_maxLsn h hn]

theorem next_tracks {rs : List Record} {c : UInt64} (h : st.Tracks (skipTo c.toNat 0 rs))
    (hn : rs.length + 1 < 2 ^ 64) (r : Record) :
    (next c rs.length st r).Tracks (skipTo c.toNat 0 (rs ++ [r])) := by
  have hle : UInt64.ofNat (rs.length + 1) ≤ c ↔ rs.length < c.toNat := by
    rw [UInt64.le_iff_toNat_le, UInt64.toNat_ofNat', Nat.mod_eq_of_lt hn]
    omega
  have hseen := seen_tracks h (UInt64.ofNat (rs.length + 1))
  rw [skipTo_append, Nat.zero_add]
  unfold next
  by_cases hc : rs.length < c.toNat
  · rw [if_pos (hle.mpr hc)]
    have hmark : ∀ e ∈ skipTo c.toNat 0 rs, e.isMarker := skipTo_markers (by omega)
    have hskip := skip_tracks hseen hmark r
    cases hr : r.isMarker with
    | true => simpa [skipTo, hr] using hskip
    | false => simpa [skipTo, hr, hc] using hskip
  · have hlast : skipTo c.toNat rs.length [r] = [r] := skipTo_of_le (by omega) [r]
    rw [if_neg (fun h => hc (hle.mp h)), hlast]
    exact take_tracks hseen r

theorem run_tracks {c : UInt64} (rs : List Record) :
    ∀ (past : List Record) {st : Recovery}, st.Tracks (skipTo c.toNat 0 past) →
      st.maxLsn = UInt64.ofNat past.length → past.length + rs.length < 2 ^ 64 →
      (run c past.length st rs).Tracks (skipTo c.toNat 0 (past ++ rs)) ∧
        (run c past.length st rs).maxLsn = UInt64.ofNat (past ++ rs).length := by
  induction rs with
  | nil =>
    intro past st h hmax _
    rw [append_nil]
    exact ⟨h, hmax⟩
  | cons r rs ih =>
    intro past st h hmax hlen
    simp only [length_cons] at hlen
    have hstep := next_tracks h (by omega) r
    have hlsn := next_maxLsn hmax (by omega) c r
    have hpast : (past ++ [r]).length = past.length + 1 := by simp
    rw [← hpast] at hlsn
    have hrest := ih (past ++ [r]) hstep hlsn (by omega)
    rw [hpast, append_assoc] at hrest
    exact hrest

end Recovery

/-! ## The loop -/

variable {rest : Bytes}

/-- Where nothing is read the loop stops. -/
theorem recoverLoop_stop {c : UInt64} (h : readFrame crc rest = none) (fuel : Nat) (st : Recovery) :
    recoverLoop crc c fuel st rest = st := by
  cases fuel with
  | zero => rfl
  | succ fuel => rw [recoverLoop, h]

/-- The loop goes through the records one by one. -/
theorem recoverLoop_records {c : UInt64} (hrest : readFrame crc rest = none) (rs : List Record) :
    ∀ {n fuel : Nat} {st : Recovery}, (∀ r ∈ rs, r.Fits) → rs.length ≤ fuel →
      recoverLoop crc c fuel st (encodeFrom (recordBytes crc) n rs ++ rest) = Recovery.run c n st rs := by
  induction rs with
  | nil =>
    intro n fuel st _ _
    exact recoverLoop_stop hrest fuel st
  | cons r rs ih =>
    intro n fuel st hfit hfuel
    cases fuel with
    | zero => exact absurd hfuel (by simp)
    | succ fuel =>
      have hr : r.Fits := hfit r mem_cons_self
      simp only [encodeFrom, append_assoc, recoverLoop, readFrame_record hr,
        Recovery.frame_record hr]
      exact ih (fun x hx => hfit x (mem_cons_of_mem _ hx)) (by simpa using hfuel)

theorem length_le_encodeFrom (n : Nat) (rs : List Record) :
    rs.length ≤ (encodeFrom (recordBytes crc) n rs).length := by
  induction rs generalizing n with
  | nil => simp [encodeFrom]
  | cons r rs ih =>
    have := ih (n + 1)
    simp only [encodeFrom, length_append, length_cons, recordBytes_length]
    omega

/-- **`recover` of whole records followed by something unreadable is the replay of
the records**, the operations up to the checkpoint left out. -/
theorem recover_records {rs : List Record} (hfit : ∀ r ∈ rs, r.Fits) (hlen : rs.length < 2 ^ 64)
    (hrest : readFrame crc rest = none) (c lsn : UInt64) :
    recover crc c ⟨fileOf crc rs ++ rest, lsn⟩
      = (replay 0 (skipTo c.toNat 0 rs), ⟨fileOf crc rs ++ rest, UInt64.ofNat rs.length⟩) := by
  have hfuel : rs.length ≤ (fileOf crc rs ++ rest).length := by
    have : rs.length ≤ (fileOf crc rs).length := length_le_encodeFrom 0 rs
    rw [length_append]
    omega
  have hloop : recoverLoop crc c (fileOf crc rs ++ rest).length .init (fileOf crc rs ++ rest)
      = Recovery.run c 0 .init rs := recoverLoop_records hrest rs hfit hfuel
  have hrun : (Recovery.run c 0 .init rs).Tracks (skipTo c.toNat 0 rs) ∧
      (Recovery.run c 0 .init rs).maxLsn = UInt64.ofNat rs.length :=
    Recovery.run_tracks rs [] Recovery.init_tracks rfl (by simpa using hlen)
  unfold recover
  dsimp only
  rw [hloop, hrun.1.committed, hrun.2]

/-! ## Logs that begin alike -/

/-- A record drops nothing of what was committed, whether the loop goes on or breaks. -/
theorem Recovery.committed_frame (c : UInt64) (st : Recovery) (f : Frame) :
    st.committed <+: (st.frame c f).run.committed := by
  have hseen : (st.seen f.lsn).committed = st.committed := by
    unfold seen
    split <;> rfl
  have hbegin (s : Recovery) : (s.begin f.txId).committed = s.committed := by
    unfold begin
    split <;> rfl
  have hcommit (s : Recovery) : s.committed <+: (s.commit f.txId).committed := by
    unfold commit
    split
    exacts [prefix_append .., prefix_rfl]
  have hpush (s : Recovery) (e : WalEntry) : s.committed <+: (s.push f.txId e).committed := by
    unfold push
    split
    exacts [prefix_append .., prefix_rfl]
  rw [← hseen]
  unfold frame
  dsimp only
  split
  · split
    exacts [(hbegin _).symm ▸ prefix_rfl, prefix_rfl, prefix_rfl, prefix_rfl]
  · split
    · split
      exacts [hpush .., prefix_rfl]
    · split
      exacts [hpush .., prefix_rfl]
    exacts [(hbegin _).symm ▸ prefix_rfl, hcommit _, prefix_rfl, prefix_rfl]

theorem committed_recoverLoop (c : UInt64) (n : Nat) : ∀ (st : Recovery) (rest : Bytes),
    st.committed <+: (recoverLoop crc c n st rest).committed := by
  induction n with
  | zero => exact fun _ _ => prefix_rfl
  | succ n ih =>
    intro st rest
    rw [recoverLoop]
    split
    · exact prefix_rfl
    · rename_i f rest' _
      have hframe := Recovery.committed_frame c st f
      split
      all_goals
        rename_i next hnext
        rw [hnext] at hframe
      · exact hframe
      · exact hframe.trans (ih next rest')

/-- The loop goes through the records of the shorter file first. -/
theorem recoverLoop_append (c : UInt64) (more : Bytes) {n : Nat} :
    ∀ {m : Nat} (st : Recovery) (rest : Bytes), n ≤ m → (recoverLoop crc c n st rest).committed
      <+: (recoverLoop crc c m st (rest ++ more)).committed := by
  induction n with
  | zero => exact fun st rest _ => committed_recoverLoop c _ st (rest ++ more)
  | succ n ih =>
    intro m st rest hm
    cases hread : readFrame crc rest with
    | none =>
      rw [recoverLoop_stop hread]
      exact committed_recoverLoop c m st (rest ++ more)
    | some found =>
      obtain ⟨m, rfl⟩ : ∃ k, m = k + 1 := ⟨m - 1, by omega⟩
      simp only [recoverLoop, hread, readFrame_append hread more]
      split
      · exact prefix_rfl
      · exact ih _ _ (by omega)

end MagnumDB.WriteAheadLog
