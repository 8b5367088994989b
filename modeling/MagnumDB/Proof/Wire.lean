import MagnumDB.Lib.Words
import MagnumDB.Network.Wire
import MagnumDB.Proof.StartupParams
import MagnumDB.Sql.AsciiHost
import Mathlib.Logic.Equiv.List

/-!
# What a client can send

Three lengths are taken off by four without a look at them, and `parse_b_message` goes past a
terminator that may be missing; nothing else in the handler depends on what the client sends
being well formed. A Bind message is read back but for the parameters that have no bytes: they
are passed over, and those behind them move up. A salt that is not a text spoils the password.
-/

namespace MagnumDB

open Text ByteString PgWireHandler List

variable {body s : Bytes} {i j n : Nat}

theorem sliceOf_take (h : i + n ≤ body.length) :
    sliceOf body i (i + n) = .ok ((body.drop i).take n) := by
  unfold sliceOf slice
  rw [if_pos ⟨Nat.le_add_right i n, h⟩, Nat.add_sub_cancel_left]

theorem sliceOf_drop (hi : i ≤ body.length) : sliceOf body i body.length = .ok (body.drop i) := by
  have hall := sliceOf_take (n := body.length - i) (show i + (body.length - i) ≤ body.length by omega)
  rwa [show i + (body.length - i) = body.length by omega,
    take_of_length_le (by rw [length_drop])] at hall

/-! ## The start-up message -/

theorem zeroAt_le (b : Bytes) : zeroAt b ≤ b.length := by
  unfold zeroAt
  cases hfind : b.findIdx? (· == 0) with
  | none => exact Nat.zero_le _
  | some i => exact (findIdx?_eq_some_iff_findIdx_eq.mp hfind).1.le

theorem parsePairs_nil (n : Nat) (params : Params) : parsePairs n [] params = params := by
  cases n with
  | zero => rfl
  | succ n => rfl

/-- The loop takes the slices that are there, and reads the pairs. -/
theorem startupPairs_eq {fuel offset : Nat} {params : Params} (hfuel : body.length - offset < fuel)
    (hn : body.length - offset ≤ n) :
    startupPairs body fuel offset params = .ok (parsePairs n (body.drop offset) params) := by
  induction fuel generalizing offset n params with
  | zero => exact absurd hfuel (Nat.not_lt_zero _)
  | succ fuel ih =>
    rw [startupPairs]
    by_cases hend : body.length ≤ offset
    · rw [if_pos hend, drop_eq_nil_of_le hend, parsePairs_nil]
    · obtain ⟨n, rfl⟩ : ∃ m, n = m + 1 := ⟨n - 1, by omega⟩
      have hkey := zeroAt_le (body.drop offset)
      have hne : (body.drop offset).isEmpty = false := by
        rw [isEmpty_eq_false_iff, Ne, drop_eq_nil_iff]
        exact hend
      rw [length_drop] at hkey
      rw [if_neg hend, sliceOf_drop (by omega), Except.bind_of_ok rfl, parsePairs, hne, Bool.false_or]
      dsimp only
      by_cases hzero : zeroAt (body.drop offset) = 0
      · rw [if_pos hzero, if_pos (beq_iff_eq.mpr hzero)]
        rfl
      · rw [if_neg hzero, if_neg (by simpa using hzero), sliceOf_take (by omega),
          Except.bind_of_ok rfl, drop_drop, ← Nat.add_assoc]
        generalize zeroAt (body.drop offset) = k at *
        by_cases hlast : body.length ≤ offset + k + 1
        · rw [if_pos hlast, drop_eq_nil_of_le hlast]
          rfl
        · have hval := zeroAt_le (body.drop (offset + k + 1))
          rw [length_drop] at hval
          rw [if_neg hlast, sliceOf_drop (by omega), Except.bind_of_ok rfl, sliceOf_take (by omega),
            Except.bind_of_ok rfl, if_neg (by simpa using hlast), drop_drop, ← Nat.add_assoc]
          exact ih (by omega) (by omega)

theorem startup_eq (body : Bytes) : startup body = .ok (parseStartupMessage body) := by
  unfold startup parseStartupMessage pairsIn
  by_cases hlen : body.length < 4
  · rw [if_pos hlen, drop_eq_nil_of_le (by omega)]
    rfl
  · rw [if_neg hlen, startupPairs_eq (by omega) (n := (body.drop 4).length) (by rw [length_drop])]

/-! ## Bind messages -/

theorem readParams_succeeds (body : Bytes) (n offset : Nat) : ∃ params, readParams body n offset = .ok params := by
  induction n generalizing offset with
  | zero => exact ⟨[], rfl⟩
  | succ n ih =>
    rw [readParams]
    split
    · exact ih offset
    · rw [sliceOf_take (by omega), Except.bind_of_ok rfl]
      dsimp only
      split
      · rename_i hlen
        obtain ⟨params, hparams⟩ := ih (offset + 4 + beNat ((body.drop offset).take 4))
        rw [sliceOf_take (by omega), Except.bind_of_ok rfl, hparams]
        exact ⟨_, rfl⟩
      · exact ih (offset + 4)

theorem nextZero_le (hi : i ≤ body.length) : i ≤ nextZero body i ∧ nextZero body i ≤ body.length := by
  have hle := ( takeWhile_prefix (p := (· != 0)) (l := body.drop i)).length_le
  rw [length_drop] at hle
  unfold nextZero
  omega

theorem nextZero_lt_iff : nextZero body 0 < body.length ↔ 0 ∈ body := by
  have hpre := takeWhile_prefix (p := (· != 0)) (l := body)
  have hall : body.takeWhile (· != 0) = body ↔ 0 ∉ body := by
    rw [takeWhile_eq_self_iff]
    exact ⟨fun h hm => absurd (h 0 hm) (by decide), fun h x hx => bne_iff_ne.mpr fun he => h (he ▸ hx)⟩
  unfold nextZero
  rw [Nat.zero_add, drop_zero, ← not_iff_not, Nat.not_lt, ← hall]
  exact ⟨hpre.eq_of_length_le, fun h => h.symm ▸ le_rfl⟩

/-- The slices of a Bind message are inside it exactly if it has a terminator. -/
theorem parseBMessage_succeeds_iff : (∃ r, parseBMessage body = .ok r) ↔ 0 ∈ body := by
  rw [← nextZero_lt_iff]
  unfold parseBMessage
  constructor
  · rintro ⟨r, hr⟩
    obtain ⟨name, hname, -⟩ := Except.of_bind_eq_ok hr
    unfold sliceOf at hname
    split at hname
    · rename_i hin
      have := hin.1.trans hin.2
      omega
    · exact nomatch hname
  · intro hlt
    obtain ⟨hstart, hend⟩ := nextZero_le (Nat.succ_le_of_lt hlt)
    have hname : sliceOf body (nextZero body 0 + 1) (nextZero body (nextZero body 0 + 1)) = .ok _ :=
      if_pos ⟨hstart, hend⟩
    dsimp only
    rw [hname, Except.bind_of_ok rfl]
    split
    · exact ⟨_, rfl⟩
    · rw [sliceOf_take (by omega), Except.bind_of_ok rfl]
      split
      · exact ⟨_, rfl⟩
      · obtain ⟨params, hparams⟩ := readParams_succeeds body _ _
        rw [sliceOf_take (by omega), Except.bind_of_ok rfl, hparams]
        exact ⟨_, rfl⟩

/-! ## Messages -/

/-- A message whose length, if it comes, is one that a vector can have; the rest of it, if it comes
too, and what follows are as asked. -/
def Sent (s : Bytes) (P : Bytes → Bytes → Prop) : Prop :=
  s.length < 4 ∨ (4 ≤ beNat (s.take 4) ∧ beNat (s.take 4) < 2 ^ 31) ∧
    ∀ body rest, readExact (beNat (s.take 4) - 4) (s.drop 4) = some (body, rest) → P body rest

/-- Messages that can be read: every length is in range, and a Bind message has a terminator. Nothing
is asked of what comes after a Terminate message. -/
inductive Framed : Bytes → Prop
  | nil : Framed []
  | cut {tag : UInt8} {s : Bytes} (hlen : s.length < 4) : Framed (tag :: s)
  | cons {tag : UInt8} {s : Bytes} (hlen : 4 ≤ beNat (s.take 4) ∧ beNat (s.take 4) < 2 ^ 31)
      (hbind : ∀ body rest, readExact (beNat (s.take 4) - 4) (s.drop 4) = some (body, rest) →
        tag = 66 → 0 ∈ body)
      (hrest : ∀ body rest, readExact (beNat (s.take 4) - 4) (s.drop 4) = some (body, rest) →
        tag ≠ 88 → Framed rest) : Framed (tag :: s)

section Messages

variable {ε α β : Type} {P Q : Bytes → Bytes → Prop}

theorem succeeds_bind {x : Except ε α} {f : α → Except ε β} :
    (∃ b, (x >>= f) = .ok b) ↔ ∃ a, x = .ok a ∧ ∃ b, f a = .ok b := by
  constructor
  · rintro ⟨b, hb⟩
    obtain ⟨a, ha, hf⟩ := Except.of_bind_eq_ok hb
    exact ⟨a, ha, b, hf⟩
  · rintro ⟨a, ha, b, hb⟩
    exact ⟨b, by rw [Except.bind_of_ok ha, hb]⟩

theorem succeeds_bind_pure {x : Except ε α} {f : α → β} :
    (∃ b, (x >>= fun a => pure (f a)) = .ok b) ↔ ∃ a, x = .ok a :=
  succeeds_bind.trans ⟨fun ⟨a, ha, _⟩ => ⟨a, ha⟩, fun ⟨a, ha⟩ => ⟨a, ha, _, rfl⟩⟩

theorem readExact_of_lt (h : s.length < n) : readExact n s = none := if_neg (by omega)

theorem readExact_of_le (h : n ≤ s.length) : readExact n s = some (s.take n, s.drop n) := if_pos h

theorem length_of_readExact {body rest : Bytes} (h : readExact n s = some (body, rest)) :
    body.length = n ∧ rest.length ≤ s.length := by
  unfold readExact at h
  split at h
  · obtain ⟨rfl, rfl⟩ := Prod.mk.inj (Option.some.inj h)
    exact ⟨length_take_of_le ‹_›, (drop_sublist n s).length_le⟩
  · exact nomatch h

theorem succeeds_bodySize {lenBuf : Bytes} {f : Nat → Except Panic β} :
    (∃ b, (bodySize lenBuf >>= f) = .ok b) ↔
      (4 ≤ beNat lenBuf ∧ beNat lenBuf < 2 ^ 31) ∧ ∃ b, f (beNat lenBuf - 4) = .ok b := by
  unfold bodySize
  split
  · exact iff_of_false nofun fun h => by omega
  · split
    · exact iff_of_false nofun fun h => by omega
    · exact (and_iff_right (by omega)).symm

theorem forall_read_iff {x y : Bytes} :
    (∀ body rest, some (x, y) = some (body, rest) → P body rest) ↔ P x y := by
  constructor
  · exact fun h => h x y rfl
  · rintro hp body rest hr
    obtain ⟨rfl, rfl⟩ := Prod.mk.inj (Option.some.inj hr)
    exact hp

/-- What is done with a message succeeds if it can be read and what follows succeeds. -/
theorem succeeds_readMessage {f : Option (Bytes × Bytes) → Except Panic β} (hnone : ∃ b, f none = .ok b) :
    (∃ b, (readMessage s >>= f) = .ok b) ↔ Sent s fun body rest => ∃ b, f (some (body, rest)) = .ok b := by
  unfold readMessage Sent
  by_cases hlt : s.length < 4
  · rw [readExact_of_lt hlt]
    exact iff_of_true hnone (.inl hlt)
  · rw [readExact_of_le (not_lt.mp hlt), or_iff_right hlt]
    rw [bind_assoc, succeeds_bodySize, pure_bind]
    refine and_congr_right fun _ => ?_
    cases readExact (beNat (s.take 4) - 4) (s.drop 4) with
    | none => exact iff_of_true hnone nofun
    | some r => exact (forall_read_iff (P := fun body rest => ∃ b, f (some (body, rest)) = .ok b)).symm

theorem Sent.congr (h : ∀ body rest, rest.length ≤ s.length → (P body rest ↔ Q body rest)) :
    Sent s P ↔ Sent s Q := by
  refine or_congr_right (and_congr_right fun _ => forall₂_congr fun body rest => imp_congr_right fun hread => ?_)
  have hlen := (length_of_readExact hread).2
  rw [length_drop] at hlen
  exact h body rest (by omega)

theorem framed_cons_iff {tag : UInt8} :
    Framed (tag :: s) ↔ Sent s fun body rest => (tag = 66 → 0 ∈ body) ∧ (tag ≠ 88 → Framed rest) := by
  constructor
  · intro h
    cases h with
    | cut hlen => exact .inl hlen
    | cons hlen hbind hrest =>
      exact .inr ⟨hlen, fun body rest hread => ⟨hbind body rest hread, hrest body rest hread⟩⟩
  · rintro (hlen | ⟨hlen, hall⟩)
    · exact .cut hlen
    · exact .cons hlen (fun body rest hread => (hall body rest hread).1)
        fun body rest hread => (hall body rest hread).2

/-- The loop reads all messages exactly if it can. -/
theorem messages_succeeds_iff {fuel : Nat} {prepared : Params} {boundSql : Bytes} (hfuel : s.length < fuel) :
    (∃ rs, messages fuel prepared boundSql s = .ok rs) ↔ Framed s := by
  induction fuel generalizing prepared boundSql s with
  | zero => exact absurd hfuel (Nat.not_lt_zero _)
  | succ fuel ih =>
    cases s with
    | nil => exact iff_of_true ⟨[], rfl⟩ .nil
    | cons tag s =>
      rw [messages, framed_cons_iff, succeeds_readMessage ⟨[], rfl⟩]
      refine Sent.congr fun body rest hlen => ?_
      replace ih {prepared : Params} {boundSql : Bytes} :
          (∃ rs, messages fuel prepared boundSql rest = .ok rs) ↔ Framed rest :=
        ih (hlen.trans_lt (Nat.lt_of_succ_lt_succ hfuel))
      dsimp only
      by_cases hq : tag = 81
      · rw [if_pos hq, succeeds_bind_pure, ih, hq]
        simp
      by_cases hp : tag = 80
      · rw [if_neg hq, if_pos hp, ih, hp]
        simp
      by_cases hb : tag = 66
      · rw [if_neg hq, if_neg hp, if_pos hb, hb, succeeds_bind, ← parseBMessage_succeeds_iff]
        constructor
        · rintro ⟨r, hr, hthen⟩
          refine ⟨fun _ => ⟨r, hr⟩, fun _ => ?_⟩
          split at hthen
          · exact ih.mp hthen
          · exact ih.mp hthen
        · rintro ⟨hr, hrest⟩
          obtain ⟨r, hr⟩ := hr rfl
          refine ⟨r, hr, ?_⟩
          split
          · exact ih.mpr (hrest (by decide))
          · exact ih.mpr (hrest (by decide))
      by_cases he : tag = 69
      · rw [if_neg hq, if_neg hp, if_neg hb, if_pos he, succeeds_bind_pure, ih, he]
        simp
      by_cases hx : tag = 88
      · rw [if_neg hq, if_neg hp, if_neg hb, if_neg he, if_pos hx, hx]
        simp [pure, Except.pure]
      · rw [if_neg hq, if_neg hp, if_neg hb, if_neg he, if_neg hx, ih]
        simp [hb, hx]

/-! ## Connections -/

variable {h : Host} {getUser : Bytes → Option UserInfo} {salt : Bytes}

/-- What comes after the start-up message of a user: with a password its message, and if that is
right or there is none, messages that can be read. -/
def Admitted (h : Host) (getUser : Bytes → Option UserInfo) (salt payload s : Bytes) : Prop :=
  ∀ info, getUser ((parseStartupMessage payload "user").getD "postgres") = some info →
    (info.passwordHash = none → Framed s) ∧
    ∀ hash rest, info.passwordHash = some hash → s = 112 :: rest →
      Sent rest fun pBody s => passwordOk h hash salt pBody → Framed s

/-- A connection that can be read to its end. The first length may also be too small. -/
def Served (h : Host) (getUser : Bytes → Option UserInfo) (salt s : Bytes) : Prop :=
  beNat (s.take 4) < 8 ∨ Sent s fun body s =>
    if beNat (body.take 4) = 80877103 then Sent s (Admitted h getUser salt)
    else Admitted h getUser salt body s

theorem authenticated_succeeds_iff {payload : Bytes} :
    (∃ rs, authenticated h getUser salt payload s = .ok rs) ↔ Admitted h getUser salt payload s := by
  have hmessages (s : Bytes) : (∃ rs, messages (s.length + 1) (fun _ => none) [] s = .ok rs) ↔ Framed s :=
    messages_succeeds_iff (Nat.lt_succ_self _)
  unfold authenticated Admitted
  rw [startup_eq, Except.bind_of_ok rfl]
  cases getUser ((parseStartupMessage payload "user").getD "postgres") with
  | none => exact iff_of_true ⟨[], rfl⟩ nofun
  | some info =>
    simp only [Option.some.injEq, forall_eq']
    cases info.passwordHash with
    | none =>
      rw [hmessages]
      exact ⟨fun hs => ⟨fun _ => hs, nofun⟩, fun hs => hs.1 rfl⟩
    | some hash =>
      cases s with
      | nil => exact iff_of_true ⟨[], rfl⟩ ⟨nofun, nofun⟩
      | cons tag s =>
        dsimp only
        by_cases htag : tag = 112
        · rw [if_neg (not_not.mpr htag), succeeds_readMessage ⟨[], rfl⟩]
          have hasked : (∀ hash' rest, some hash = some hash' → tag :: s = 112 :: rest →
              Sent rest fun pBody s => passwordOk h hash' salt pBody → Framed s) ↔
              Sent s fun pBody s => passwordOk h hash salt pBody → Framed s := by
            simp [htag]
          rw [hasked, and_iff_right nofun]
          refine Sent.congr fun pBody s _ => ?_
          by_cases hok : passwordOk h hash salt pBody
          · rw [forall_prop_of_true hok, ← hmessages]
            simp only [if_pos hok]
          · simp only [if_neg hok]
            exact iff_of_true ⟨[], rfl⟩ fun hyes => absurd hyes hok
        · rw [if_pos htag]
          refine iff_of_true ⟨[], rfl⟩ ⟨nofun, ?_⟩
          rintro _ _ _ ⟨⟩
          exact absurd rfl htag

theorem connection_succeeds_iff :
    (∃ rs, handleConnection h getUser salt s = .ok rs) ↔ Served h getUser salt s := by
  unfold handleConnection Served
  by_cases hlt : s.length < 4
  · rw [readExact_of_lt hlt]
    exact iff_of_true ⟨[], rfl⟩ (.inr (.inl hlt))
  rw [readExact_of_le (not_lt.mp hlt)]
  dsimp only
  by_cases hsmall : beNat (s.take 4) < 8
  · rw [if_pos hsmall]
    exact iff_of_true ⟨[], rfl⟩ (.inl hsmall)
  rw [if_neg hsmall, or_iff_right hsmall, succeeds_bodySize, Sent, or_iff_right hlt]
  refine and_congr_right fun _ => ?_
  cases hread : readExact (beNat (s.take 4) - 4) (s.drop 4) with
  | none => exact iff_of_true ⟨[], rfl⟩ nofun
  | some r =>
    obtain ⟨body, rest⟩ := r
    have hcode : sliceOf body 0 4 = .ok (body.take 4) := by
      have hbody := (length_of_readExact hread).1
      exact sliceOf_take (i := 0) (n := 4) (by omega)
    rw [forall_read_iff]
    dsimp only
    rw [hcode, Except.bind_of_ok rfl]
    by_cases hssl : beNat (body.take 4) = 80877103
    · rw [if_pos hssl, if_pos hssl, succeeds_readMessage ⟨[], rfl⟩]
      exact Sent.congr fun _ _ _ => authenticated_succeeds_iff
    · rw [if_neg hssl, if_neg hssl, pure_bind]
      exact authenticated_succeeds_iff

/-- **What a client can send.** The start-up message is read whatever is in it, a Bind message exactly
if it has a terminator, and a connection exactly if its lengths and its Bind messages allow it. -/
theorem wire_input_read_iff (h : Host) :
    (∀ body, startup body = .ok (parseStartupMessage body)) ∧
    (∀ body, (∃ r, parseBMessage body = .ok r) ↔ 0 ∈ body) ∧
    ∀ getUser salt s, (∃ rs, handleConnection h getUser salt s = .ok rs) ↔ Served h getUser salt s :=
  ⟨startup_eq, fun _ => parseBMessage_succeeds_iff, fun _ _ _ => connection_succeeds_iff⟩

end Messages

/-- A user without a password sends an empty Bind message, or a query with a length of zero. -/
theorem wire_input_panics :
    handleConnection asciiHost (fun _ => some ⟨none, true⟩) [1, 2, 3, 4]
        (startupMessage [("user", "postgres")] ++ [66, 0, 0, 0, 4]) = .error .range ∧
      handleConnection asciiHost (fun _ => some ⟨none, true⟩) [1, 2, 3, 4]
        (startupMessage [("user", "postgres")] ++ [81, 0, 0, 0, 0]) = .error .underflow :=
  ⟨rfl, rfl⟩

/-! ## Bound parameters -/

/-- A parameter as it is sent: its length and its bytes, or -1 for NULL. -/
def encodeParam : Option Bytes → Bytes
  | none => beBytes 4 (2 ^ 32 - 1)
  | some p => beBytes 4 p.length ++ p

/-- A Bind message that can be sent. At its end there are the formats of the results. -/
structure BindMessage where
  portal : Bytes
  stmt : Bytes
  formats : List Nat
  params : List (Option Bytes)
  results : Bytes
  zero_portal : 0 ∉ portal
  zero_stmt : 0 ∉ stmt
  utf8_stmt : isUtf8 stmt
  formats_lt : formats.length < 2 ^ 16
  params_lt : params.length < 2 ^ 16
  utf8_params : ∀ p, some p ∈ params → isUtf8 p ∧ p.length < 2 ^ 31

def BindMessage.encode (m : BindMessage) : Bytes :=
  m.portal ++ 0 :: (m.stmt ++ 0 :: (beBytes 2 m.formats.length ++ (m.formats.flatMap (beBytes 2) ++
    (beBytes 2 m.params.length ++ (m.params.flatMap encodeParam ++ m.results)))))

section Bind

variable {a b : Bytes}

/-- What stands at a place of the body is the slice there. -/
theorem sliceOf_front (h : body.drop i = a ++ b) (hn : a.length = n) (hpos : 0 < n) :
    i + n ≤ body.length ∧ sliceOf body i (i + n) = .ok a ∧ body.drop (i + n) = b := by
  have hlen : body.length - i = n + b.length := by rw [← length_drop, h, length_append, hn]
  have hin : i + n ≤ body.length := by omega
  refine ⟨hin, ?_, ?_⟩
  · rw [sliceOf_take hin, h, take_left' hn]
  · rw [← drop_drop, h, drop_left' hn]

theorem nextZero_front (h : body.drop i = a ++ 0 :: b) (ha : 0 ∉ a) :
    nextZero body i = i + a.length ∧ i + a.length < body.length ∧ body.drop (i + a.length + 1) = b := by
  have hne : ∀ x ∈ a, (x != 0) = true := fun x hx => bne_iff_ne.mpr fun he => ha (he ▸ hx)
  have hlen : body.length - i = a.length + (b.length + 1) := by rw [← length_drop, h, length_append, length_cons]
  refine ⟨?_, by omega, ?_⟩
  · rw [nextZero, h, takeWhile_append_of_pos hne]
    simp
  · rw [Nat.add_assoc, ← drop_drop, h, drop_append]
    simp

/-- The parameters with bytes are read in order, and the others are passed over. -/
theorem readParams_encode {params : List (Option Bytes)}
    (hparams : ∀ p, some p ∈ params → isUtf8 p ∧ p.length < 2 ^ 31)
    (h : body.drop i = params.flatMap encodeParam ++ b) :
    readParams body params.length i = .ok (params.filterMap (·.filter (· ≠ []))) := by
  induction params generalizing i with
  | nil => rfl
  | cons p params ih =>
    replace ih {j : Nat} := ih (i := j) fun q hq => hparams q (mem_cons_of_mem _ hq)
    rw [flatMap_cons, append_assoc] at h
    rw [length_cons, readParams]
    cases p with
    | none =>
      rw [encodeParam] at h
      obtain ⟨hin, hslice, hrest⟩ := sliceOf_front h (beBytes_length 4 _) (by decide)
      rw [if_neg (by omega), hslice, Except.bind_of_ok rfl, beNat_four (by decide)]
      exact ih hrest
    | some p =>
      obtain ⟨hutf, hlt⟩ := hparams p mem_cons_self
      rw [encodeParam, append_assoc] at h
      obtain ⟨hin, hslice, hrest⟩ := sliceOf_front h (beBytes_length 4 _) (by decide)
      rw [if_neg (by omega), hslice, Except.bind_of_ok rfl, beNat_four (by omega)]
      by_cases hp : p = []
      · subst hp
        exact ih hrest
      · have hpos := length_pos_of_ne_nil hp
        obtain ⟨hin', hval, hrest⟩ := sliceOf_front hrest rfl hpos
        rw [if_pos ⟨hpos, hlt, hin'⟩, hval, Except.bind_of_ok rfl, ih hrest, fromUtf8Lossy_of_isUtf8 hutf,
          filterMap_cons, Option.filter_some, if_pos (decide_eq_true hp)]
        rfl

theorem beNat_two (h : n < 2 ^ 16) : beNat (beBytes 2 n) = n := by
  rw [beNat_beBytes]
  exact Nat.mod_eq_of_lt h

theorem parseBMessage_encode (m : BindMessage) :
    parseBMessage m.encode = .ok (m.stmt, m.params.filterMap (·.filter (· ≠ []))) := by
  have hformats : (m.formats.flatMap (beBytes 2)).length = m.formats.length * 2 := by
    simp [length_flatMap]
  -- where each field of the body begins
  obtain ⟨hportal, -, hrest⟩ := nextZero_front (i := 0) (show m.encode.drop 0 = _ from rfl) m.zero_portal
  rw [Nat.zero_add] at hportal hrest
  obtain ⟨hstmt, hin, hrest'⟩ := nextZero_front hrest m.zero_stmt
  obtain ⟨hin₁, hnum₁, hrest₁⟩ := sliceOf_front hrest' (beBytes_length 2 _) (by decide)
  have hrest₂ := congrArg (drop (m.formats.length * 2)) hrest₁
  rw [drop_drop, drop_left' hformats] at hrest₂
  obtain ⟨hin₃, hnum₃, hrest₃⟩ := sliceOf_front hrest₂ (beBytes_length 2 _) (by decide)
  unfold parseBMessage
  dsimp only
  rw [hportal, hstmt, sliceOf_take hin.le, hrest, take_left, Except.bind_of_ok rfl, if_neg (by omega), hnum₁,
    Except.bind_of_ok rfl, beNat_two m.formats_lt, if_neg (by omega), hnum₃, Except.bind_of_ok rfl,
    beNat_two m.params_lt, readParams_encode m.utf8_params hrest₃, fromUtf8Lossy_of_isUtf8 m.utf8_stmt]
  rfl

/-- **Bound parameters.** A Bind message gives back its parameters, with one text for every NULL,
exactly if none of them is NULL or empty. -/
theorem bind_decodes_iff (m : BindMessage) :
    (∃ marker, parseBMessage m.encode = .ok (m.stmt, m.params.map (·.getD marker))) ↔
      ∀ p ∈ m.params, p ≠ none ∧ p ≠ some [] := by
  have hkept (p : Option Bytes) : (p.filter (· ≠ [])).isSome ↔ p ≠ none ∧ p ≠ some [] := by
    cases p with
    | none => simp
    | some p => simp
  rw [parseBMessage_encode]
  constructor
  · rintro ⟨marker, hm⟩ p hp
    have hlen := congrArg length (Prod.mk.inj (Except.ok.inj hm)).2
    rw [length_map, filterMap_length_eq_length] at hlen
    exact (hkept p).mp (hlen p hp)
  · intro hall
    refine ⟨[], ?_⟩
    rw [← filterMap_eq_map]
    refine congrArg (fun l => Except.ok (m.stmt, l)) (filterMap_congr fun p hp => ?_)
    obtain ⟨t, ht⟩ := Option.isSome_iff_exists.mp ((hkept p).mpr (hall p hp))
    obtain ⟨rfl, -⟩ := Option.filter_eq_some_iff.mp ht
    exact ht

/-- Behind an empty parameter the others move up. -/
theorem bind_drops_empty : ∃ m : BindMessage, m.params = [some [], some [97]] ∧
    parseBMessage m.encode = .ok (m.stmt, [[97]]) := by
  have hparams (p : Bytes) (hp : some p ∈ [some [], some [97]]) : isUtf8 p ∧ p.length < 2 ^ 31 := by
    simp only [mem_cons, Option.some.injEq, not_mem_nil, or_false] at hp
    rcases hp with rfl | rfl
    · exact ⟨rfl, by decide⟩
    · exact ⟨rfl, by decide⟩
  exact ⟨⟨[], [], [], _, [], not_mem_nil, not_mem_nil, rfl, by decide, by decide, hparams⟩, rfl, parseBMessage_encode _⟩

end Bind

/-! ## Which protocol -/

/-- The loop of the server is made of such rounds. -/
theorem run_receive (fuel : Nat) (s : Bytes) : Server.run (fuel + 1) s = (Server.receive s).bind
    (Received.rec startupParams (fun _ rest => Server.run fuel rest) none) := by
  rw [Server.run, Server.receive]
  cases readExact 4 s with
  | none => rfl
  | some r =>
    obtain ⟨lenBuf, rest⟩ := r
    simp only [Option.bind_eq_bind, Option.bind_some]
    split
    · rfl
    · split
      · rfl
      · cases readExact (leNat lenBuf) rest with
        | none => rfl
        | some r => rfl

theorem receive_query {q : Bytes} (hq : q.length ≤ 16 * 1024 * 1024) (rest : Bytes) :
    Server.receive (leBytes 4 q.length ++ (q ++ rest)) =
      if 8 ≤ beNat (leBytes 4 q.length) ∧ beNat (leBytes 4 q.length) ≤ 10000 then some (.pgwire (q ++ rest))
      else some (.query q rest) := by
  have hlen : leNat (leBytes 4 q.length) = q.length := leNat_leBytes_of_lt (by omega)
  rw [Server.receive, readExact_front (leBytes_length 4 _), Option.bind_eq_bind, Option.bind_some]
  dsimp only
  rw [hlen, if_neg (show ¬ q.length > 16 * 1024 * 1024 by omega), readExact_front rfl]
  rfl

/-- **Which protocol.** A query of the server's own protocol is taken for one exactly if its length is
not a multiple of 64 KiB, up to 39 of them: such a length read backwards is one of a start-up message. -/
theorem native_query_received_iff (q rest : Bytes) (hq : q.length ≤ 16 * 1024 * 1024) :
    Server.receive (leBytes 4 q.length ++ (q ++ rest)) = some (.query q rest) ↔
      ¬ ∃ k, 1 ≤ k ∧ k ≤ 39 ∧ q.length = 65536 * k := by
  generalize hn : q.length = n at hq
  -- the four bytes of the length
  obtain ⟨a, b, c, d, ⟨ha, hb, hc, hd⟩, hsum, hbe⟩ : ∃ a b c d,
      (a < 256 ∧ b < 256 ∧ c < 256 ∧ d < 256) ∧ n = a + 256 * (b + 256 * (c + 256 * d)) ∧
        beNat (leBytes 4 n) = d + 256 * (c + 256 * (b + 256 * a)) :=
    ⟨n % 256, n / 256 % 256, n / 256 / 256 % 256, n / 256 / 256 / 256 % 256, by omega, by omega,
      by simp [beNat, leNat, leBytes]⟩
  rw [← hn, receive_query (by omega), hn, hbe]
  clear hbe hn
  split
  · rename_i hpg
    refine iff_of_false (by simp) (not_not.mpr ⟨c, ?_⟩)
    obtain rfl : a = 0 := by clear hsum; omega
    obtain rfl : b = 0 := by clear hsum; omega
    omega
  · refine iff_of_true rfl ?_
    rintro ⟨k, hk⟩
    obtain rfl : a = 0 := by omega
    obtain rfl : b = 0 := by omega
    omega

theorem native_query_received_eight : ∃ rest, Server.receive (leBytes 4 8 ++ ("SELECT 1" ++ rest)) =
    some (.query "SELECT 1" rest) :=
  ⟨[0], (native_query_received_iff "SELECT 1" [0] (by decide)).mpr fun ⟨k, hk⟩ => by
    have hlen : (ofString "SELECT 1").length = 8 := rfl
    omega⟩

/-- A query of 64 KiB. -/
theorem native_query_misrouted : ∃ q, q.length = 65536 ∧
    Server.receive (leBytes 4 q.length ++ (q ++ [])) = some (.pgwire (q ++ [])) := by
  refine ⟨replicate 65536 32, length_replicate, ?_⟩
  rw [receive_query (by rw [length_replicate]; decide), length_replicate, if_pos (by decide)]

/-! ## Passwords -/

end MagnumDB
