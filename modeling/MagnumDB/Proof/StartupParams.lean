import MagnumDB.Lib.Utf8
import MagnumDB.Network.Startup

/-!
# Where the start-up message goes

The server has read the length of the message when it gives the socket away, and the
handler reads a length again. So it takes the version, 196608, for the length, or the
code of an SSLRequest, 80877103. A client that sends its message and waits is never
answered. If so many bytes do come, what is read as parameters begins in the middle
of the first key, or with the version.
-/

namespace MagnumDB

open Text ByteString PgWireHandler List

variable {n : Nat}

theorem readExact_front {a : Bytes} (h : a.length = n) (b : Bytes) :
    readExact n (a ++ b) = some (a, b) := by
  unfold readExact
  rw [if_pos (by rw [length_append]; omega), take_left' h, drop_left' h]

theorem beNat_four (h : n < 2 ^ 32) : beNat (beBytes 4 n) = n := by
  rw [beNat_beBytes]
  exact Nat.mod_eq_of_lt h

/-! ## Pairs -/

theorem zeroAt_append {k : Bytes} (hk : 0 ∉ k) (s : Bytes) : zeroAt (k ++ 0 :: s) = k.length := by
  have hnone : k.findIdx? (· == 0) = none :=
    findIdx?_eq_none_iff.mpr fun b hb => beq_false_of_ne fun he => hk (he ▸ hb)
  unfold zeroAt
  rw [findIdx?_append, hnone, findIdx?_cons]
  simp

theorem zeroAt_zero (s : Bytes) : zeroAt (0 :: s) = 0 := zeroAt_append not_mem_nil s

theorem parsePairs_zero (fuel : Nat) (s : Bytes) (params : Params) :
    parsePairs fuel (0 :: s) params = params := by
  cases fuel with
  | zero => rfl
  | succ fuel => rw [parsePairs, zeroAt_zero, beq_self_eq_true, Bool.or_true, if_pos rfl]

theorem pairsIn_zero (s : Bytes) : pairsIn (0 :: s) = fun _ => none := parsePairs_zero _ s _

variable {pairs : List (Bytes × Bytes)}

/-- The loop reads the pairs one by one, up to the zero at the end. -/
theorem parsePairs_encode (h : Sendable pairs) (s : Bytes) :
    ∀ {fuel : Nat} {params : Params}, pairs.length < fuel →
      parsePairs fuel (encodePairs pairs ++ 0 :: s) params
        = pairs.foldl (fun (params : Params) p => Function.update params p.1 (some p.2)) params := by
  induction pairs with
  | nil =>
    exact fun _ => parsePairs_zero _ s _
  | cons p pairs ih =>
    intro fuel params hfuel
    obtain ⟨fuel, rfl⟩ := Nat.exists_eq_add_one_of_ne_zero (Nat.ne_of_gt (Nat.zero_lt_of_lt hfuel))
    obtain ⟨⟨hne, hk, hv, hku, hvu⟩, hrest⟩ := forall_mem_cons.mp h
    have hb : encodePairs (p :: pairs) ++ 0 :: s
        = p.1 ++ 0 :: (p.2 ++ 0 :: (encodePairs pairs ++ 0 :: s)) := by
      simp [encodePairs]
    have hkey : ¬ ((p.1 ++ 0 :: (p.2 ++ 0 :: (encodePairs pairs ++ 0 :: s))).isEmpty ||
        p.1.length == 0) := by
      simp [hne]
    have hdrop : ∀ (a b : Bytes), (a ++ 0 :: b).drop (a.length + 1) = b := by
      intro a b
      rw [drop_append]
      simp
    rw [hb, parsePairs]
    dsimp only
    rw [zeroAt_append hk, if_neg hkey, hdrop, if_neg (by simp), zeroAt_append hv, hdrop,
      take_left, take_left, fromUtf8Lossy_of_isUtf8 hku, fromUtf8Lossy_of_isUtf8 hvu,
      foldl_cons]
    exact ih hrest (by rw [length_cons] at hfuel; omega)

theorem encodePairs_length (pairs : List (Bytes × Bytes)) : pairs.length ≤ (encodePairs pairs).length := by
  induction pairs with
  | nil => exact Nat.le_refl _
  | cons p pairs ih =>
    unfold encodePairs at ih ⊢
    rw [flatMap_cons, length_append, length_append, length_cons, length_cons]
    omega

theorem pairsIn_encode (h : Sendable pairs) (s : Bytes) :
    pairsIn (encodePairs pairs ++ 0 :: s) = paramsOf pairs := by
  refine parsePairs_encode h s ?_
  have hlen := encodePairs_length pairs
  rw [length_append, length_cons]
  omega

theorem paramsOf_eq_none : paramsOf pairs = (fun _ => none) ↔ pairs = [] := by
  refine ⟨fun h => ?_, fun h => by rw [h]; rfl⟩
  rcases eq_nil_or_concat pairs with hnil | ⟨front, p, rfl⟩
  · exact hnil
  · have hlast := congrFun h p.1
    unfold paramsOf at hlast
    rw [concat_eq_append, foldl_append, foldl_cons, foldl_nil,
      Function.update_self] at hlast
    cases hlast

/-! ## The handler -/

/-- Given the length and the version of a message, the handler reads its pairs. -/
theorem startupParams_frame {front : Bytes} (hfront : front.length = 4) (hn : 8 ≤ n)
    (hmax : n < 2 ^ 31) (hcode : beNat front ≠ 80877103) (s : Bytes) :
    startupParams (beBytes 4 n ++ (front ++ s))
      = if n - 8 ≤ s.length then some (pairsIn (s.take (n - 8))) else none := by
  unfold startupParams
  rw [readExact_front (beBytes_length 4 n), Option.bind_eq_bind, Option.bind_some]
  dsimp only
  rw [beNat_four (by omega), if_neg (by omega)]
  have htake : (front ++ s).take (n - 4) = front ++ s.take (n - 8) := by
    rw [take_append, hfront, take_of_length_le (by omega), Nat.sub_sub]
  unfold readExact
  by_cases hlen : n - 8 ≤ s.length
  · rw [if_pos (by rw [length_append]; omega), if_pos hlen, Option.bind_some, htake]
    rw [take_left' hfront, if_neg hcode, parseStartupMessage, drop_left' hfront]
  · rw [if_neg (by rw [length_append]; omega), if_neg hlen]
    rfl

/-- The server reads four bytes, and leaves the rest to the handler. -/
theorem run_pgwire (hn : 8 ≤ n) (hmax : n ≤ 10000) (fuel : Nat) (s : Bytes) :
    Server.run (fuel + 1) (beBytes 4 n ++ s) = startupParams s := by
  rw [Server.run, readExact_front (beBytes_length 4 n), Option.bind_eq_bind, Option.bind_some]
  dsimp only
  rw [beNat_four (by omega), if_pos ⟨hn, hmax⟩]

/-- The first four bytes after the version are not the code of an SSLRequest: they would not be the
beginning of a text. -/
theorem code_ne (h : Sendable pairs) {a b c d : UInt8} {s rest : Bytes}
    (heq : encodePairs pairs ++ 0 :: rest = a :: b :: c :: d :: s) :
    beNat [a, b, c, d] ≠ 80877103 := by
  intro hcode
  have hval : beNat [a, b, c, d] = d.toNat + 256 * (c.toNat + 256 * (b.toNat + 256 * a.toNat)) := by
    simp [beNat, leNat]
  have ha := a.toNat_lt
  have hb := b.toNat_lt
  have hc := c.toNat_lt
  have hd := d.toNat_lt
  obtain rfl : a = 4 := UInt8.toNat_inj.mp (show a.toNat = 4 by omega)
  obtain rfl : b = 210 := UInt8.toNat_inj.mp (show b.toNat = 210 by omega)
  obtain rfl : c = 22 := UInt8.toNat_inj.mp (show c.toNat = 22 by omega)
  rcases pairs with _ | ⟨⟨k, v⟩, pairs⟩
  · simp [encodePairs] at heq
  · obtain ⟨⟨hne, hk, -, hutf, -⟩, -⟩ := forall_mem_cons.mp h
    -- the bytes are those of the first key, or its end is among them
    rcases k with _ | ⟨x, _ | ⟨y, _ | ⟨z, k⟩⟩⟩
    · exact hne rfl
    · simp [encodePairs] at heq
    · simp [encodePairs] at heq
    · simp only [encodePairs, flatMap_cons, cons_append, List.cons.injEq] at heq
      obtain ⟨rfl, rfl, rfl, -⟩ := heq
      simp [isUtf8, decode, firstChar, charWidth, isSecond, isContinuation] at hutf

/-! ## What is looked up -/

theorem startupParams_short (hn : 8 ≤ n) (hmax : n < 2 ^ 31) {s : Bytes} (hlen : s.length < n - 4) :
    startupParams (beBytes 4 n ++ s) = none := by
  unfold startupParams
  rw [readExact_front (beBytes_length 4 n), Option.bind_eq_bind, Option.bind_some]
  dsimp only
  rw [beNat_four (by omega), if_neg (by omega), readExact, if_neg (by omega)]
  rfl

/-- **When the pairs of a start-up message arrive.** A handler that is given the whole stream reads
them. Entered from the server it reads them only if at least 196604 bytes come after the version and
the pairs found four bytes further on are the same; and after an SSLRequest only if 80877099 bytes
come and there are no pairs. -/
theorem startup_params_iff {pairs : List (Bytes × Bytes)} (h : Sendable pairs)
    (hlen : (startupMessage pairs).length ≤ 10000) (fuel : Nat) (rest : Bytes) :
    startupParams (startupMessage pairs ++ rest) = some (paramsOf pairs) ∧
    (Server.run (fuel + 1) (startupMessage pairs ++ rest) = some (paramsOf pairs) ↔
      196604 ≤ (encodePairs pairs ++ 0 :: rest).length ∧
        pairsIn (((encodePairs pairs ++ 0 :: rest).take 196604).drop 4) = paramsOf pairs) ∧
    (Server.run (fuel + 1) (sslRequest ++ (startupMessage pairs ++ rest)) = some (paramsOf pairs) ↔
      80877099 ≤ (startupMessage pairs ++ rest).length ∧ pairs = []) := by
  have hsize : (startupMessage pairs).length = 9 + (encodePairs pairs).length := by
    simp only [startupMessage, length_append, beBytes_length, length_singleton]
    omega
  have hmsg : startupMessage pairs ++ rest = beBytes 4 (9 + (encodePairs pairs).length) ++
      (beBytes 4 196608 ++ (encodePairs pairs ++ 0 :: rest)) := by
    simp [startupMessage]
  refine ⟨?_, ?_, ?_⟩
  · rw [hmsg, startupParams_frame (beBytes_length ..) (by omega) (by omega)
      (by rw [beNat_four (by decide)]; decide), if_pos (by rw [length_append, length_cons]; omega)]
    have htake : (encodePairs pairs ++ 0 :: rest).take (9 + (encodePairs pairs).length - 8)
        = encodePairs pairs ++ [0] := by
      rw [show 9 + (encodePairs pairs).length - 8 = (encodePairs pairs).length + 1 by omega,
        take_length_add_append]
      rfl
    rw [htake, pairsIn_encode h []]
  · rw [hmsg, run_pgwire (by omega) (by omega)]
    generalize htail : encodePairs pairs ++ 0 :: rest = tail
    by_cases hbytes : 196604 ≤ tail.length
    · obtain ⟨a, b, c, d, s, rfl⟩ : ∃ a b c d s, tail = a :: b :: c :: d :: s := by
        rcases tail with _ | ⟨a, _ | ⟨b, _ | ⟨c, _ | ⟨d, s⟩⟩⟩⟩
        all_goals first | exact ⟨_, _, _, _, _, rfl⟩ | (simp at hbytes)
      have hframe := startupParams_frame (n := 196608) (show [a, b, c, d].length = 4 from rfl)
        (by decide) (by decide) (code_ne h htail) s
      have hs : 196608 - 8 ≤ s.length := by
        simp only [length_cons] at hbytes
        omega
      rw [if_pos hs] at hframe
      have htake : ((a :: b :: c :: d :: s).take 196604).drop 4 = s.take (196608 - 8) := by
        rw [drop_take]
        rfl
      rw [show beBytes 4 196608 ++ a :: b :: c :: d :: s = beBytes 4 196608 ++ ([a, b, c, d] ++ s) from rfl,
        hframe, htake]
      exact ⟨fun he => ⟨hbytes, Option.some.inj he⟩, fun he => congrArg some he.2⟩
    · rw [startupParams_short (by decide) (by decide) (by omega)]
      exact iff_of_false (by simp) fun he => hbytes he.1
  · have hssl : sslRequest ++ (startupMessage pairs ++ rest)
        = beBytes 4 8 ++ (beBytes 4 80877103 ++ (startupMessage pairs ++ rest)) := by
      simp [sslRequest]
    rw [hssl, run_pgwire (by decide) (by decide)]
    by_cases hbytes : 80877099 ≤ (startupMessage pairs ++ rest).length
    · -- the length is skipped as if it were the version, and the version begins with a zero
      rw [hmsg] at hbytes ⊢
      rw [length_append, beBytes_length] at hbytes
      have hzero : (beBytes 4 196608 ++ (encodePairs pairs ++ 0 :: rest)).take (80877103 - 8)
          = 0 :: ([3, 0, 0] ++ (encodePairs pairs ++ 0 :: rest)).take 80877094 := rfl
      rw [startupParams_frame (beBytes_length ..) (by decide) (by decide)
        (by rw [beNat_four (by omega)]; omega), if_pos (by omega), hzero, pairsIn_zero]
      refine ⟨fun he => ⟨by rw [length_append, beBytes_length]; omega, ?_⟩, fun he => ?_⟩
      · exact paramsOf_eq_none.mp (Option.some.inj he).symm
      · rw [he.2]
        rfl
    · rw [startupParams_short (by decide) (by decide) (by omega)]
      exact iff_of_false (by simp) fun he => hbytes he.1

/-- A client that is named. -/
def alice : List (Bytes × Bytes) := [("user", "alice")]

theorem startup_params_alice : startupParams (startupMessage alice) = some (paramsOf alice) := by
  have hsend : Sendable alice := by
    unfold Sendable
    decide
  obtain ⟨hread, -, -⟩ := startup_params_iff hsend (by decide) 0 []
  rwa [append_nil] at hread

/-- **The name does not arrive.** If the client sends its message and waits, nobody is looked up. -/
theorem startup_params_lost : Server.run 1 (startupMessage alice) = none := by decide

end MagnumDB
