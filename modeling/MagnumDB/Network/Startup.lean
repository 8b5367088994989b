import MagnumDB.Network.Response

/-!
# Start-up

How a PostgreSQL client gets to a handler. `Server::run` of `src/network/server.rs` reads
the first four bytes to see which protocol it is, and gives the socket to
`PgWireHandler::handle_connection` of `src/network/pgwire.rs`, which reads the start-up
message from it. What the client sends is a list of bytes; where it ends, the server
waits or is told so, and in either case goes no further.
-/

namespace MagnumDB

open Text ByteString

/-- `read_exact`: so many bytes, and what is left. -/
def readExact (n : Nat) (s : Bytes) : Option (Bytes × Bytes) :=
  if n ≤ s.length then some (s.take n, s.drop n) else none

/-- The parameters of a connection, a `HashMap`. -/
abbrev Params := Bytes → Option Bytes

namespace PgWireHandler

/-- `position(|&b| b == 0).unwrap_or(0)`. -/
def zeroAt (b : Bytes) : Nat := (b.findIdx? (· == 0)).getD 0

/-- The loop of `parse_startup_message`. A value without an end is empty, and the next key is
looked for one byte further on. -/
def parsePairs : Nat → Bytes → Params → Params
  | 0, _, params => params
  | fuel + 1, b, params =>
    let keyEnd := zeroAt b
    if b.isEmpty || keyEnd == 0 then params
    else
      let key := fromUtf8Lossy (b.take keyEnd)
      let b := b.drop (keyEnd + 1)
      if b.isEmpty then params
      else
        let valEnd := zeroAt b
        let val := fromUtf8Lossy (b.take valEnd)
        parsePairs fuel (b.drop (valEnd + 1)) (Function.update params key (some val))

/-- The pairs at the beginning of some bytes. -/
def pairsIn (b : Bytes) : Params := parsePairs b.length b fun _ => none

/-- `parse_startup_message`: the pairs after the version. -/
def parseStartupMessage (body : Bytes) : Params := pairsIn (body.drop 4)

/-- The start of `handle_connection`: the parameters with which the user is looked up. Without
them it returns before. A length that is negative or too small panics where the vector is made. -/
def startupParams (s : Bytes) : Option Params := do
  let (lenBuf, s) ← readExact 4 s
  let msgLen := beNat lenBuf
  if msgLen < 8 ∨ 2 ^ 31 ≤ msgLen then none
  else
    let (body, s) ← readExact (msgLen - 4) s
    -- the code of an SSLRequest; it is answered with `N`
    if beNat (body.take 4) = 80877103 then
      let (lenBuf, s) ← readExact 4 s
      let startupLen := beNat lenBuf
      if startupLen < 4 ∨ 2 ^ 31 ≤ startupLen then none
      else
        let (payload, _) ← readExact (startupLen - 4) s
        some (parseStartupMessage payload)
    else some (parseStartupMessage body)

end PgWireHandler

/-- The loop of `Server::run` for one client, until it is handed over to a `PgWireHandler`. Frames of
the server's own protocol come before that or instead. -/
def Server.run : Nat → Bytes → Option Params
  | 0, _ => none
  | fuel + 1, s => do
    let (lenBuf, s) ← readExact 4 s
    if 8 ≤ beNat lenBuf ∧ beNat lenBuf ≤ 10000 then PgWireHandler.startupParams s
    else
      let queryLen := leNat lenBuf
      if queryLen > 16 * 1024 * 1024 then none
      else
        let (_, s) ← readExact queryLen s
        Server.run fuel s

/-! ## What a client sends -/

/-- The pairs of a StartupMessage, each text with its end. -/
def encodePairs (pairs : List (Bytes × Bytes)) : Bytes :=
  pairs.flatMap fun p => p.1 ++ 0 :: (p.2 ++ [0])

/-- A StartupMessage of the protocol: its length, the version 3.0, the pairs, and a zero. -/
def startupMessage (pairs : List (Bytes × Bytes)) : Bytes :=
  beBytes 4 (9 + (encodePairs pairs).length) ++ (beBytes 4 196608 ++ (encodePairs pairs ++ [0]))

/-- An SSLRequest. -/
def sslRequest : Bytes := beBytes 4 8 ++ beBytes 4 80877103

/-- The pairs as parameters; of two with one key the later one counts. -/
def paramsOf (pairs : List (Bytes × Bytes)) : Params :=
  pairs.foldl (fun params p => Function.update params p.1 (some p.2)) fun _ => none

/-- Pairs that can be sent: texts without zeros, and no empty key. -/
def Sendable (pairs : List (Bytes × Bytes)) : Prop :=
  ∀ p ∈ pairs, p.1 ≠ [] ∧ 0 ∉ p.1 ∧ 0 ∉ p.2 ∧ isUtf8 p.1 ∧ isUtf8 p.2

end MagnumDB
