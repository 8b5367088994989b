import MagnumDB.Network.Server
import MagnumDB.Network.Startup

/-!
# Messages of a PostgreSQL client

`PgWireHandler::handle_connection` of `src/network/pgwire.rs`, and what it uses behind the
start-up: the password check, `parse_p_message`, `parse_b_message` and `substitute_params`.
Lengths and slices are checked as the machine checks them, so a panic is a result. What the
client sends is a list of bytes, and what comes out are the requests that are executed.
-/

namespace MagnumDB

open Text ByteString

/-- What makes the task of a connection panic. -/
inductive Panic where
  /-- A subtraction below zero; a release build makes a vector of the wrapped length instead. -/
  | underflow
  /-- A vector longer than the address space. -/
  | capacity
  /-- A slice that is not inside its vector. -/
  | range
  /-- The bound on the rounds of a loop was too small. -/
  | rounds
  deriving DecidableEq

/-- `&b[i..j]`. -/
def sliceOf (b : Bytes) (i j : Nat) : Except Panic Bytes :=
  if i ≤ j ∧ j ≤ b.length then .ok (slice b i j) else .error .range

/-- The size of `vec![0u8; len - 4]`. A negative length is close to `2^64` as a `usize`. -/
def bodySize (lenBuf : Bytes) : Except Panic Nat :=
  if beNat lenBuf < 4 then .error .underflow
  else if 2 ^ 31 ≤ beNat lenBuf then .error .capacity
  else .ok (beNat lenBuf - 4)

/-- A length and as many bytes, and what is left; nothing if the client has not sent so many. -/
def readMessage (s : Bytes) : Except Panic (Option (Bytes × Bytes)) :=
  match readExact 4 s with
  | none => .ok none
  | some (lenBuf, s) => do pure (readExact (← bodySize lenBuf) s)

/-- What `Server::run` makes of the next bytes of a client. -/
inductive Received where
  /-- The connection is given to a `PgWireHandler`. -/
  | pgwire (rest : Bytes)
  /-- A query of the server's own protocol. -/
  | query (payload rest : Bytes)
  /-- The connection is dropped. -/
  | oversized

/-- One round of the loop of `Server::run`; nothing if the client has not sent enough. -/
def Server.receive (s : Bytes) : Option Received := do
  let (lenBuf, s) ← readExact 4 s
  if 8 ≤ beNat lenBuf ∧ beNat lenBuf ≤ 10000 then some (.pgwire s)
  else if leNat lenBuf > 16 * 1024 * 1024 then some .oversized
  else do
    let (queryBuf, s) ← readExact (leNat lenBuf) s
    some (.query queryBuf s)

/-- `substitute_params`: the placeholders are replaced one after the other. -/
def substituteParams (sql : Bytes) (params : List Bytes) : Bytes :=
  (params.zipIdx 1).foldl (fun result p => replace (36 :: decimal p.2) p.1 result) sql

/-- `get_user`. -/
def CatalogManager.getUser (h : Host) (fromJson : Bytes → Option UserInfo) (username : Bytes) :
    Sql (Option UserInfo) := do
  match ← Db.get (userKey h username) with
  | none => pure none
  | some bytes =>
    match fromJson bytes with
    | some info => pure (some info)
    | none => Sql.fail .badJson

namespace PgWireHandler

/-- The loop of `parse_startup_message`, slice by slice. -/
def startupPairs (body : Bytes) : Nat → Nat → Params → Except Panic Params
  | 0, _, _ => .error .rounds
  | fuel + 1, offset, params =>
    if body.length ≤ offset then .ok params
    else do
      let keyEnd := zeroAt (← sliceOf body offset body.length)
      if keyEnd = 0 then pure params
      else
        let key ← sliceOf body offset (offset + keyEnd)
        let offset := offset + keyEnd + 1
        if body.length ≤ offset then pure params
        else
          let valEnd := zeroAt (← sliceOf body offset body.length)
          let val ← sliceOf body offset (offset + valEnd)
          startupPairs body fuel (offset + valEnd + 1)
            (Function.update params (fromUtf8Lossy key) (some (fromUtf8Lossy val)))

def startup (body : Bytes) : Except Panic Params :=
  if body.length < 4 then .ok fun _ => none else startupPairs body body.length 4 fun _ => none

/-- `parse_p_message`. -/
def parsePMessage (body : Bytes) : Bytes × Bytes :=
  let parts := splitOn 0 body
  (fromUtf8Lossy (parts[0]?.getD []), fromUtf8Lossy (parts[1]?.getD []))

/-- The next zero from a position on, or the end. -/
def nextZero (body : Bytes) (offset : Nat) : Nat :=
  offset + ((body.drop offset).takeWhile (· != 0)).length

/-- The loop of `parse_b_message` over the parameters. A parameter without bytes is passed over. -/
def readParams (body : Bytes) : Nat → Nat → Except Panic (List Bytes)
  | 0, _ => .ok []
  | n + 1, offset =>
    if body.length < offset + 4 then readParams body n offset
    else do
      let paramLen := beNat (← sliceOf body offset (offset + 4))
      let offset := offset + 4
      -- as an `i32` the length is positive
      if 0 < paramLen ∧ paramLen < 2 ^ 31 ∧ offset + paramLen ≤ body.length then
        let val ← sliceOf body offset (offset + paramLen)
        let params ← readParams body n (offset + paramLen)
        pure (fromUtf8Lossy val :: params)
      else readParams body n offset

/-- `parse_b_message`. -/
def parseBMessage (body : Bytes) : Except Panic (Bytes × List Bytes) := do
  let stmtStart := nextZero body 0 + 1
  let stmtEnd := nextZero body stmtStart
  let stmtName ← sliceOf body stmtStart stmtEnd
  let offset := stmtEnd + 1
  if body.length < offset + 2 then pure (fromUtf8Lossy stmtName, [])
  else
    let numFormats := beNat (← sliceOf body offset (offset + 2))
    let offset := offset + 2 + numFormats * 2
    if body.length < offset + 2 then pure (fromUtf8Lossy stmtName, [])
    else
      let numParams := beNat (← sliceOf body offset (offset + 2))
      let params ← readParams body numParams (offset + 2)
      pure (fromUtf8Lossy stmtName, params)

/-- The main loop of `handle_connection`, with the prepared statements and the bound one. -/
def messages : Nat → Params → Bytes → Bytes → Except Panic (List Request)
  | 0, _, _, _ => .error .rounds
  | _, _, _, [] => .ok []
  | fuel + 1, prepared, boundSql, tag :: s => do
    match ← readMessage s with
    | none => pure []
    | some (body, s) =>
      if tag = 81 then
        let requests ← messages fuel prepared boundSql s
        pure (.query body :: requests)
      else if tag = 80 then
        let (stmtName, template) := parsePMessage body
        messages fuel (Function.update prepared stmtName (some template)) boundSql s
      else if tag = 66 then
        let (stmtName, params) ← parseBMessage body
        match (prepared stmtName).or (prepared []) with
        | some template => messages fuel prepared (substituteParams template params) s
        | none => messages fuel prepared boundSql s
      else if tag = 69 then
        let requests ← messages fuel prepared boundSql s
        pure (.execute boundSql :: requests)
      else if tag = 88 then pure []
      else messages fuel prepared boundSql s

variable (h : Host)

/-- The answer to the salt is the right one for the stored hash. -/
def passwordOk (expectedHash salt pBody : Bytes) : Bool :=
  let clientHash := fromUtf8Lossy (pBody.take (pBody.length - 1))
  let rawHash := (stripPrefix "md5" expectedHash).getD expectedHash
  clientHash == "md5" ++ h.md5 (rawHash ++ fromUtf8Lossy salt)

/-- What is read for the user of a start-up message: a password if there is one, and the messages. -/
def authenticated (getUser : Bytes → Option UserInfo) (salt payload s : Bytes) :
    Except Panic (List Request) := do
  let params ← startup payload
  match getUser ((params "user").getD "postgres") with
  | none => pure []
  | some info =>
    match info.passwordHash, s with
    | none, s => messages (s.length + 1) (fun _ => none) [] s
    | some _, [] => pure []
    | some expectedHash, tag :: s =>
      if tag ≠ 112 then pure []
      else
        match ← readMessage s with
        | none => pure []
        | some (pBody, s) =>
          if passwordOk h expectedHash salt pBody then messages (s.length + 1) (fun _ => none) [] s
          else pure []

/-- `handle_connection`, given who the users are. -/
def handleConnection (getUser : Bytes → Option UserInfo) (salt s : Bytes) :
    Except Panic (List Request) :=
  match readExact 4 s with
  | none => .ok []
  | some (lenBuf, s) =>
    if beNat lenBuf < 8 then .ok []
    else do
      match readExact (← bodySize lenBuf) s with
      | none => pure []
      | some (body, s) =>
        let code ← sliceOf body 0 4
        match ← (if beNat code = 80877103 then readMessage s else pure (some (body, s))) with
        | none => pure []
        | some (payload, s) => authenticated h getUser salt payload s

end PgWireHandler

end MagnumDB
