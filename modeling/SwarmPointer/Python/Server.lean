import SwarmPointer.Python.Protocol
import SwarmPointer.Python.Store

/-!
# `implementations/relay/server.py`

The handlers of the durable relay. The standard library splits the request
line and decodes the query, so a request is its path, its cursor and the
headers the handlers look at. A handler that raises sends no reply.

`Stop` is how a handler ends early: with a reply of its own, or with an
exception that nobody catches, after which the connection is closed with
nothing sent. The configuration is read once and never written; the tables are
the state, passed in and out.
-/

namespace SwarmPointer.Python.Server

open Except SwarmPointer.Python.Protocol Store

/-- The configuration the handlers look at; when it is built the limits are
clamped at 0 and the multiplier at 1. -/
structure Config where
  page_size : Int
  pow_multiplier : {n : Nat // 0 < n}
  max_record_bytes : Int
  max_locators : Nat
  max_locator_bytes : Nat
  max_parents : Nat
  block_actor : Str
  block_channel : Str
  bootstrap_channels : List Str

/-- The defaults, with a page size. -/
def openConfig (page_size : Int) : Config where
  page_size := page_size
  pow_multiplier := ⟨1, Nat.one_pos⟩
  max_record_bytes := 65536
  max_locators := 256
  max_locator_bytes := 8192
  max_parents := 1024
  block_actor := []
  block_channel := []
  bootstrap_channels := []

/-- A body as it is handed to `_send`: bytes, or one of the dictionaries. -/
inductive Body
  | bytes (data : Bytes)
  | error (token message : Str)
  | submitted (id : Str) (duplicate : Bool)
  | manifest (cfg : Config)

structure Reply where
  code : Nat
  body : Body

/-- How a handler ends early. -/
inductive Stop
  | raised (e : Exn)
  | replied (r : Reply)

abbrev Handle := Except Stop

/-- An exception the handler does not catch. -/
def uncaught {α : Type} : Py α → Handle α
  | .ok a => .ok a
  | .error e => .error (.raised e)

/-- `_err`. -/
def err (code : Nat) (token message : String) : Stop :=
  .replied ⟨code, .error token.toList message.toList⟩

/-! ## Texts -/

def jsonReason : JsonReason → String
  | .invalidUtf8 => "invalid-utf8"
  | .invalidJson => "invalid-json"
  | .notObject => "not-object"
  | .duplicateMemberName => "duplicate-member-name"
  | .loneSurrogate => "lone-surrogate"
  | .noncharacter => "noncharacter"
  | .negativeZero => "negative-zero"
  | .nonFiniteNumber => "non-finite-number"

/-- `e.stage`. -/
def stage : Stage → String
  | .jsonInput => "json-input"
  | .version => "version"
  | .schema => "schema"
  | .identifier => "identifier"
  | .created => "created"
  | .nonce => "nonce"
  | .length => "length"
  | .identity => "identity"
  | .work => "work"
  | .signature => "signature"

/-- `e.reason`. -/
def reason : Reason → String
  | .json r => jsonReason r
  | .unknownV => "unknown-v"
  | .schema => "schema"
  | .unknownType => "unknown-type"
  | .identifier => "identifier"
  | .created => "created"
  | .nonce => "nonce"
  | .tooManyLocators => "too-many-locators"
  | .locatorTooLong => "locator-too-long"
  | .tooManyParents => "too-many-parents"
  | .jcsTooLarge => "jcs-too-large"
  | .missingId => "missing-id"
  | .idMismatch => "id-mismatch"
  | .insufficientWork => "insufficient-work"
  | .signature => "signature"
  | .nonceNotFound => "nonce-not-found"
  | .nonceSpaceExhausted => "nonce-space-exhausted"
  | .minedIdMismatch => "mined-id-mismatch"

/-! ## Policy -/

/-- `int(s, 16)` on hexadecimal digits. -/
def int16 (s : Str) : Py Nat :=
  if s ≠ [] ∧ s.all JsonInput.inHex then
    .ok (s.foldl (fun n c => 16 * n + (JsonGrammar.hexVal c).getD 0) 0)
  else .error .valueError

def localWorkOk (ident : Str) (units multiplier : Nat) : Py Bool := do
  let h ← int16 (ident.drop 7)
  if units * UNIT_SCALE * multiplier = 0 then .error .zeroDivisionError
  else .ok (h ≤ MAX_H / (units * UNIT_SCALE * multiplier))

/-- `ref` of `reference_locators`. -/
def reference (u : Json.Members Str) : Option (Json Str) :=
  if u.lookup "type".toList matches some (.str ['p', 'o', 'i', 'n', 't', 'e', 'r']) then
    u.lookup "ref".toList
  else u.lookup "descriptor".toList

def referenceLocators (u : Json.Members Str) : List (Json Str) :=
  match reference u with
  | some (.obj ref) =>
      match ref.lookup "locators".toList with
      | some (.arr locs) => locs
      | _ => []
  | _ => []

/-- `str(env.get(k, ""))`, where a member that is there is a string. -/
def memberText (env : Json.Members Str) (k : Str) : Py Str :=
  match env.lookup k with
  | some v => asStr v
  | none => .ok []

/-- `any(len(s.encode("utf-8")) > n for s in locators)`. -/
def anyLonger (n : Nat) : List (Json Str) → Py Bool
  | [] => .ok false
  | v :: vs => do
      let s ← asStr v
      if (Unicode.utf8 s).length > n then .ok true else anyLonger n vs

/-- `channel` and `object_hash` of a channel description. -/
def describedKeys (ident : Str) (u : Json.Members Str) : Py (Str × Option Str) := do
  match u.lookup "descriptor".toList with
  | some (.obj descriptor) => do
      .ok (ident, some (← asStr (← getItem descriptor "hash".toList)))
  | _ => .ok (ident, none)

/-- `channel` and `object_hash` of a pointer. -/
def pointedKeys (u : Json.Members Str) : Py (Str × Option Str) := do
  let channel ← asStr (← getItem u "channel".toList)
  let object_hash ← asStr (← subscript (← getItem u "ref".toList) "hash".toList)
  .ok (channel, some object_hash)

/-- `channel` and `object_hash`. -/
def indexKeys (ident : Str) (u : Json.Members Str) : Py (Str × Option Str) := do
  if (← getItem u "type".toList) matches .str ['c', 'h', 'a', 'n', 'n', 'e', 'l'] then
    describedKeys ident u
  else pointedKeys u

/-- The tests of the actor, the channel and the work, with the actor. -/
def checkBlocked (cfg : Config) (info : Record) (env : Json.Members Str) : Handle Str := do
  let actor ← uncaught (memberText env "actor".toList)
  raiseIf (cfg.block_actor ≠ [] ∧ actor = cfg.block_actor) (err 403 "policy" "actor blocked")
  let channel_field ← uncaught (memberText env "channel".toList)
  raiseIf (cfg.block_channel ≠ [] ∧ channel_field = cfg.block_channel)
    (err 403 "policy" "channel blocked")
  let ok ← uncaught (localWorkOk info.id info.units cfg.pow_multiplier)
  raiseIf (ok = false) (err 403 "policy" "local proof-of-work multiplier")
  .ok actor

/-- The length of `parents`, 0 when it is no list. -/
def parentCount (u : Json.Members Str) : Nat :=
  match u.lookup "parents".toList with
  | some (.arr parents) => parents.length
  | _ => 0

/-- The tests of the local limits. -/
def checkLimits (cfg : Config) (u : Json.Members Str) : Handle Unit := do
  let locators := referenceLocators u
  raiseIf (locators.length > cfg.max_locators) (err 403 "policy" "max_locators")
  let long ← uncaught (anyLonger cfg.max_locator_bytes locators)
  raiseIf (long = true) (err 403 "policy" "max_locator_bytes")
  raiseIf (parentCount u > cfg.max_parents) (err 403 "policy" "max_parents")

/-! ## `do_POST` -/

/-- What `do_POST` looks at: the path, three headers and the bytes that follow. -/
structure PostRequest where
  path : Str
  content_encoding : Option Str
  content_type : Option Str
  content_length : Option Str
  stream : Bytes

/-- The media type of a `Content-Type`. -/
def mediaType (content_type : Str) : Str :=
  lower (stripBy isSpace (content_type.takeWhile (· ≠ ';')))

/-- `int(self.headers.get("Content-Length") or "0")`. -/
def contentLength (content_length : Option Str) : Handle Int :=
  match content_length with
  | none | some [] => .ok 0
  | some s =>
      match intText s with
      | .ok n => .ok n
      | .error _ => .error (err 400 "bad_length" "Content-Length")

/-- The part of `do_POST` that reads the body. -/
def readBody (cfg : Config) (req : PostRequest) : Handle Bytes := do
  raiseIf (req.path ≠ "/v1/assertions".toList) (err 404 "not_found" "route")
  raiseIf (req.content_encoding.getD [] ≠ [] ∧
    lower (req.content_encoding.getD []) ≠ "identity".toList)
    (err 400 "bad_encoding" "non-identity Content-Encoding")
  raiseIf (mediaType (req.content_type.getD []) ∉
    ["application/json".toList, "application/spp+json".toList]) (err 400 "bad_type" "Content-Type")
  let n ← contentLength req.content_length
  raiseIf (n < 0 ∨ n > cfg.max_record_bytes) (err 400 "too_large" "max_record_bytes")
  let body := req.stream.take n.toNat
  raiseIf (body.length > cfg.max_record_bytes) (err 400 "too_large" "max_record_bytes")
  .ok body

/-- `validate_bytes` and the two handlers around it. -/
def validated (I : Imports) (body : Bytes) : Handle Record :=
  match validateBytes I body with
  | .ok info => .ok info
  | .error (.unsupportedError _ r) => .error (err 400 "unsupported_assertion" (reason r))
  | .error (.sppError s r) => .error (err 400 "invalid_assertion" (stage s ++ ":" ++ reason r))
  | .error e => .error (.raised e)

/-- From the record and the parse to the arguments of `add`. -/
def entryOf (I : Imports) (cfg : Config) (info : Record) (env : Json.Members Str) :
    Handle Entry := do
  let canonical ← uncaught (I.canonicalizeBytes (.obj env))
  let actor ← checkBlocked cfg info env
  let u := reconstructU env
  checkLimits cfg u
  let (channel, object_hash) ← uncaught (indexKeys info.id u)
  let type ← uncaught (getItem u "type".toList >>= asStr)
  .ok ⟨info.id, canonical, type, actor, some channel, object_hash⟩

/-- `do_POST` up to `self.store.add`. -/
def postEntry (I : Imports) (cfg : Config) (req : PostRequest) : Handle Entry := do
  let body ← readBody cfg req
  let info ← validated I body
  let env ← uncaught (JsonInput.parseObject body)
  entryOf I cfg info env

/-- `do_POST`: the reply, none when it raises, and the tables after it. -/
def doPost (I : Imports) (cfg : Config) (req : PostRequest) (t : Transaction) (db : Db) :
    Option Reply × Db :=
  match postEntry I cfg req with
  | .error (.replied r) => (some r, db)
  | .error (.raised _) => (none, db)
  | .ok e =>
      match add t e db with
      | (.ok inserted, db') => (some ⟨200, .submitted e.id (!inserted)⟩, db')
      | (.error _, db') => (none, db')

/-! ## `do_GET` -/

/-- `json.dumps(nxt).encode("ascii")`. -/
def nextJson (nxt : Option Str) : Bytes :=
  match nxt with
  | none => Unicode.utf8 "null".toList
  | some token => Unicode.utf8 (dumps token)

def listBody (items_json : Bytes) (nxt : Option Str) : Bytes :=
  Unicode.utf8 "\x7b\"items\":".toList ++ items_json ++ Unicode.utf8 ",\"next\":".toList ++
    nextJson nxt ++ Unicode.utf8 "\x7d".toList

/-- `b"[" + b",".join(blobs) + b"]"`. -/
def blobList (blobs : List Bytes) : Bytes :=
  Unicode.utf8 ['['] ++ (Unicode.utf8 [',']).intercalate blobs ++ Unicode.utf8 [']']

/-- `json.dumps(ids, separators=(",", ":")).encode("utf-8")`. -/
def idList (ids : List Str) : Bytes :=
  Unicode.utf8 ('[' :: [','].intercalate (ids.map dumps) ++ [']'])

/-- `HEX64_RE.fullmatch`. -/
def HEX64 (s : Str) : Bool := s.length = 64 && s.all isLowerHex

/-- `path.strip("/").split("/")`. -/
def pathParts (path : Str) : List Str := (stripBy (· = '/') path).splitOn '/'

def ok (body : Bytes) : Reply := ⟨200, .bytes body⟩

def notFound (message : String) : Reply := ⟨404, .error "not_found".toList message.toList⟩

/-- `parts[3]` where `parts` is that of a single assertion. -/
def assertionRoute (parts : List Str) : Option Str :=
  if parts.take 3 = ["v1".toList, "assertions".toList, "sha256".toList] then
    match parts.drop 3 with
    | [hexid] => some hexid
    | _ => none
  else none

/-- `parts[3]` where `parts` is that of a list of assertions. -/
def listRoute (kind : Str) (parts : List Str) : Option Str :=
  if parts.take 3 = ["v1".toList, kind, "sha256".toList] then
    match parts.drop 3 with
    | [hexid, last] => if last = "assertions".toList then some hexid else none
    | _ => none
  else none

def getOne (db : Db) (hexid : Str) : Reply :=
  if HEX64 hexid then
    match getAssertion db hexid with
    | none => notFound "unknown assertion"
    | some blob => ok blob
  else notFound "route"

/-- A list of assertions that `query` reads. -/
def getList (query : Py (List Bytes × Option Str)) (hexid : Str) : Py Reply :=
  if HEX64 hexid then do
    let (blobs, nxt) ← query
    .ok (ok (listBody (blobList blobs) nxt))
  else .ok (notFound "route")

/-- `GET /v1/channels`. -/
def getChannels (query : Py (List Str × Option Str)) : Py Reply := do
  let (ids, nxt) ← query
  .ok (ok (listBody (idList ids) nxt))

/-- The routes of `do_GET` below `/v1`. -/
def routeParts (size : PageSize) (db : Db) (parts : List Str) (after_seq : Nat) : Py Reply :=
  match assertionRoute parts with
  | some hexid => .ok (getOne db hexid)
  | none =>
      match listRoute "channels".toList parts with
      | some hexid => getList (channelAssertions size db hexid after_seq) hexid
      | none =>
          match listRoute "objects".toList parts with
          | some hexid => getList (objectAssertions size db hexid after_seq) hexid
          | none => .ok (notFound "route")

/-- The routes of `do_GET`. -/
def route (cfg : Config) (db : Db) (path : Str) (after_seq : Nat) : Py Reply :=
  if path = "/.well-known/spp".toList then .ok ⟨200, .manifest cfg⟩
  else if path = "/v1/channels".toList then
    getChannels (advertisedChannels (pageSize cfg.page_size) db after_seq)
  else routeParts (pageSize cfg.page_size) db (pathParts path) after_seq

/-- `do_GET`: none when it raises. -/
def doGet (cfg : Config) (db : Db) (path : Str) (cursor : Option Str) : Option Reply :=
  match cursor.elim (.ok 0) decodeCursor with
  | .error (.badCursor message) => some ⟨400, .error "bad_cursor".toList message⟩
  | .error _ => none
  | .ok after_seq => (route cfg db path after_seq).toOption

end SwarmPointer.Python.Server
