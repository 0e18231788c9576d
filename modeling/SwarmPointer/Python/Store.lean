import Mathlib.Data.List.Sort
import SwarmPointer.Lib.Base64
import SwarmPointer.Lib.Raises
import SwarmPointer.Python.Text

/-!
# `implementations/relay/store.py`

The two tables of `schema.sql`, the transaction that adds an assertion and
the paged queries. The column `accepted_at` is left out: nothing reads it.
A transaction is described by the `seq` that AUTOINCREMENT has for it and by
the statements of it that fail.

The rows are listed in the order of `seq`, so a query is a filter of them.
`seq > ?` and `LIMIT ?` take 64-bit integers and raise `OverflowError`
otherwise. `encode_cursor` and `decode_cursor` are here too; the token is
base64 without padding, and the decoder goes through `int`.
-/

namespace SwarmPointer.Python.Store

/-- The arguments of `add`, and the columns of a row they become. -/
structure Entry where
  id : Str
  envelope : Bytes
  type : Str
  actor : Str
  channel : Option Str
  object_hash : Option Str
  deriving DecidableEq

/-- A row of `assertions`. -/
structure Row extends Entry where
  seq : Nat
  deriving DecidableEq

/-- The tables; `advertised_channels` holds `(channel, assertion_id)`. -/
structure Db where
  assertions : List Row
  advertised_channels : List (Str × Str)
  deriving DecidableEq

/-- The tables `_initialize` creates. -/
def Db.empty : Db := ⟨[], []⟩

/-! ## Cursors -/

/-- `_CURSOR_RE.fullmatch`. -/
def CURSOR_RE (token : Str) : Bool :=
  token ≠ [] && token.all fun c => (Base64.digitVal c).isSome

def encodeCursor (seq : Nat) : Str := Base64.strip (Base64.encode (Unicode.utf8 (Nat.toDigits 10 seq)))

def badCursor {α : Type} (message : String) : Py α := .error (.badCursor message.toList)

/-- `base64.urlsafe_b64decode(padded)` on text that `_CURSOR_RE` matches. -/
def urlsafeB64decode (padded : Str) : Py Bytes :=
  match Base64.decode padded with
  | some raw => .ok raw
  | none => badCursor "cursor is not valid base64url"

/-- `int(raw.decode("ascii"))`. -/
def cursorInt (raw : Bytes) : Py Int :=
  match decodeAscii raw >>= intText with
  | .ok seq => .ok seq
  | .error _ => badCursor "cursor does not decode to an integer"

def decodeCursor (token : Str) : Py Nat := do
  if CURSOR_RE token then do
    let raw ← urlsafeB64decode (Base64.pad token)
    let seq ← cursorInt raw
    if seq < 0 then badCursor "cursor out of range" else .ok seq.toNat
  else badCursor "cursor is not unpadded base64url"

/-! ## `add` -/

/-- The statements of `add` that can fail. -/
inductive Statement
  | connect
  | insertAssertion
  | insertChannel
  | commit
  deriving DecidableEq

/-- What SQLite decides about one transaction. -/
structure Transaction where
  seq : Nat
  fails : Statement → Bool

/-- A transaction in progress. -/
abbrev Txn := StateT Db Py

/-- `conn.execute` of a statement: its row count. -/
def execute (t : Transaction) (s : Statement) (f : Db → Nat × Db) : Txn Nat := fun db =>
  if t.fails s then .error .operationalError else .ok (f db)

/-- `with conn:` commits what its body did, or rolls it back. -/
def withConn {α : Type} (t : Transaction) (body : Txn α) (db : Db) : Py α × Db :=
  match body db with
  | .error e => (.error e, db)
  | .ok (a, db') => if t.fails .commit then (.error .operationalError, db) else (.ok a, db')

/-- `INSERT OR IGNORE INTO assertions`; `id` is unique. -/
def insertAssertion (row : Row) (db : Db) : Nat × Db :=
  if ∃ r ∈ db.assertions, r.id = row.id then (0, db)
  else (1, { db with assertions := db.assertions ++ [row] })

/-- `INSERT OR IGNORE INTO advertised_channels`; `channel` is the key. -/
def insertChannel (channel assertion_id : Str) (db : Db) : Nat × Db :=
  if ∃ ac ∈ db.advertised_channels, ac.1 = channel then (0, db)
  else (1, { db with advertised_channels := db.advertised_channels ++ [(channel, assertion_id)] })

/-- The body of `with conn:` in `add`. -/
def addBody (t : Transaction) (e : Entry) : Txn Bool := do
  let rowcount ← execute t .insertAssertion (insertAssertion ⟨e, t.seq⟩)
  if rowcount = 0 then pure false
  else if e.type = "channel".toList then do
    let _ ← execute t .insertChannel (insertChannel e.id e.id)
    pure true
  else pure true

def add (t : Transaction) (e : Entry) (db : Db) : Py Bool × Db :=
  if t.fails .connect then (.error .operationalError, db) else withConn t (addBody t e) db

/-! ## Queries -/

/-- A page size as `Store.__init__` keeps it. -/
abbrev PageSize := {n : Nat // 0 < n}

/-- `max(1, int(page_size))`. -/
def pageSize (page_size : Int) : PageSize := ⟨(max 1 page_size).toNat, by omega⟩

def getAssertion (db : Db) (channel_hex : Str) : Option Bytes :=
  (db.assertions.find? fun r => r.id = "sha256:".toList ++ channel_hex).map fun r => r.envelope

/-- `_paginate`. -/
def paginate (page_size : PageSize) (rows : List Row) : List Row × Option Str :=
  let kept := rows.take page_size
  (kept, if page_size < rows.length then kept.getLast?.map fun r => encodeCursor r.seq else none)

/-- An integer parameter of a statement: 64 bits, signed. -/
def parameter (n : Nat) : Py Nat := if n < 2 ^ 63 then .ok n else .error .overflowError

/-- `seq > ? ORDER BY seq ASC LIMIT ?` of the selected rows. -/
def select (page_size : PageSize) (rows : List Row) (after_seq : Nat) : Py (List Row) := do
  let after ← parameter after_seq
  let limit ← parameter (page_size + 1)
  .ok (((rows.filter fun r => after < r.seq).insertionSort fun a b => a.seq ≤ b.seq).take limit)

/-- `WHERE channel = ?`. -/
def channelRows (db : Db) (channel_hex : Str) : List Row :=
  db.assertions.filter fun r => r.channel = some ("sha256:".toList ++ channel_hex)

/-- `WHERE object_hash = ?`. -/
def objectRows (db : Db) (object_hex : Str) : List Row :=
  db.assertions.filter fun r => r.object_hash = some ("sha256:".toList ++ object_hex)

/-- `advertised_channels ac JOIN assertions a ON a.id = ac.assertion_id`. -/
def advertisedRows (db : Db) : List Row :=
  db.advertised_channels.flatMap fun ac => db.assertions.filter fun a => a.id = ac.2

/-- A page of the rows that `rows` selects. -/
def page (page_size : PageSize) (rows : List Row) (after_seq : Nat) :
    Py (List Row × Option Str) := do
  .ok (paginate page_size (← select page_size rows after_seq))

def channelAssertions (page_size : PageSize) (db : Db) (channel_hex : Str) (after_seq : Nat) :
    Py (List Bytes × Option Str) := do
  let (rows, nxt) ← page page_size (channelRows db channel_hex) after_seq
  .ok (rows.map fun r => r.envelope, nxt)

def objectAssertions (page_size : PageSize) (db : Db) (object_hex : Str) (after_seq : Nat) :
    Py (List Bytes × Option Str) := do
  let (rows, nxt) ← page page_size (objectRows db object_hex) after_seq
  .ok (rows.map fun r => r.envelope, nxt)

def advertisedChannels (page_size : PageSize) (db : Db) (after_seq : Nat) :
    Py (List Str × Option Str) := do
  let (rows, nxt) ← page page_size (advertisedRows db) after_seq
  .ok (rows.map fun r => r.id, nxt)

end SwarmPointer.Python.Store
