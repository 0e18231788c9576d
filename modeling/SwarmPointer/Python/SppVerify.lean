import SwarmPointer.Lib.Logged
import SwarmPointer.Python.Server

/-!
# `implementations/python/spp_verify.py`

The verdict on a file (`verify_file`) and the diagnostic (`run_diagnostic`),
which runs the pipeline of §20 a second time and reports what it computes.
The report is kept as labelled values until `"\n".join(lines)` makes one text
of it; the lines added before an exception stay in the list, so the second
`try` is a computation with a log.

Interpolating a value into a line converts it to text. A text goes in as it
is, line feeds included. For lists and dictionaries the conversion is `repr`,
which calls itself and raises `RecursionError` when the interpreter has no
call left; how many are left depends on the limit and on the calls that are
open when `add` is called.
-/

namespace SwarmPointer.Python.SppVerify

open Except Logged SwarmPointer.Python.Protocol

/-- The interpreter: the calls of `repr` that fit into one another where `add`
converts a value (995 from the command line when the recursion limit is 1000),
and the characters Unicode calls printable. -/
structure Host where
  repr_calls : {n : Nat // 0 < n}
  isprintable : Char → Bool

/-! ## Conversion to text -/

/-- One character in the `repr` of a text. -/
def reprChar (host : Host) (quote c : Char) : Str :=
  if c = quote ∨ c = '\\' then ['\\', c]
  else if c = '\t' then ['\\', 't']
  else if c = '\n' then ['\\', 'n']
  else if c = '\x0d' then ['\\', 'r']
  else if 0x20 ≤ c.toNat ∧ c.toNat < 0x7F then [c]
  else if 0x7F < c.toNat ∧ host.isprintable c = true then [c]
  else if c.toNat ≤ 0xFF then ['\\', 'x'] ++ (Nat.toDigits 16 c.toNat).leftpad 2 '0'
  else if c.toNat ≤ 0xFFFF then ['\\', 'u'] ++ (Nat.toDigits 16 c.toNat).leftpad 4 '0'
  else ['\\', 'U'] ++ (Nat.toDigits 16 c.toNat).leftpad 8 '0'

/-- `repr` of a text. -/
def reprStr (host : Host) (s : Str) : Str :=
  let quote := if '\'' ∈ s ∧ '"' ∉ s then '"' else '\''
  quote :: s.flatMap (reprChar host quote) ++ [quote]

mutual

/-- `repr`, with the calls that are left before the limit. -/
def repr (host : Host) : Nat → Json Str → Py Str
  | 0, _ => .error .recursionError
  | _ + 1, .null => .ok "None".toList
  | _ + 1, .bool true => .ok "True".toList
  | _ + 1, .bool false => .ok "False".toList
  | _ + 1, .num x => .ok (reprNumber x)
  | _ + 1, .str s => .ok (reprStr host s)
  | n + 1, .arr vs => do .ok ('[' :: [',', ' '].intercalate (← reprList host n vs) ++ [']'])
  | n + 1, .obj ms => do .ok ('{' :: [',', ' '].intercalate (← reprMembers host n ms) ++ ['}'])

def reprList (host : Host) : Nat → List (Json Str) → Py (List Str)
  | _, [] => .ok []
  | n, v :: vs => do
      let s ← repr host n v
      .ok (s :: (← reprList host n vs))

def reprMembers (host : Host) : Nat → Json.Members Str → Py (List Str)
  | _, [] => .ok []
  | n, (k, v) :: ms => do
      if n = 0 then .error .recursionError
      else
        let s ← repr host n v
        .ok ((reprStr host k ++ ':' :: ' ' :: s) :: (← reprMembers host n ms))

end

/-- `f"{d.get(k)}"`. -/
def formatValue (host : Host) : Option (Json Str) → Py Str
  | none => .ok "None".toList
  | some (.str s) => .ok s
  | some v => repr host host.repr_calls v

/-! ## Lines -/

inductive Label
  | status
  | stage
  | reason
  | v
  | type
  | actor
  | created
  | nonce
  | jcs
  | canonicalBodyBytes
  | d
  | idComputed
  | idReceived
  | h
  | locatorCount
  | parentCount
  | channelDescriptionCost
  | units
  | wrequired
  | target
  | pow
  | signature
  deriving DecidableEq

def Label.text : Label → String
  | status => "status"
  | stage => "stage"
  | reason => "reason"
  | v => "v"
  | type => "type"
  | actor => "actor"
  | created => "created"
  | nonce => "nonce"
  | jcs => "JCS(U)"
  | canonicalBodyBytes => "canonical_body_bytes"
  | d => "D"
  | idComputed => "id_computed"
  | idReceived => "id_received"
  | h => "H"
  | locatorCount => "locator_count"
  | parentCount => "parent_count"
  | channelDescriptionCost => "channel_description_cost"
  | units => "units"
  | wrequired => "Wrequired"
  | target => "target"
  | pow => "PoW"
  | signature => "signature"

/-- A label and a value. -/
abbrev Line := Label × Str

/-- `f"{label}: {value}"`. -/
def lineText (l : Line) : Str := l.1.text.toList ++ ':' :: ' ' :: l.2

/-- `"\n".join(lines) + "\n"`. -/
def diagnosticText (lines : List Line) : Str := ['\n'].intercalate (lines.map lineText) ++ ['\n']

/-- The code inside the second `try`; `lines` outlives an exception. -/
abbrev Diag := Logged Exn Line

def add (label : Label) (value : Str) : Diag Unit := tell (label, value)

/-- `add(label, d.get(k))`. -/
def addMember (host : Host) (label : Label) (d : Json.Members Str) (k : Str) : Diag Unit := do
  add label (← lift (formatValue host (d.lookup k)))

/-- `"PASS" if ok else "FAIL"`. -/
def verdict (ok : Bool) : Str := if ok then "PASS".toList else "FAIL".toList

/-! ## `run_diagnostic` -/

def workOk (h units : Nat) : Py Bool := do .ok (h ≤ (← targetForUnits units))

/-- `jcs_bytes.decode("utf-8")`. -/
def decodeJcs (jcs : Bytes) : Py Str := (Unicode.decodeUtf8 jcs).elim (.error .valueError) .ok

/-- The members that are reported before the schema is checked. -/
def reportMembers (host : Host) (obj u : Json.Members Str) : Diag Unit := do
  addMember host .v obj "v".toList
  addMember host .type u "type".toList
  addMember host .actor u "actor".toList
  addMember host .created u "created".toList
  addMember host .nonce u "nonce".toList

/-- The identifiers and the digest, and the test of `id`. -/
def reportIdentity (host : Host) (obj : Json.Members Str) (ident : Str) (digest : Bytes) :
    Diag Unit := do
  add .d (hex digest)
  add .idComputed ident
  addMember host .idReceived obj "id".toList
  add .h (fmt064x (fromBytesBig digest))
  lift (checkIdentity obj ident)

/-- The counts, the work and its test; the counts repeat those of `work_units`. -/
def reportWork (u : Json.Members Str) (jcs_len : Nat) (digest : Bytes) : Diag Unit := do
  let (loc, parents, cdc) ← lift (getItem u "type".toList >>= workCounts u)
  add .locatorCount (Nat.toDigits 10 loc)
  add .parentCount (Nat.toDigits 10 parents)
  add .channelDescriptionCost (Nat.toDigits 10 cdc)
  let units ← lift (workUnits u jcs_len)
  let tgt ← lift (targetForUnits units)
  add .units (Nat.toDigits 10 units)
  add .wrequired (Nat.toDigits 10 (units * UNIT_SCALE))
  add .target (fmt064x tgt)
  let pow_ok ← lift (workOk (fromBytesBig digest) units)
  add .pow (verdict pow_ok)
  lift (raiseIf (pow_ok = false) (.sppError .work .insufficientWork))

/-- The tests of `sig`. -/
def reportSignature (I : Imports) (obj u : Json.Members Str) (digest : Bytes) : Diag Unit := do
  let sig ← lift (stringMember obj "sig".toList (.sppError .signature .signature))
  lift (raiseIf (SIG sig = false) (.sppError .signature .signature))
  let sig_ok ← lift (do I.verify (← actorKey u) (← fromHex sig) digest)
  add .signature (verdict sig_ok)
  lift (raiseIf (sig_ok = false) (.sppError .signature .signature))

/-- What follows `check_schema`. -/
def reportBody (host : Host) (I : Imports) (obj u : Json.Members Str) : Diag Unit := do
  let jcs_bytes ← lift (I.canonicalizeBytes (.obj u))
  add .jcs (← lift (decodeJcs jcs_bytes))
  add .canonicalBodyBytes (Nat.toDigits 10 jcs_bytes.length)
  lift (raiseIf (jcs_bytes.length > MAX_JCS) (.sppError .length .jcsTooLarge))
  let (ident, digest) := sha256IdOf I jcs_bytes
  reportIdentity host obj ident digest
  reportWork u jcs_bytes.length digest
  reportSignature I obj u digest

/-- The second `try`, but for its last two lines. -/
def report (host : Host) (I : Imports) (obj : Json.Members Str) : Diag Unit := do
  lift (raiseIf (∃ x, (obj.lookup "v".toList).bind isFloat = some x ∧ x ≠ oneFloat)
    (.unsupportedError .version .unknownV))
  let u := reconstructU obj
  reportMembers host obj u
  lift (checkSchema u)
  reportBody host I obj u

/-- The last lines of a rejection. -/
def refusal (status stage reason : String) : List Line :=
  [(.status, status.toList), (.stage, stage.toList), (.reason, reason.toList)]

/-- `obj` of the first `try`. -/
def loadObject (data : Bytes) : Py (Json.Members Str) := do
  match ← JsonInput.parseUtf8 data with
  | .obj obj => .ok obj
  | _ => .error (.sppError .jsonInput (.json .notObject))

/-- The exit code and the text. -/
def runDiagnostic (host : Host) (I : Imports) (data : Bytes) : Py (Nat × Str) :=
  match loadObject data with
  | .error (.jsonInputError r) =>
      .ok (1, diagnosticText (refusal "INVALID" "json-input" (Server.jsonReason r)))
  | .error (.sppError _ r) =>
      .ok (1, diagnosticText (refusal "INVALID" "json-input" (Server.reason r)))
  | .error e => .error e
  | .ok obj =>
      match report host I obj with
      | ⟨.ok _, lines⟩ => .ok (0, diagnosticText (lines ++ [(.status, "VALID".toList)]))
      | ⟨.error (.unsupportedError s r), lines⟩ =>
          .ok (2, diagnosticText
            (lines ++ refusal "UNSUPPORTED" (Server.stage s) (Server.reason r)))
      | ⟨.error (.sppError s r), lines⟩ =>
          .ok (1, diagnosticText (lines ++ refusal "INVALID" (Server.stage s) (Server.reason r)))
      | ⟨.error e, _⟩ => .error e

/-! ## `verify_file` -/

def formatValid (info : Record) : Str :=
  "VALID\nid: ".toList ++ info.id ++ "\nunits: ".toList ++ Nat.toDigits 10 info.units ++
    "\ntarget: ".toList ++ info.target_hex ++ ['\n']

def formatInvalid (kind : String) (s : Stage) (r : Reason) : Str :=
  (kind ++ "\nstage: " ++ Server.stage s ++ "\nreason: " ++ Server.reason r ++ "\n").toList

/-- `type(e).__name__`. -/
def typeName : Exn → String
  | .valueError => "ValueError"
  | .overflowError => "OverflowError"
  | .zeroDivisionError => "ZeroDivisionError"
  | .assertionError => "AssertionError"
  | .keyError => "KeyError"
  | .indexError => "IndexError"
  | .typeError => "TypeError"
  | .attributeError => "AttributeError"
  | .operationalError => "OperationalError"
  | .recursionError => "RecursionError"
  | .badCursor _ => "BadCursor"
  | .jcsError => "JcsError"
  | .jsonInputError _ => "JsonInputError"
  | .sppError _ _ => "SppError"
  | .unsupportedError _ _ => "UnsupportedError"

/-- The exit code and the text. -/
def verifyFile (I : Imports) (data : Bytes) : Nat × Str :=
  match validateBytes I data with
  | .ok info => (0, formatValid info)
  | .error (.unsupportedError s r) => (2, formatInvalid "UNSUPPORTED" s r)
  | .error (.sppError s r) => (1, formatInvalid "INVALID" s r)
  | .error .recursionError => (3, "ERROR\nstage: internal\nreason: resource-exhausted\n".toList)
  | .error e => (3, ("ERROR\nstage: internal\nreason: " ++ typeName e ++ "\n").toList)

end SwarmPointer.Python.SppVerify
