import SwarmPointer.Lib.Raises
import SwarmPointer.Python.Jcs
import SwarmPointer.Python.JsonInput

/-!
# `implementations/python/protocol.py`

The §7A schema, the work rule, the §20 validator and the miner. What the
module imports is gathered in `Imports`; `hashlib.sha256` returns 32 bytes
by type. The `detail` texts of the exceptions are left out.

Every `raise` of the source is a `raiseIf` or an error at its place, with its
stage and reason, in the order of the source. `mine_and_sign` stops at the end
of the range of nonces, so the number of its turns is known from the start.
-/

namespace SwarmPointer.Python.Protocol

open Except

/-- What `protocol.py` takes from other modules. -/
structure Imports where
  canonicalize : Json Str → Py Str
  canonicalizeBytes : Json Str → Py Bytes
  sha256 : Bytes → Digest
  verify : Bytes → Bytes → Bytes → Py Bool
  sign : Bytes → Bytes → Py Bytes

def MAX_NONCE : Nat := 1 <<< 64 - 1

def MAX_CREATED : Nat := 9007199254740991

def MAX_JCS : Nat := 1048576

def MAX_LOCATORS : Nat := 256

def MAX_LOCATOR_BYTES : Nat := 8192

def MAX_PARENTS : Nat := 1024

def UNIT_SCALE : Nat := 65536

def MAX_H : Nat := 1 <<< 256 - 1

def CORE : List Str :=
  ["v".toList, "type".toList, "actor".toList, "created".toList, "nonce".toList, "channel".toList,
    "ref".toList, "parents".toList, "descriptor".toList, "id".toList, "sig".toList, "ext".toList]

/-- `[0-9a-f]`. -/
def isLowerHex (c : Char) : Bool := isDigit c || ('a' ≤ c && c ≤ 'f')

/-- A tag and 64 lower-case hexadecimal digits. -/
def taggedHex (tag s : Str) : Bool :=
  s.take tag.length = tag && (s.drop tag.length).length = 64 && (s.drop tag.length).all isLowerHex

/-- `SHA256_ID.fullmatch`. -/
def SHA256_ID (s : Str) : Bool := taggedHex "sha256:".toList s

/-- `ACTOR_ID.fullmatch`. -/
def ACTOR_ID (s : Str) : Bool := taggedHex "ed25519:".toList s

/-- `SIG.fullmatch`. -/
def SIG (s : Str) : Bool := s.length = 128 && s.all isLowerHex

/-- `NONCE.fullmatch`. -/
def NONCE : Str → Bool
  | ['0'] => true
  | c :: s => isDigit c && c ≠ '0' && s.length ≤ 19 && s.all isDigit
  | [] => false

def schemaError {α : Type} : Py α := .error (.sppError .schema .schema)

/-- `k in d`. -/
def contains {V : Type} (d : List (Str × V)) (k : Str) : Bool := (d.lookup k).isSome

/-- `isinstance(n, float)`. -/
def isFloat : Json Str → Option Binary64
  | .num x => some x
  | _ => none

/-- `1.0`. -/
def oneFloat : Binary64 := Binary64.ofNat53 1 Binary64.one_fits

def reconstructU (obj : Json.Members Str) : Json.Members Str :=
  obj.filter fun m => m.1 ∉ ["id".toList, "sig".toList]

/-- `is_int_value`, with the float it is about. -/
def isIntValue : Json Str → Option Binary64
  | .num n => if n.isInteger then some n else none
  | _ => none

/-- `sha256_id_of`. -/
def sha256IdOf (I : Imports) (jcs : Bytes) : Str × Bytes :=
  let d := (I.sha256 jcs).1
  ("sha256:".toList ++ hex d, d)

/-- `a / b` on integers: the correctly rounded double. -/
def trueDiv (a b : Nat) : Py Binary64 :=
  (Binary64.ofQuotient false (a * Binary64.one) b).elim (.error .overflowError) .ok

/-- `math.ceil` of a double that is not negative. -/
def ceil (x : Binary64) : Nat := (x.mag + (Binary64.one - 1)) / Binary64.one

/-- `len(v)`. -/
def len : Json Str → Py Nat
  | .str s => .ok s.length
  | .arr vs => .ok vs.length
  | .obj ms => .ok ms.length
  | _ => .error .typeError

/-- `v[k]` on a value that should be a dictionary. -/
def subscript (v : Json Str) (k : Str) : Py (Json Str) :=
  match v with
  | .obj ms => getItem ms k
  | _ => .error .typeError

/-- `len(u[k]["locators"])`. -/
def lenLocators (u : Json.Members Str) (k : Str) : Py Nat := do
  len (← subscript (← getItem u k) "locators".toList)

/-- `len(u["parents"]) if "parents" in u else 0`. -/
def lenParents (u : Json.Members Str) : Py Nat :=
  if contains u "parents".toList then do len (← getItem u "parents".toList) else .ok 0

/-- `len(u["descriptor"]["locators"]) if "descriptor" in u else 0`. -/
def lenDescriptor (u : Json.Members Str) : Py Nat :=
  if contains u "descriptor".toList then lenLocators u "descriptor".toList else .ok 0

/-- `loc`, `parents` and `extra` of `work_units`. -/
def workCounts (u : Json.Members Str) (t : Json Str) : Py (Nat × Nat × Nat) :=
  if t matches .str ['p', 'o', 'i', 'n', 't', 'e', 'r'] then do
    .ok (← lenLocators u "ref".toList, ← lenParents u, 0)
  else if t matches .str ['c', 'h', 'a', 'n', 'n', 'e', 'l'] then do
    .ok (← lenDescriptor u, 0, 16)
  else .error (.sppError .schema .unknownType)

def workUnits (u : Json.Members Str) (jcs_len : Nat) : Py Nat := do
  let (loc, parents, extra) ← workCounts u (← getItem u "type".toList)
  let q ← trueDiv jcs_len 1024
  .ok (1 + ceil q + loc + parents + extra)

def targetForUnits (units : Nat) : Py Nat :=
  if units * UNIT_SCALE = 0 then .error .zeroDivisionError else .ok (MAX_H / (units * UNIT_SCALE))

/-- `_check_sha256_id`; the stage is always the default. -/
def checkSha256Id (value : Json Str) : Py Unit :=
  match value with
  | .str s => raiseIf (SHA256_ID s = false) (.sppError .identifier .identifier)
  | _ => .error (.sppError .identifier .identifier)

/-- One turn of the loop over the locators. -/
def checkLocator (loc : Json Str) : Py Unit :=
  match loc with
  | .str s =>
      raiseIf ((Unicode.utf8 s).length > MAX_LOCATOR_BYTES) (.sppError .length .locatorTooLong)
  | _ => schemaError

/-- `_check_ref`. -/
def checkRef (obj : Json Str) : Py Unit :=
  match obj with
  | .obj ms => do
      raiseIf (¬ ((∀ m ∈ ms, m.1 = "hash".toList ∨ m.1 = "locators".toList) ∧
        contains ms "hash".toList ∧ contains ms "locators".toList)) (.sppError .schema .schema)
      checkSha256Id (← getItem ms "hash".toList)
      match ← getItem ms "locators".toList with
      | .arr locs => do
          raiseIf (locs.length > MAX_LOCATORS) (.sppError .length .tooManyLocators)
          each checkLocator locs
      | _ => schemaError
  | _ => schemaError

/-- The version test of `check_schema`. -/
def checkVersion (v : Json Str) : Py Unit :=
  match isFloat v with
  | none => schemaError
  | some x => raiseIf (x ≠ oneFloat) (.unsupportedError .version .unknownV)

/-- The test of `actor`. -/
def checkActor (actor : Json Str) : Py Unit :=
  match actor with
  | .str s => raiseIf (ACTOR_ID s = false) (.sppError .identifier .identifier)
  | _ => .error (.sppError .identifier .identifier)

/-- The tests of `created`. -/
def checkCreated (created : Json Str) : Py Unit :=
  match isIntValue created with
  | none => .error (.sppError .created .created)
  | some n => raiseIf (n.toInt < 0 ∨ n.toInt > MAX_CREATED) (.sppError .created .created)

/-- The tests of `nonce`. -/
def checkNonce (nonce : Json Str) : Py Unit :=
  match nonce with
  | .str s => do
      raiseIf (NONCE s = false) (.sppError .nonce .nonce)
      raiseIf ((← int s) > MAX_NONCE) (.sppError .nonce .nonce)
  | _ => .error (.sppError .nonce .nonce)

/-- The test of `ext`. -/
def checkExt (u : Json.Members Str) : Py Unit := do
  if contains u "ext".toList then
    match ← getItem u "ext".toList with
    | .obj _ => .ok ()
    | _ => schemaError
  else .ok ()

/-- The tests of `parents`. -/
def checkParents (u : Json.Members Str) : Py Unit := do
  if contains u "parents".toList then
    match ← getItem u "parents".toList with
    | .arr parents => do
        raiseIf (parents.length > MAX_PARENTS) (.sppError .length .tooManyParents)
        each checkSha256Id parents
    | _ => schemaError
  else .ok ()

/-- The half of `check_schema` for pointers. -/
def checkPointer (u : Json.Members Str) : Py Unit := do
  raiseIf (contains u "descriptor".toList ∨ ¬ contains u "channel".toList ∨
    ¬ contains u "ref".toList) (.sppError .schema .schema)
  checkSha256Id (← getItem u "channel".toList)
  checkRef (← getItem u "ref".toList)
  checkParents u

/-- The half of `check_schema` for channels. -/
def checkChannel (u : Json.Members Str) : Py Unit := do
  raiseIf (∃ k ∈ ["channel".toList, "parents".toList, "ref".toList], contains u k)
    (.sppError .schema .schema)
  if contains u "descriptor".toList then checkRef (← getItem u "descriptor".toList) else .ok ()

def checkSchema (u : Json.Members Str) : Py Unit := do
  raiseIf (∃ m ∈ u, m.1 ∉ CORE) (.sppError .schema .schema)
  raiseIf (∃ k ∈ ["v".toList, "type".toList, "actor".toList, "created".toList, "nonce".toList],
    ¬ contains u k) (.sppError .schema .schema)
  checkVersion (← getItem u "v".toList)
  let t ← getItem u "type".toList
  raiseIf (¬ (t matches .str ['c', 'h', 'a', 'n', 'n', 'e', 'l'] ∨
    t matches .str ['p', 'o', 'i', 'n', 't', 'e', 'r'])) (.sppError .schema .unknownType)
  checkActor (← getItem u "actor".toList)
  checkCreated (← getItem u "created".toList)
  checkNonce (← getItem u "nonce".toList)
  checkExt u
  if t matches .str ['p', 'o', 'i', 'n', 't', 'e', 'r'] then checkPointer u else checkChannel u

/-- What `validate_object` returns. -/
structure Record where
  id : Str
  units : Nat
  target_hex : Str
  jcs : Str
  sig : Str
  digest_hex : Str
  deriving DecidableEq

/-- `f"{n:064x}"`. -/
def fmt064x (n : Nat) : Str := (Nat.toDigits 16 n).leftpad 64 '0'

/-- `d[k]` after the tests that `k` is there and holds a string. -/
def stringMember (d : Json.Members Str) (k : Str) (e : Exn) : Py Str :=
  match d.lookup k with
  | some (.str s) => .ok s
  | _ => .error e

/-- A value that string methods are called on. -/
def asStr : Json Str → Py Str
  | .str s => .ok s
  | _ => .error .typeError

/-- `s.split(":", 1)[1]`. -/
def afterColon (s : Str) : Py Str :=
  if ':' ∈ s then .ok ((s.dropWhile (· ≠ ':')).drop 1) else .error .indexError

/-- `bytes.fromhex(u["actor"].split(":", 1)[1])`. -/
def actorKey (u : Json.Members Str) : Py Bytes := do
  fromHex (← afterColon (← asStr (← getItem u "actor".toList)))

/-- The tests of `id`. -/
def checkIdentity (obj : Json.Members Str) (ident : Str) : Py Unit := do
  let id ← stringMember obj "id".toList (.sppError .identifier .missingId)
  raiseIf (id ≠ ident) (.sppError .identity .idMismatch)

/-- The test of the work, with `units` and `tgt`. -/
def checkWork (u : Json.Members Str) (jcs_len : Nat) (digest : Bytes) : Py (Nat × Nat) := do
  let units ← workUnits u jcs_len
  let tgt ← targetForUnits units
  raiseIf (fromBytesBig digest > tgt) (.sppError .work .insufficientWork)
  .ok (units, tgt)

/-- The tests of `sig`, with `sig`. -/
def checkSignature (I : Imports) (obj u : Json.Members Str) (digest : Bytes) : Py Str := do
  let sig ← stringMember obj "sig".toList (.sppError .signature .signature)
  raiseIf (SIG sig = false) (.sppError .signature .signature)
  let ok ← I.verify (← actorKey u) (← fromHex sig) digest
  raiseIf (ok = false) (.sppError .signature .signature)
  .ok sig

/-- What follows `check_schema` in `validate_object`. -/
def validateBody (I : Imports) (obj u : Json.Members Str) : Py Record := do
  let jcs ← I.canonicalizeBytes (.obj u)
  raiseIf (jcs.length > MAX_JCS) (.sppError .length .jcsTooLarge)
  let (ident, digest) := sha256IdOf I jcs
  checkIdentity obj ident
  let (units, tgt) ← checkWork u jcs.length digest
  let sig ← checkSignature I obj u digest
  .ok ⟨ident, units, fmt064x tgt, ← I.canonicalize (.obj u), sig, hex digest⟩

def validateObject (I : Imports) (obj : Json.Members Str) : Py Record := do
  raiseIf (∃ x, (obj.lookup "v".toList).bind isFloat = some x ∧ x ≠ oneFloat)
    (.unsupportedError .version .unknownV)
  let u := reconstructU obj
  checkSchema u
  validateBody I obj u

def validateBytes (I : Imports) (data : Bytes) : Py Record :=
  match JsonInput.parseObject data with
  | .error (.jsonInputError r) => .error (.sppError .jsonInput (.json r))
  | .error e => .error e
  | .ok obj => validateObject I obj

/-- `while nonce <= MAX_NONCE`, with the turns that are left. -/
def mineLoop (I : Imports) (body : Json.Members Str) (private_key : Bytes) :
    Nat → Nat → Py (Json.Members Str)
  | 0, _ => .error (.sppError .work .insufficientWork)
  | turns + 1, nonce => do
      let cand := body ++ [("nonce".toList, .str (Nat.toDigits 10 nonce))]
      let jcs ← I.canonicalizeBytes (.obj cand)
      raiseIf (jcs.length > MAX_JCS) (.sppError .length .jcsTooLarge)
      let units ← workUnits cand jcs.length
      let (ident, digest) := sha256IdOf I jcs
      if fromBytesBig digest ≤ (← targetForUnits units) then do
        let sig ← I.sign private_key digest
        .ok (setItem (setItem cand "id".toList (.str ident)) "sig".toList (.str (hex sig)))
      else mineLoop I body private_key turns (nonce + 1)

/-- `mine_and_sign` from a start that is not negative. -/
def mineAndSign (I : Imports) (u : Json.Members Str) (private_key : Bytes) (start : Nat) :
    Py (Json.Members Str) := do
  checkSchema (setItem u "nonce".toList ((u.lookup "nonce".toList).getD (.str ['0'])))
  let body := u.filter fun m => m.1 ≠ "nonce".toList
  mineLoop I body private_key (MAX_NONCE + 1 - start) start

end SwarmPointer.Python.Protocol
