import SwarmPointer.Json

/-!
# Protocol — what a valid assertion is

The rules of §§7A, 15–20 as predicates on the members of an object: the
closed schema, the identifier grammar, the maxima, the work condition and
the signature. Nothing here says in which order an implementation looks.

Three things are parameters: the canonical bytes, SHA-256, and the signature
rule as a predicate. So the same rules serve the three implementations, and a
defect in a signature check shows as a different predicate and not as a
different notion of validity. `body` is the object without `id` and `sig`, of
which everything but the schema of these two is a statement.
-/

namespace SwarmPointer.Protocol

open Json

variable {V : Type}

/-- The member `k` is there and satisfies `p`. -/
def Has (ms : List (Str × V)) (k : Str) (p : V → Prop) : Prop := ∃ v, ms.lookup k = some v ∧ p v

/-- The member `k` satisfies `p` if it is there. -/
def Optional (ms : List (Str × V)) (k : Str) (p : V → Prop) : Prop :=
  ∀ v, ms.lookup k = some v → p v

def Absent (ms : List (Str × V)) (k : Str) : Prop := ms.lookup k = none

/-! ## Identifiers and numbers -/

/-- A tag and 64 lower-case hexadecimal digits, those of `bs`. -/
def Tagged (tag : Str) (v : Json Str) (bs : Bytes) : Prop :=
  bs.length = 32 ∧ v = .str (tag ++ hex bs)

/-- `sha256:` and 64 digits. -/
def IsSha256Id (v : Json Str) : Prop := ∃ bs, Tagged "sha256:".toList v bs

/-- The decimal numeral of a number up to `2^64 - 1`, without leading zeros. -/
def IsNonce (v : Json Str) : Prop := ∃ n ≤ 2 ^ 64 - 1, v = .str (Nat.toDigits 10 n)

/-- An integral number from 0 to `2^53 - 1`. -/
def IsCreated (v : Json Str) : Prop :=
  ∃ x : Binary64, v = .num x ∧ x.isInteger = true ∧ 0 ≤ x.toInt ∧ x.toInt ≤ 2 ^ 53 - 1

/-- The number 1. -/
def one : Binary64 := Binary64.ofNat53 1 Binary64.one_fits

/-! ## The schema -/

def IsLocator (v : Json Str) : Prop := ∃ s, v = .str s ∧ (Unicode.utf8 s).length ≤ 8192

def AreLocators (v : Json Str) : Prop :=
  ∃ ls, v = .arr ls ∧ ls.length ≤ 256 ∧ ∀ l ∈ ls, IsLocator l

/-- A reference object: a hash and locators, nothing else. -/
def IsRef (v : Json Str) : Prop :=
  ∃ ms, v = .obj ms ∧ (∀ m ∈ ms, m.1 = "hash".toList ∨ m.1 = "locators".toList) ∧
    Has ms "hash".toList IsSha256Id ∧ Has ms "locators".toList AreLocators

def AreParents (v : Json Str) : Prop :=
  ∃ ps, v = .arr ps ∧ ps.length ≤ 1024 ∧ ∀ p ∈ ps, IsSha256Id p

def IsPointer (u : Members Str) : Prop :=
  u.lookup "type".toList = some (.str "pointer".toList) ∧ Absent u "descriptor".toList ∧
    Has u "channel".toList IsSha256Id ∧ Has u "ref".toList IsRef ∧
    Optional u "parents".toList AreParents

def IsChannel (u : Members Str) : Prop :=
  u.lookup "type".toList = some (.str "channel".toList) ∧ Absent u "channel".toList ∧
    Absent u "parents".toList ∧ Absent u "ref".toList ∧ Optional u "descriptor".toList IsRef

/-- Everything the schema asks of the members it knows. -/
structure Shape (u : Members Str) : Prop where
  version : u.lookup "v".toList = some (.num one)
  actor : Has u "actor".toList fun v => ∃ key, Tagged "ed25519:".toList v key
  created : Has u "created".toList IsCreated
  nonce : Has u "nonce".toList IsNonce
  ext : Optional u "ext".toList fun v => ∃ ms, v = .obj ms
  kind : IsPointer u ∨ IsChannel u

/-- The members of the schema. -/
def schemaNames : List Str :=
  ["v".toList, "type".toList, "actor".toList, "created".toList, "nonce".toList, "channel".toList,
    "ref".toList, "parents".toList, "descriptor".toList, "ext".toList]

/-- The closed schema: the shape, and no member beyond it. -/
structure Schema (u : Members Str) : Prop extends Shape u where
  closed : ∀ m ∈ u, m.1 ∈ schemaNames

/-! ## Work -/

/-- The number of locators of a reference object. -/
def locatorCount (v : Option (Json Str)) : Nat :=
  match v with
  | some (.obj ms) =>
      match ms.lookup "locators".toList with
      | some (.arr ls) => ls.length
      | _ => 0
  | _ => 0

/-- The number of elements of an array. -/
def arrayLength (v : Option (Json Str)) : Nat :=
  match v with
  | some (.arr vs) => vs.length
  | _ => 0

/-- The value of `type`. -/
def typeIs (u : Members Str) (t : Str) : Bool :=
  match u.lookup "type".toList with
  | some (.str s) => s = t
  | _ => false

/-- Work units: one, one for each KiB begun, one for each locator and each
parent, and sixteen for a channel description. -/
def units (u : Members Str) (size : Nat) : Nat :=
  1 + (size + 1023) / 1024 +
    if typeIs u "pointer".toList then
      locatorCount (u.lookup "ref".toList) + arrayLength (u.lookup "parents".toList)
    else locatorCount (u.lookup "descriptor".toList) + 16

/-- The greatest hash that pays for `n` units. -/
def target (n : Nat) : Nat := (2 ^ 256 - 1) / (n * 65536)

/-! ## Validity -/

/-- The assertion without its identifier and signature. -/
def body (obj : Members Str) : Members Str :=
  obj.filter fun m => m.1 ∉ ["id".toList, "sig".toList]

/-- The identifier of a digest. -/
def idText (d : Digest) : Str := "sha256:".toList ++ hex d.1

/-- A digest as a number. -/
def digestValue (d : Digest) : Nat := d.1.foldl (fun n b => 256 * n + b.toNat) 0

section
variable (canon : Json Str → Bytes) (sha256 : Bytes → Digest) (verifies : Bytes → Bytes → Bytes → Prop)

/-- The canonical size of the body. -/
def size (obj : Members Str) : Nat := (canon (.obj (body obj))).length

/-- The digest of the body. -/
def digest (obj : Members Str) : Digest := sha256 (canon (.obj (body obj)))

/-- The work units of an assertion. -/
def unitsOf (obj : Members Str) : Nat := units (body obj) (size canon obj)

/-- **A protocol-valid assertion.** -/
structure Valid (obj : Members Str) : Prop where
  schema : Schema (body obj)
  size : size canon obj ≤ 1048576
  identity : obj.lookup "id".toList = some (.str (idText (digest canon sha256 obj)))
  work : digestValue (digest canon sha256 obj) * unitsOf canon obj * 65536 ≤ 2 ^ 256 - 1
  signature : ∃ key sig, obj.lookup "sig".toList = some (.str (hex sig)) ∧ sig.length = 64 ∧
    Has (body obj) "actor".toList (fun v => Tagged "ed25519:".toList v key) ∧
    verifies key sig (digest canon sha256 obj).1

/-- An assertion of another protocol version. -/
def OtherVersion (obj : Members Str) : Prop :=
  Has obj "v".toList fun v => ∃ x, v = .num x ∧ x ≠ one

end

end SwarmPointer.Protocol
