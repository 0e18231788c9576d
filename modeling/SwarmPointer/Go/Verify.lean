import SwarmPointer.Go.Value

/-!
# `implementations/go/verify.go` and `ident.go`

The §20 pipeline in Go. A `Value` is a `Json Bytes`, a `*Value` that may be
nil an `Option`, and reading through a nil pointer is a panic. `sha256.Sum256`
returns 32 bytes by type, and the signature check is a parameter. The counts
stay far below `2^63`, so `int64` is `Nat`.

A stage returns, ends the verdict (`fail` with its stage and reason) or panics.
What the verdict collects on the way (`D`, the counts, the target, the
canonical body) is kept in it from the stage that sets it, whatever stage ends
the run.
-/

namespace SwarmPointer.Go

open Except

/-- `*p`. -/
def deref {E α : Type} (p : Option α) : Except (Stop E) α := p.elim (.error .panic) .ok

/-- `s[n:]`. -/
def sliceFrom {E : Type} (s : Bytes) (n : Nat) : Except (Stop E) Bytes :=
  if s.length < n then .error .panic else .ok (s.drop n)

/-- `hex.DecodeString`, the error ignored: the bytes before the first fault. -/
def decodeHex : Bytes → Bytes
  | a :: b :: s =>
      if Value.isHex a && Value.isHex b then
        UInt8.ofNat (16 * Value.hexVal a + Value.hexVal b) :: decodeHex s
      else []
  | _ => []

/-- `big.Int.Bytes`: big-endian, without leading zeros. -/
def bigBytes (n : Nat) : Bytes := ((Nat.digits 256 n).map UInt8.ofNat).reverse

/-- `x < y` on `float64`. -/
def less (x y : Binary64) : Bool :=
  (if x.neg then -(x.mag : Int) else x.mag) < (if y.neg then -(y.mag : Int) else y.mag)

/-! ## Values -/

/-- `v.Get(name)`, also on nil. -/
def get (v : Option (Json Bytes)) (name : Str) : Option (Json Bytes) :=
  match v with
  | some (.obj ms) => ms.lookup (lit name)
  | _ => none

/-- `v.Has(name)`. -/
def has (v : Option (Json Bytes)) (name : Str) : Bool := (get v name).isSome

/-- `v.Str`, empty for the other kinds. -/
def str : Json Bytes → Bytes
  | .str s => s
  | _ => []

/-- `v.Num`, zero for the other kinds. -/
def num : Json Bytes → Binary64
  | .num x => x
  | _ => Binary64.zero

/-- `v.Arr`, nil for the other kinds. -/
def arr : Json Bytes → List (Json Bytes)
  | .arr vs => vs
  | _ => []

def isString : Json Bytes → Bool
  | .str _ => true
  | _ => false

def isNumber : Json Bytes → Bool
  | .num _ => true
  | _ => false

def isArray : Json Bytes → Bool
  | .arr _ => true
  | _ => false

def isObject : Json Bytes → Bool
  | .obj _ => true
  | _ => false

namespace Ident

/-! ## `ident.go` -/

def isLowerHex (s : Bytes) : Bool :=
  s.all fun c => (0x30 ≤ c && c ≤ 0x39) || (0x61 ≤ c && c ≤ 0x66)

/-- A tag and 64 lower-case digits. -/
def isTagged (tag s : Bytes) : Bool :=
  s.length = tag.length + 64 && s.take tag.length = tag && isLowerHex (s.drop tag.length)

def isSHA256ID (s : Bytes) : Bool := isTagged (lit "sha256:".toList) s

def isActorID (s : Bytes) : Bool := isTagged (lit "ed25519:".toList) s

def isSigHex (s : Bytes) : Bool := s.length = 128 && isLowerHex s

def isDigits (s : Bytes) : Bool := s.all Value.isDigit

/-- Strings are compared byte by byte. -/
def isNonce (s : Bytes) : Bool :=
  if s = lit ['0'] then true
  else
    match s with
    | [] => false
    | c :: _ =>
        if s.length > 20 then false
        else if c < 0x31 || 0x39 < c then false
        else if !isDigits s then false
        else if s.length < 20 then true
        else s ≤ lit "18446744073709551615".toList

/-- Every float of a parsed value is finite. -/
def isBinary64Integer (x : Binary64) : Bool := x.isInteger

/-- One turn of the loop over the members of a reference. -/
def isReferenceMember (m : Bytes × Json Bytes) : Bool :=
  if m.1 = lit "hash".toList then isString m.2
  else if m.1 = lit "locators".toList then isArray m.2 && (arr m.2).all isString
  else false

def validateReferenceObject (v : Option (Json Bytes)) : Bool :=
  match v with
  | some (.obj ms) => ms.length = 2 && ms.all isReferenceMember &&
      has v "hash".toList && has v "locators".toList
  | _ => false

/-- The §5 reason tokens. -/
inductive Reason
  | parse (e : ParseError)
  | unknownV | schema | unknownType | identifier | nonce | created | jcsTooLarge
  | tooManyLocators | locatorTooLong | tooManyParents | missingId | idMismatch
  | insufficientWork | signature
  deriving DecidableEq

/-- A pass of `ident.go`; its token is the error, `""` the return. -/
abbrev Pass := Except (Stop Reason) Unit

/-- The reserved top-level names of a body. -/
def names : List Str :=
  ["v".toList, "type".toList, "actor".toList, "created".toList, "nonce".toList,
    "channel".toList, "ref".toList, "parents".toList, "descriptor".toList, "ext".toList]

/-- `u.Get(name).Kind != kind`. -/
def requireKind (u : Option (Json Bytes)) (name : Str) (kind : Json Bytes → Bool) : Pass := do
  let m ← deref (get u name)
  raiseIf (kind m = false) (.err .schema)

/-- The case `"pointer"` of `validateSchema`. -/
def pointerSchema (u : Option (Json Bytes)) : Pass := do
  raiseIf (has u "descriptor".toList) (.err .schema)
  raiseIf ((get u "channel".toList).all fun m => isString m = false) (.err .schema)
  raiseIf (validateReferenceObject (get u "ref".toList) = false) (.err .schema)
  match get u "parents".toList with
  | none => .ok ()
  | some p => do
      raiseIf (isArray p = false) (.err .schema)
      raiseIf ((arr p).all isString = false) (.err .schema)

/-- The case `"channel"` of `validateSchema`. -/
def channelSchema (u : Option (Json Bytes)) : Pass := do
  raiseIf (has u "channel".toList ∨ has u "parents".toList ∨ has u "ref".toList) (.err .schema)
  match get u "descriptor".toList with
  | none => .ok ()
  | some d => raiseIf (validateReferenceObject (some d) = false) (.err .schema)

/-- `validateSchema`, on a body that is an object. -/
def validateSchema (ms : Json.Members Bytes) (typ : Bytes) : Pass := do
  let u := some (.obj ms)
  raiseIf (ms.any fun m => names.all fun k => m.1 ≠ lit k) (.err .schema)
  raiseIf (∃ k ∈ ["v".toList, "type".toList, "actor".toList, "created".toList, "nonce".toList],
    has u k = false) (.err .schema)
  requireKind u "v".toList isNumber
  requireKind u "type".toList isString
  requireKind u "actor".toList isString
  requireKind u "created".toList isNumber
  requireKind u "nonce".toList isString
  raiseIf ((get u "ext".toList).any fun m => isObject m = false) (.err .schema)
  if typ = lit "pointer".toList then pointerSchema u
  else if typ = lit "channel".toList then channelSchema u
  else .error (.err .unknownType)

/-- `v == nil || !isSHA256ID(v.Str)`. -/
def requireID (v : Option (Json Bytes)) : Pass :=
  raiseIf (v.all fun v => isSHA256ID (str v) = false) (.err .identifier)

def validateIdentifiers (ms : Json.Members Bytes) (typ : Bytes) : Pass := do
  let u := some (.obj ms)
  if typ = lit "pointer".toList then do
    requireID (get u "channel".toList)
    requireID (get (get u "ref".toList) "hash".toList)
    match get u "parents".toList with
    | none => .ok ()
    | some p => raiseIf ((arr p).all (fun el => isSHA256ID (str el)) = false) (.err .identifier)
  else if typ = lit "channel".toList then
    match get u "descriptor".toList with
    | none => .ok ()
    | some d => requireID (get (some d) "hash".toList)
  else .ok ()

end Ident

namespace Verify

open Ident

/-! ## `verify.go` -/

/-- The statuses. `StatusError` and the stage `internal` are for a panic that
`main.go` recovers from; nothing in `verify.go` sets them. -/
inductive Status
  | valid | invalid | unsupported | error
  deriving DecidableEq

inductive Stage
  | jsonInput | version | schema | identifier | nonce | created | length | identity | work
  | signature | internal
  deriving DecidableEq

/-- `Verdict` with its zero values; `HasJCS`, `HasUnits` and `SigKnown` say
whether the fields they go with are set. -/
structure Verdict where
  status : Status
  stage : Option Stage
  reason : Option Reason
  jcs : Option Bytes
  d : Bytes
  idComputed : Bytes
  hHex : Bytes
  units : Option Nat
  wRequired : Nat
  target : Bytes
  powPass : Bool
  sigPass : Option Bool

def Verdict.zero : Verdict :=
  ⟨.valid, none, none, none, [], [], [], none, 0, [], false, none⟩

/-- A step of the pipeline: an early return carries the verdict. -/
abbrev Step := Except (Stop Verdict)

/-- `fail`. -/
def fail {α : Type} (vd : Verdict) (stage : Stage) (reason : Reason) : Step α :=
  .error (.err { vd with status := .invalid, stage := some stage, reason := some reason })

/-- `if bad { return fail(vd, stage, reason) }`. -/
def failIf (bad : Bool) (vd : Verdict) (stage : Stage) (reason : Reason) : Step Unit :=
  if bad then fail vd stage reason else .ok ()

/-- `if r := pass; r != "" { return fail(vd, stage, r) }`. -/
def failOn (vd : Verdict) (stage : Stage) : Pass → Step Unit
  | .ok () => .ok ()
  | .error (.err r) => fail vd stage r
  | .error .panic => .error .panic

def maxCanonicalBody : Nat := 1048576

def maxLocatorCount : Nat := 256

def maxLocatorBytes : Nat := 8192

def maxParentCount : Nat := 1024

def workUnit : Nat := 65536

def channelDescriptionCost : Nat := 16

theorem maxCreated_fits : 9007199254740991 ≤ 2 ^ 53 := by decide

def maxCreated : Binary64 := Binary64.ofNat53 9007199254740991 maxCreated_fits

def bigMax : Nat := 1 <<< 256 - 1

/-- `float64(1)`. -/
def oneFloat : Binary64 := Binary64.ofNat53 1 Binary64.one_fits

/-- The locators of the reference `name`. -/
def locatorsOf (u : Option (Json Bytes)) (name : Str) : List Bytes :=
  match get (get u name) "locators".toList with
  | none => []
  | some l => (arr l).map str

/-- `locCount`, `parentCount` and `locators`; the reason is always empty. -/
def structuralCounts (ms : Json.Members Bytes) (typ : Bytes) : Nat × Nat × List Bytes :=
  let u := some (.obj ms)
  if typ = lit "pointer".toList then
    let locators := locatorsOf u "ref".toList
    (locators.length, ((get u "parents".toList).map fun p => (arr p).length).getD 0, locators)
  else if typ = lit "channel".toList then
    let locators := locatorsOf u "descriptor".toList
    (locators.length, 0, locators)
  else (0, 0, [])

/-- The index `32 - len(b)` must not be negative. -/
def leftPad32 (b : Bytes) : Step Bytes :=
  if b.length > 32 then .error .panic else .ok (List.replicate (32 - b.length) 0 ++ b)

/-- `big.Int.Div`. -/
def bigDiv (a b : Nat) : Step Nat := if b = 0 then .error .panic else .ok (a / b)

section
variable (sha256 : Bytes → Digest) (sppVerify : Bytes → Bytes → Bytes → Bool)

/-- Step 2: the version and the type. -/
def classify (vd : Verdict) (root : Option (Json Bytes)) : Step Bytes := do
  match get root "v".toList with
  | some (.num x) =>
      if x ≠ oneFloat then
        .error (.err { vd with
          status := .unsupported, stage := some .version, reason := some .unknownV })
      else do
        let typ := ((get root "type".toList).map str).getD []
        failIf (typ ≠ lit "channel".toList ∧ typ ≠ lit "pointer".toList) vd .schema .unknownType
        .ok typ
  | _ => fail vd .version .schema

/-- Step 3: the body. -/
def bodyOf (root : Json.Members Bytes) : Json.Members Bytes :=
  root.filter fun m => m.1 ≠ lit "id".toList ∧ m.1 ≠ lit "sig".toList

/-- Steps 4, 5 and 5b; the text of `actor`. -/
def checkFields (vd : Verdict) (u : Json.Members Bytes) (typ : Bytes) : Step Bytes := do
  failOn vd .schema (validateSchema u typ)
  failOn vd .identifier (validateIdentifiers u typ)
  let actor := str (← deref (get (some (.obj u)) "actor".toList))
  failIf (!isActorID actor) vd .identifier .identifier
  let nonce := str (← deref (get (some (.obj u)) "nonce".toList))
  failIf (!isNonce nonce) vd .nonce .nonce
  let created := num (← deref (get (some (.obj u)) "created".toList))
  failIf (!isBinary64Integer created || less created Binary64.zero || less maxCreated created)
    vd .created .created
  .ok actor

/-- Step 6: the canonical body and the maxima. -/
def checkMaxima (vd : Verdict) (jcs : Bytes) (counts : Nat × Nat × List Bytes) : Step Unit := do
  failIf (jcs.length > maxCanonicalBody) vd .length .jcsTooLarge
  failIf (counts.1 > maxLocatorCount) vd .length .tooManyLocators
  failIf (counts.2.2.any fun loc => loc.length > maxLocatorBytes) vd .length .locatorTooLong
  failIf (counts.2.1 > maxParentCount) vd .length .tooManyParents

/-- Step 7: the transmitted `id`. -/
def checkID (vd : Verdict) (root : Option (Json Bytes)) : Step Unit := do
  match get root "id".toList with
  | some (.str id) => do
      failIf (!isSHA256ID id) vd .identifier .identifier
      failIf (id ≠ vd.idComputed) vd .identity .idMismatch
  | _ => fail vd .identity .missingId

/-- Step 8: the work. -/
def checkWork (vd : Verdict) (typ jcs : Bytes) (counts : Nat × Nat × List Bytes) :
    Step Verdict := do
  let units := 1 + (jcs.length + 1023) / 1024 + counts.1 + counts.2.1 +
    if typ = lit "channel".toList then channelDescriptionCost else 0
  let wreq := units * workUnit
  let target ← bigDiv bigMax wreq
  let vd := { vd with
    units := some units, wRequired := wreq, target := ← leftPad32 (bigBytes target),
    hHex := lit (hex vd.d), powPass := Python.fromBytesBig vd.d ≤ target }
  failIf (!vd.powPass) vd .work .insufficientWork
  .ok vd

/-- Step 9: the signature. -/
def checkSignature (vd : Verdict) (root : Option (Json Bytes)) (actor : Bytes) :
    Step Verdict := do
  match get root "sig".toList with
  | some (.str sig) => do
      failIf (!isSigHex sig) { vd with sigPass := some false } .signature .signature
      let abytes := decodeHex (← sliceFrom actor 8)
      let ok := sppVerify abytes (decodeHex sig) vd.d
      let vd := { vd with sigPass := some ok }
      failIf (!ok) vd .signature .signature
      .ok vd
  | _ => fail { vd with sigPass := some false } .signature .signature

/-- The pipeline after the parser. A canonicaliser out of turns would be a
panic. -/
def pipeline (root : Json.Members Bytes) : Step Verdict := do
  let vd := Verdict.zero
  let typ ← classify vd (some (.obj root))
  let u := bodyOf root
  let actor ← checkFields vd u typ
  let jcs ← deref (Jcs.canonicalize (.obj u))
  let vd := { vd with jcs := some jcs }
  let counts := structuralCounts u typ
  checkMaxima vd jcs counts
  let d := (sha256 jcs).1
  let vd := { vd with d := d, idComputed := lit ("sha256:".toList ++ hex d) }
  checkID vd (some (.obj root))
  let vd ← checkWork vd typ jcs counts
  let vd ← checkSignature sppVerify vd (some (.obj root)) actor
  .ok { vd with status := .valid }

/-- `Verify`: the verdict returned, unless it panics. -/
def verify (data : Bytes) : Option Verdict :=
  match Value.parseIJSON data with
  | .error (.err e) =>
      some { Verdict.zero with
        status := .invalid, stage := some .jsonInput, reason := some (.parse e) }
  | .error .panic => none
  | .ok root =>
      match pipeline sha256 sppVerify (match root with | .obj ms => ms | _ => []) with
      | .ok vd => some vd
      | .error (.err vd) => some vd
      | .error .panic => none

end

end Verify

end SwarmPointer.Go
