import SwarmPointer.Python.Builtins

/-!
# `implementations/python/ed25519_spp.py`

SPP-Ed25519-1 in affine coordinates over Python integers. Coordinates are
`Int`: nothing keeps them reduced modulo `P`, and `decodePoint` does return
an unreduced one. SHA-512 is a parameter.

Scalar multiplication is the loop of the binary method at this addition, and a
decoding that fails is a `ValueError` that the check catches. The comparisons
are on pairs of integers as in the source, so an unreduced coordinate makes two
spellings of a point different; the order of the tests decides which of them an
unreduced pair meets.
-/

namespace SwarmPointer.Python.Ed25519Spp

/-- The field prime. -/
def P : Nat := 2 ^ 255 - 19

/-- The order of the base point. -/
def L : Nat := 2 ^ 252 + 27742317777372353535851937790883648493

def D : Int := -121665 * pow 121666 (P - 2) P % P

def I : Int := pow 2 ((P - 1) / 4) P

/-- `_inv`. -/
def inv (x : Int) : Int := pow x (P - 2) P

/-- `_xrecover`: the even `x` on the curve with ordinate `y`. -/
def xrecover (y : Int) : Py Int := do
  let yy := y * y % P
  let u := (yy - 1) % P
  let v := (D * yy + 1) % P
  let x2 := u * inv v % P
  let x := pow x2 ((P + 3) / 8) P
  let x := if (x * x - x2) % P ≠ 0 then x * I % P else x
  if (x * x - x2) % P ≠ 0 then
    throw .valueError
  return if x % 2 ≠ 0 then P - x else x

/-- `_point_add`. -/
def pointAdd (a b : Int × Int) : Int × Int :=
  let (x1, y1) := a
  let (x2, y2) := b
  let den_x := (1 + D * x1 * x2 * y1 * y2) % P
  let den_y := (1 - D * x1 * x2 * y1 * y2) % P
  let x3 := (x1 * y2 + x2 * y1) * inv den_x % P
  let y3 := (y1 * y2 + x1 * x2) * inv den_y % P
  (x3, y3)

/-- `_point_mul`: double-and-add from the least significant bit. -/
def pointMul (s : Nat) (pt : Int × Int) : Int × Int :=
  BinaryMethod.run pointAdd (0, 1) pt s

def BY : Int := 4 * pow 5 (P - 2) P % P

/-- `_xrecover(BY)`; the module would not load if it raised. -/
def BX : Int := (xrecover BY).toOption.getD 0

def B : Int × Int := (BX, BY)

def IDENT : Int × Int := (0, 1)

def encodePoint (pt : Int × Int) : Py Bytes := do
  let (x, y) := pt
  let out ← toBytesLittle 32 y
  return if x % 2 = 1 then out.modify 31 (· ||| 0x80) else out

def decodePoint (raw : Bytes) : Py (Int × Int) :=
  if raw.length ≠ 32 then .error .valueError
  else
    let y := fromBytesLittle raw
    let x_sign := (y >>> 255) &&& 1
    let y := y &&& (1 <<< 255 - 1)
    if y ≥ P then .error .valueError
    else
      match xrecover y with
      | .error _ => .error .valueError
      | .ok x =>
          let x := if x_sign ≠ 0 then P - x else x
          if x = 0 ∧ x_sign ≠ 0 then .error .valueError
          else
            match encodePoint (x, (y : Int)) with
            | .error e => .error e
            | .ok out => if out ≠ raw then .error .valueError else .ok (x, (y : Int))

/-- `_is_ident`. -/
def isIdent (pt : Int × Int) : Bool := pt == IDENT

/-- `b"SPP/1/assertion\x00" + d`. -/
def assertionMessage (d : Bytes) : Bytes :=
  [0x53, 0x50, 0x50, 0x2f, 0x31, 0x2f, 0x61, 0x73,
   0x73, 0x65, 0x72, 0x74, 0x69, 0x6f, 0x6e, 0x00] ++ d

/-- `except ValueError` of the two decodings. -/
def decodePair (aBytes rBytes : Bytes) : Py (Option ((Int × Int) × (Int × Int))) :=
  match (do return (← decodePoint aBytes, ← decodePoint rBytes)) with
  | .ok pts => .ok (some pts)
  | .error .valueError => .ok none
  | .error e => .error e

section
variable (sha512 : Bytes → Bytes)

def verifySppEd25519_1 (aBytes sig d : Bytes) : Py Bool := do
  if aBytes.length ≠ 32 ∨ sig.length ≠ 64 ∨ d.length ≠ 32 then
    return false
  let rBytes := sig.take 32
  let sBytes := sig.drop 32
  let s := fromBytesLittle sBytes
  if s ≥ L then
    return false
  let some (a, r) ← decodePair aBytes rBytes | return false
  if isIdent a || isIdent r then
    return false
  if !isIdent (pointMul L a) then
    return false
  if !isIdent (pointMul L r) then
    return false
  let m := assertionMessage d
  let k0 := fromBytesLittle (sha512 (rBytes ++ aBytes ++ m))
  let k := k0 % L
  let left := pointMul s B
  let right := pointAdd r (pointMul k a)
  return left == right

/-- The clamping of `sign` and `public_from_private`. -/
def clamp (h : Bytes) : Nat :=
  (fromBytesLittle (h.take 32) &&& (1 <<< 254 - 8)) ||| 1 <<< 254

def sign (privateKey d : Bytes) : Py Bytes := do
  if privateKey.length ≠ 32 then
    throw .valueError
  let h := sha512 privateKey
  let s := clamp h
  let pre := h.drop 32
  let a ← encodePoint (pointMul s B)
  let m := assertionMessage d
  let r := fromBytesLittle (sha512 (pre ++ m)) % L
  let rPt := pointMul r B
  let rBytes ← encodePoint rPt
  let k := fromBytesLittle (sha512 (rBytes ++ a ++ m)) % L
  let sOut := (r + k * s) % L
  return rBytes ++ (← toBytesLittle 32 sOut)

def publicFromPrivate (privateKey : Bytes) : Py Bytes :=
  encodePoint (pointMul (clamp (sha512 privateKey)) B)

end

end SwarmPointer.Python.Ed25519Spp
