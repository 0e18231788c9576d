import SwarmPointer.Lib.BinaryMethod
import SwarmPointer.Python.Builtins

/-!
# `implementations/go/ed25519.go`

The §8A signature check in Go. The points and scalars of
`filippo.io/edwards25519` are a parameter, and so is SHA-512.

`Edwards25519` has one field for each function of the package that is called;
`SetBytes` and its like return an `Option` for their error. The check itself is
transcribed with its tests in the order of the source. The multiplication by
`L` is a loop of the file, from the top bit, and not one of the package: the
scalar `L` is no scalar of the package, which reduces them.
-/

namespace SwarmPointer.Go.Ed25519

/-- What the file calls of `edwards25519`; none is an error. -/
structure Edwards25519 (Point Scalar : Type) where
  newIdentityPoint : Point
  setBytes : Bytes → Option Point
  bytes : Point → Bytes
  equal : Point → Point → Int
  add : Point → Point → Point
  double : Point → Point
  setCanonicalBytes : Bytes → Option Scalar
  setUniformBytes : Bytes → Option Scalar
  scalarBaseMult : Scalar → Point
  scalarMult : Scalar → Point → Point

def groupL : Nat :=
  7237005577332262213973186563042994240857116359379907606001950938285454250989

/-- `SPP/1/assertion` and a zero byte. -/
def signaturePrefix : Bytes :=
  [0x53, 0x50, 0x50, 0x2f, 0x31, 0x2f, 0x61, 0x73,
   0x73, 0x65, 0x72, 0x74, 0x69, 0x6f, 0x6e, 0x00]

section
variable {Point Scalar : Type} (E : Edwards25519 Point Scalar)

/-- `for i := groupL.BitLen() - 1; i >= 0; i--`. -/
def mulByL (p : Point) : Point :=
  BinaryMethod.fromTop E.double E.add p groupL groupL.size E.newIdentityPoint

def sppEd25519Verify (sha512 : Bytes → Bytes) (abytes sig d : Bytes) : Bool := Id.run do
  if abytes.length ≠ 32 ∨ sig.length ≠ 64 ∨ d.length ≠ 32 then
    return false
  let rbytes := sig.take 32
  let sbytes := sig.drop 32
  let some s := E.setCanonicalBytes sbytes | return false
  let some a := E.setBytes abytes | return false
  let some r := E.setBytes rbytes | return false
  if E.bytes a ≠ abytes then
    return false
  if E.bytes r ≠ rbytes then
    return false
  let identity := E.newIdentityPoint
  if E.equal a identity = 1 then
    return false
  if E.equal (mulByL E a) identity ≠ 1 then
    return false
  if E.equal r identity = 1 then
    return false
  if E.equal (mulByL E r) identity ≠ 1 then
    return false
  let some k := E.setUniformBytes (sha512 (rbytes ++ abytes ++ signaturePrefix ++ d))
    | return false
  let lhs := E.scalarBaseMult s
  let rhs := E.add (E.scalarMult k a) r
  return E.equal lhs rhs == 1

end

end SwarmPointer.Go.Ed25519
