import SwarmPointer.Lib.Search
import SwarmPointer.Python.Protocol

/-!
# `examples/agent-a/agent.py`

The miner of the agent. It canonicalises once for every number of digits of
the nonce and writes the digits into the bytes, where it finds them by a
marker.

The source searches the bytes of its template for the marker and overwrites a
slice, once for every number of digits that fits the range. Nothing in it
parses the template: the model searches and overwrites in the same way, and
what it hits is a question for the proofs. The last step validates the bytes
and asserts that the identifier is the one that was mined.
-/

namespace SwarmPointer.Python.AgentA

open Except SwarmPointer.Python.Protocol

/-- `b'"nonce":"'`. -/
def marker : Bytes := Unicode.utf8 "\"nonce\":\"".toList

/-- `buf[off:off + width] = digits`. -/
def patch (buf : Bytes) (off width : Nat) (digits : Bytes) : Bytes :=
  buf.take off ++ digits ++ buf.drop (off + width)

/-- `str(n) if width == 1 else f"{n:0{width}d}"`. -/
def nonceDigits (width n : Nat) : Str :=
  if width = 1 then Nat.toDigits 10 n else (Nat.toDigits 10 n).leftpad width '0'

/-- `"0" if width == 1 else "1" + "0" * (width - 1)`. -/
def placeholder (width : Nat) : Str :=
  if width = 1 then ['0'] else '1' :: List.replicate (width - 1) '0'

/-- `lo`. -/
def lowest (width : Nat) : Nat := if width = 1 then 0 else 10 ^ (width - 1)

/-- `hi`. -/
def highest (width : Nat) : Nat := min (if width = 1 then 9 else 10 ^ width - 1) MAX_NONCE

/-- The envelope of a nonce that pays, once it has been validated. -/
def sealed (I : Imports) (base : Json.Members Str) (private_key : Bytes) (digits : Str)
    (digest : Bytes) : Py (Json.Members Str) := do
  let ident := "sha256:".toList ++ hex digest
  let env := setItem base "nonce".toList (.str digits)
  let env := setItem env "id".toList (.str ident)
  let sig ← I.sign private_key digest
  let env := setItem env "sig".toList (.str (hex sig))
  let raw ← I.canonicalizeBytes (.obj env)
  let info ← validateBytes I raw
  raiseIf (info.id ≠ ident) (.sppError .identity .minedIdMismatch)
  .ok env

/-- `for n in range(lo, hi + 1)`, with the turns that are left; none when no
nonce pays. -/
def mineRange (I : Imports) (base : Json.Members Str) (private_key : Bytes)
    (off width target : Nat) : Nat → Nat → Bytes → Py (Option (Json.Members Str))
  | 0, _, _ => .ok none
  | turns + 1, n, buf => do
      let digits := nonceDigits width n
      let buf := patch buf off width (Unicode.utf8 digits)
      let digest := (I.sha256 buf).1
      if fromBytesBig digest ≤ target then do
        .ok (some (← sealed I base private_key digits digest))
      else mineRange I base private_key off width target turns (n + 1) buf

/-- `idx + len(marker)`. -/
def offset (template : Bytes) : Py Nat :=
  match Search.find marker template with
  | some idx => .ok (idx + marker.length)
  | none => .error (.sppError .work .nonceNotFound)

/-- `for width in range(1, 21)`, with the widths that are left. -/
def mineWidths (I : Imports) (base : Json.Members Str) (private_key : Bytes) :
    Nat → Nat → Py (Json.Members Str)
  | 0, _ => .error (.sppError .work .nonceSpaceExhausted)
  | widths + 1, width =>
      if lowest width > MAX_NONCE then .error (.sppError .work .nonceSpaceExhausted)
      else do
        let template ← I.canonicalizeBytes
          (.obj (setItem base "nonce".toList (.str (placeholder width))))
        let off ← offset template
        let units ← workUnits base template.length
        let target ← targetForUnits units
        let found ← mineRange I base private_key off width target
          (highest width + 1 - lowest width) (lowest width) template
        match found with
        | some env => .ok env
        | none => mineWidths I base private_key widths (width + 1)

def mine (I : Imports) (U : Json.Members Str) (private_key : Bytes) : Py (Json.Members Str) :=
  mineWidths I (U.filter fun m => m.1 ≠ "nonce".toList) private_key 20 1

end SwarmPointer.Python.AgentA
