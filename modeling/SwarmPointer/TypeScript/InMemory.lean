import SwarmPointer.Lib.Base64
import SwarmPointer.Lib.Multimap
import SwarmPointer.TypeScript.Canon

/-!
# `implementations/typescript/src/relay.ts`

The index of the relay in maps of arrays, and its pages.

`store` is called with an envelope that has been checked and its identifier.
Texts are UTF-16 code units, so `slice(7)` drops code units; the maps are
association lists in insertion order. An array has fewer than `2^32` elements,
so a position the relay hands out is exact as a `Number`; in the model it is a
natural number without a bound.
-/

namespace SwarmPointer.TypeScript.InMemory

/-- The maps and the array of the module. -/
structure Index where
  envelopes : List (Units × Json.Members Units)
  advertised : List Units
  channelOf : List (Units × List Units)
  objectOf : List (Units × List Units)

def Index.empty : Index := ⟨[], [], [], []⟩

/-- `desc.hash.slice(7)` of an object with such a text. -/
def hashSlice : Option (Json Units) → Option Units
  | some (.obj desc) =>
      match desc.lookup (lit "hash".toList) with
      | some (.str hash) => some (hash.drop 7)
      | _ => none
  | _ => none

/-- `push(objectOf, …)` when there is a hash. -/
def pushObject (ix : Index) (reference : Option (Json Units)) (hex : Units) : Index :=
  match hashSlice reference with
  | some key => { ix with objectOf := Multimap.push ix.objectOf key hex }
  | none => ix

def store (env : Json.Members Units) (ident : Units) (ix : Index) : Index :=
  let hex := ident.drop 7
  if (ix.envelopes.lookup hex).isSome then ix
  else
    let ix := { ix with envelopes := Multimap.set ix.envelopes hex env }
    match env.lookup (lit "type".toList) with
    | some (.str t) =>
        if t = lit "channel".toList then
          let ix := { ix with
            advertised := ix.advertised ++ [hex]
            channelOf := Multimap.push ix.channelOf hex hex }
          pushObject ix (env.lookup (lit "descriptor".toList)) hex
        else if t = lit "pointer".toList then
          match env.lookup (lit "channel".toList) with
          | some (.str channel) =>
              let ix := { ix with channelOf := Multimap.push ix.channelOf (channel.drop 7) hex }
              pushObject ix (env.lookup (lit "ref".toList)) hex
          | _ => ix
        else ix
    | _ => ix

/-! ## Pages -/

/-- `Buffer.from(String(n), "utf8").toString("base64url")`. -/
def b64url (n : Nat) : Units := lit (Base64.strip (Base64.encode (Unicode.utf8 (Nat.toDigits 10 n))))

/-- `Buffer.from(c, "base64url").toString("utf8")` on text of that alphabet:
a last character without a partner is dropped; none for bytes that are no UTF-8. -/
def fromBase64url (c : Units) : Option Str :=
  let cs := c.map fun u => Char.ofNat u.toNat
  let whole := if cs.length % 4 = 1 then cs.dropLast else cs
  Base64.decode (Base64.pad whole) >>= Unicode.decodeUtf8

/-- `fromCursor`. `other` is the position that `Number` and `slice` make of a
text that is no numeral; the relay makes no such cursor. A numeral is read
exactly, where `Number` rounds it above `2^53` and makes `Infinity`, and so the
start of the list, of more than 308 digits: these are no positions in an array,
and the relay makes no cursors of them either. -/
def fromCursor (other : Str → Nat) : Option Units → Nat
  | none => 0
  | some [] => 0
  | some c =>
      match fromBase64url c with
      | some s => if s ≠ [] ∧ s.all Char.isDigit then Nat.ofDigitChars 10 s 0 else other s
      | none => 0

def slicePage (other : Str → Nat) (pageSize : Nat) (ids : List Units) (cursor : Option Units) :
    List Units × Option Units :=
  let start := fromCursor other cursor
  let chunk := (ids.drop start).take pageSize
  let stop := start + chunk.length
  (chunk, if stop < ids.length then some (b64url stop) else none)

end SwarmPointer.TypeScript.InMemory
