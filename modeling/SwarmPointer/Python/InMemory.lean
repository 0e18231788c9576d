import SwarmPointer.Lib.Multimap
import SwarmPointer.Python.Server

/-!
# `implementations/python/relay.py`

The relay that keeps its index in dictionaries of lists, and its pages, whose
cursors are positions.

`put` takes an envelope that was validated before and looks its members up
again, with a `KeyError` or an `AttributeError` where the look-up would raise
one. The list of every key grows at the end and an identifier that is present
is skipped, so the position of an element never changes and can serve as a
cursor.
-/

namespace SwarmPointer.Python.InMemory

open Except SwarmPointer.Python.Protocol Server

/-- The dictionaries and lists of `Store`. -/
structure Store where
  envelopes : List (Str × Json.Members Str)
  order : List Str
  channel_of : List (Str × List Str)
  object_of : List (Str × List Str)
  advertised : List Str

/-- A new `Store`. -/
def Store.empty : Store := ⟨[], [], [], [], []⟩

/-- `d.get(k) == s` for a text. -/
def equals (v : Option (Json Str)) (s : Str) : Bool :=
  match v with
  | some (.str t) => t = s
  | _ => false

/-- `isinstance(h, str) and h.startswith("sha256:")`, with `h[7:]`. -/
def shaSuffix : Option (Json Str) → Option Str
  | some (.str h) => if "sha256:".toList.isPrefixOf h then some (h.drop 7) else none
  | _ => none

/-- `(v or {}).get("hash")`. -/
def hashMember : Option (Json Str) → Py (Option (Json Str))
  | none => .ok none
  | some .null => .ok none
  | some (.bool false) => .ok none
  | some (.str []) => .ok none
  | some (.arr []) => .ok none
  | some (.obj ms) => .ok (ms.lookup "hash".toList)
  | some (.num x) => if x.mag = 0 then .ok none else .error .attributeError
  | some _ => .error .attributeError

/-- `self.object_of.setdefault(h[7:], []).append(digest)` where `h` is such a text. -/
def pushObject (store : Store) (h : Option (Json Str)) (digest : Str) : Store :=
  match shaSuffix h with
  | some key => { store with object_of := Multimap.push store.object_of key digest }
  | none => store

/-- `put` of a channel description. -/
def putChannel (store : Store) (u : Json.Members Str) (digest : Str) : Py Store := do
  let store := { store with
    advertised := store.advertised ++ [digest]
    channel_of := Multimap.push store.channel_of digest digest }
  let h ← hashMember (u.lookup "descriptor".toList)
  .ok (pushObject store h digest)

/-- `put` of a pointer. -/
def putPointer (store : Store) (u : Json.Members Str) (digest : Str) : Py Store := do
  let ch ← memberText u "channel".toList
  let store := if "sha256:".toList.isPrefixOf ch then
    { store with channel_of := Multimap.push store.channel_of (ch.drop 7) digest } else store
  let h ← hashMember (u.lookup "ref".toList)
  .ok (pushObject store h digest)

def put (env : Json.Members Str) (ident : Str) (store : Store) : Py Store :=
  let digest := ident.drop 7
  if contains store.envelopes digest then .ok store
  else
    let store := { store with
      envelopes := store.envelopes ++ [(digest, env)]
      order := store.order ++ [digest] }
    let u := env.filter fun m => m.1 ∉ ["id".toList, "sig".toList]
    if equals (u.lookup "type".toList) "channel".toList then putChannel store u digest
    else if equals (u.lookup "type".toList) "pointer".toList then putPointer store u digest
    else .ok store

/-- `page`; `size` is `STORE.page`. The cursor is ASCII text. -/
def page (size : Nat) (items : List Str) (cursor : Option Str) : Py (List Str × Option Str) := do
  let start ← match cursor with
    | none | some [] => .ok 0
    | some c => intText c
  let start := (max 0 start).toNat
  let chunk := (items.drop start).take size
  let nxt := start + chunk.length
  .ok (chunk, if nxt < items.length then some (Nat.toDigits 10 nxt) else none)

end SwarmPointer.Python.InMemory
