import Mathlib.Data.List.Sort
import SwarmPointer.Json
import SwarmPointer.Lib.Decimal

/-!
# `implementations/go/jcs.go`

RFC 8785 in Go: strings are byte strings, the stack holds frames with the
index of the next child. A `Value` is a `Json Bytes`, its `Kind` the
constructor.

The loop is bounded by the turns a value needs, which are read off the value
before it starts; that the bound is enough is a theorem and no assumption.
`sort.Slice` is not stable, but the names it sorts are distinct.
-/

namespace SwarmPointer.Go

/-- An ASCII literal. -/
def lit (s : Str) : Bytes := s.map fun c => UInt8.ofNat c.toNat

/-- `utf8.DecodeRuneInString`: the first rune and its width, `U+FFFD` and one
byte where the encoding is invalid. -/
def decodeRune (s : Bytes) : Char × Nat :=
  match (ByteArray.mk s.toArray).utf8DecodeChar? 0 with
  | some c => (c, c.utf8Size)
  | none => ('\uFFFD', 1)

/-- `for _, r := range s`, over at most `n` runes. -/
def runesAux : Nat → Bytes → List Char
  | 0, _ => []
  | _ + 1, [] => []
  | n + 1, s => (decodeRune s).1 :: runesAux n (s.drop (decodeRune s).2)

/-- `for _, r := range s`: every rune takes at least one byte. -/
def runes (s : Bytes) : List Char := runesAux s.length s

/-- An exponent as `strconv` writes it: signed, at least two digits. -/
def formatExponent (e : Int) : Str :=
  (if e < 0 then '-' else '+') ::
    (if e.natAbs < 10 then '0' :: Nat.toDigits 10 e.natAbs else Nat.toDigits 10 e.natAbs)

/-- The layout of format `'e'`. -/
def formatLayout (ds : Str) (n : Int) : Str :=
  ds.take 1 ++ Decimal.fraction (ds.drop 1) ++ 'e' :: formatExponent (n - 1)

/-- `strconv.FormatFloat(x, 'e', -1, 64)` of a positive finite number. -/
def formatFloat (x : Binary64) : Str :=
  formatLayout (Decimal.shortest x.mag).digits (Decimal.shortest x.mag).point

/-- `strconv.Atoi` on a signed digit string. -/
def atoi : Str → Int
  | '+' :: ds => Nat.ofDigitChars 10 ds 0
  | '-' :: ds => -(Nat.ofDigitChars 10 ds 0 : Nat)
  | ds => Nat.ofDigitChars 10 ds 0

/-- `strings.TrimRight(s, "0")`. -/
def trimRightZeros (s : Str) : Str := (s.reverse.dropWhile (· == '0')).reverse

namespace Jcs

/-- One case of the switch in `writeJSONString`. -/
def writeRune (r : Char) : Bytes :=
  if r = '"' then lit ['\\', '"']
  else if r = '\\' then lit ['\\', '\\']
  else if r = '\x08' then lit ['\\', 'b']
  else if r = '\x0c' then lit ['\\', 'f']
  else if r = '\n' then lit ['\\', 'n']
  else if r = '\x0d' then lit ['\\', 'r']
  else if r = '\t' then lit ['\\', 't']
  else if r.toNat < 0x20 then
    lit ['\\', 'u', '0', '0', hexDigit (r.toNat / 16), hexDigit (r.toNat % 16)]
  else String.utf8EncodeChar r

def writeJSONString (s : Bytes) : Bytes := lit ['"'] ++ (runes s).flatMap writeRune ++ lit ['"']

/-- The UTF-16 encoding of a single code point, with the bytes after it. -/
structure Utf16char where
  units : List UInt16
  next : Bytes

def decodeUTF16Char (s : Bytes) : Utf16char :=
  let (r, size) := decodeRune s
  if r.toNat ≥ 0x10000 then
    let r := r.toNat - 0x10000
    ⟨[UInt16.ofNat (0xD800 + (r >>> 10)), UInt16.ofNat (0xDC00 + (r &&& 0x3FF))], s.drop size⟩
  else ⟨[UInt16.ofNat r.toNat], s.drop size⟩

/-- `for k := 0; k < ca.n && k < cb.n; k++`: the first difference decides. -/
def unitsLess : List UInt16 → List UInt16 → Option Bool
  | u :: us, v :: vs => if u ≠ v then some (u < v) else unitsLess us vs
  | _, _ => none

/-- The loop of `utf16Less` for at most `n` turns, on what remains of the two
strings `a` and `b`. -/
def utf16LessLoop (a b : Bytes) : Nat → Bytes → Bytes → Bool
  | 0, _, _ => a.length < b.length
  | n + 1, s, t =>
      if s ≠ [] ∧ t ≠ [] then
        let ca := decodeUTF16Char s
        let cb := decodeUTF16Char t
        match unitsLess ca.units cb.units with
        | some less => less
        | none =>
            if ca.units.length ≠ cb.units.length then ca.units.length < cb.units.length
            else utf16LessLoop a b n ca.next cb.next
      else a.length < b.length

def utf16Less (a b : Bytes) : Bool := utf16LessLoop a b a.length a b

/-- The digits and the exponent read off `strconv.FormatFloat`. -/
def readFloat (s : Str) : Str × Int :=
  let mant := s.takeWhile (· != 'e')
  let exp := atoi ((s.dropWhile (· != 'e')).drop 1)
  let digits := trimRightZeros (mant.erase '.')
  (if digits = [] then ['0'] else digits, exp)

/-- The switch at the end of `FormatNumber`. -/
def layout (digits : Str) (exp : Int) : Str :=
  let k : Int := digits.length
  let n := exp + 1
  if k ≤ n ∧ n ≤ 21 then digits ++ List.replicate (n - k).toNat '0'
  else if 0 < n ∧ n ≤ 21 then digits.take n.toNat ++ '.' :: digits.drop n.toNat
  else if -6 < n ∧ n ≤ 0 then '0' :: '.' :: (List.replicate (-n).toNat '0' ++ digits)
  else
    let out := if k = 1 then digits else digits.take 1 ++ '.' :: digits.drop 1
    let e := n - 1
    if e ≥ 0 then out ++ 'e' :: '+' :: Nat.toDigits 10 e.natAbs
    else out ++ 'e' :: '-' :: Nat.toDigits 10 e.natAbs

/-- `FormatNumber`. -/
def formatNumber (x : Binary64) : Bytes :=
  if x.mag = 0 then lit ['0']
  else
    let out := layout (readFloat (formatFloat x)).1 (readFloat (formatFloat x)).2
    lit (if x.neg then '-' :: out else out)

/-- A stack frame; `members` is filled in when an object is opened. -/
structure Frame where
  v : Json Bytes
  opened : Bool
  members : Json.Members Bytes
  idx : Nat

def Frame.new (v : Json Bytes) : Frame := ⟨v, false, [], 0⟩

/-- `sort.Slice` with `utf16Less` on names. -/
def sortMembers (ms : Json.Members Bytes) : Json.Members Bytes :=
  ms.insertionSort fun a b => utf16Less b.1 a.1 = false

/-- `for len(stack) > 0`: one turn looks at the top frame. -/
def loop : Nat → List Frame → Bytes → Option Bytes
  | 0, _, _ => none
  | _ + 1, [], buf => some buf
  | n + 1, f :: stack, buf =>
      match f.v with
      | .arr vs =>
          let buf := if f.opened then buf else buf ++ lit ['[']
          match vs[f.idx]? with
          | some child =>
              let buf := if f.idx > 0 then buf ++ lit [','] else buf
              loop n (Frame.new child :: { f with opened := true, idx := f.idx + 1 } :: stack) buf
          | none => loop n stack (buf ++ lit [']'])
      | .obj ms =>
          let members := if f.opened then f.members else sortMembers ms
          let buf := if f.opened then buf else buf ++ lit ['{']
          match members[f.idx]? with
          | some m =>
              let buf := if f.idx > 0 then buf ++ lit [','] else buf
              let buf := buf ++ writeJSONString m.1 ++ lit [':']
              loop n (Frame.new m.2 :: ⟨f.v, true, members, f.idx + 1⟩ :: stack) buf
          | none => loop n stack (buf ++ lit ['}'])
      | .str s => loop n stack (buf ++ writeJSONString s)
      | .num x => loop n stack (buf ++ formatNumber x)
      | .bool true => loop n stack (buf ++ lit "true".toList)
      | .bool false => loop n stack (buf ++ lit "false".toList)
      | .null => loop n stack (buf ++ lit "null".toList)

mutual

/-- Turns of the loop that a value takes. -/
def turns : Json Bytes → Nat
  | .arr vs => turnsList vs + 1
  | .obj ms => turnsMembers ms + 1
  | _ => 1

def turnsList : List (Json Bytes) → Nat
  | [] => 0
  | v :: vs => turns v + 1 + turnsList vs

def turnsMembers : Json.Members Bytes → Nat
  | [] => 0
  | (_, v) :: ms => turns v + 1 + turnsMembers ms

end

/-- `Canonicalize`, with turns enough for the value. -/
def canonicalize (v : Json Bytes) : Option Bytes := loop (turns v + 1) [Frame.new v] []

end Jcs

end SwarmPointer.Go
