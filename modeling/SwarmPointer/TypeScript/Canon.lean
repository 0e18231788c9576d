import SwarmPointer.Jcs.MarkerStack
import SwarmPointer.TypeScript.Object

/-!
# `implementations/typescript/src/canon.ts`

RFC 8785 in TypeScript.

The same loop as in Python over UTF-16 code units, and the same fields of a
`Dialect`. What is particular to the host is kept: a string is a list of code units
that need not pair up, the difference of two `charCodeAt` is an integer, and
`TextEncoder` replaces a surrogate that stands alone. `jcsNumber` refuses
negative zero where the other two print it as `0`.
-/

namespace SwarmPointer.TypeScript

open SwarmPointer.Jcs

/-- What the modelled TypeScript code can throw. `typeError` is the host's. -/
inductive Thrown
  | canonError
  | typeError
  deriving DecidableEq

namespace Canon

def jcsNumber (n : Binary64) : Except Thrown Units :=
  -- `Number.isFinite` holds by type
  if n.neg ∧ n.mag = 0 then .error .canonError
  else if n.mag = 0 then .ok (lit ['0'])
  else .ok (lit (Decimal.ecmaString n))

/-- `o.toString(16).padStart(4, "0")`. -/
def hexPad (o : Nat) : Str := (Nat.toDigits 16 o).leftpad 4 '0'

/-- One turn of `for (const ch of s)`. -/
def escapeUnit (ch : Units) : Units :=
  let o := Unicode.codePointAt ch
  if ch = lit ['"'] then lit ['\\', '"']
  else if ch = lit ['\\'] then lit ['\\', '\\']
  else if ch = lit ['\x08'] then lit ['\\', 'b']
  else if ch = lit ['\x0c'] then lit ['\\', 'f']
  else if ch = lit ['\n'] then lit ['\\', 'n']
  else if ch = lit ['\x0d'] then lit ['\\', 'r']
  else if ch = lit ['\t'] then lit ['\\', 't']
  else if o < 0x20 then lit (['\\', 'u'] ++ hexPad o)
  else ch

def jcsString (s : Units) : Units :=
  lit ['"'] ++ (Unicode.codePoints s).flatMap escapeUnit ++ lit ['"']

/-- The first difference of code units, else of lengths. -/
def utf16Less : Units → Units → Int
  | a :: as, b :: bs =>
      let d := (a.toNat : Int) - b.toNat
      if d ≠ 0 then d else utf16Less as bs
  | as, bs => (as.length : Int) - bs.length

def dialect : Dialect Units UInt16 Thrown where
  ascii := ascii
  quote := jcsString
  number := jcsNumber
  nameLe a b := utf16Less a b ≤ 0
  missing := .typeError

/-- `jcs`; the loop never runs out of turns (`jcs_eq`). -/
def jcs (value : Json Units) : Except Thrown Units :=
  (serialize dialect value).getD (.error .typeError)

/-- `TextEncoder.encode`: a surrogate outside a pair becomes U+FFFD. -/
def encode (s : Units) : Bytes :=
  (Unicode.codePoints s).flatMap fun ch =>
    let o := Unicode.codePointAt ch
    String.utf8EncodeChar (if 0xD800 ≤ o ∧ o ≤ 0xDFFF then '\uFFFD' else Char.ofNat o)

def jcsBytes (value : Json Units) : Except Thrown Bytes := (jcs value).map encode

end Canon

end SwarmPointer.TypeScript
