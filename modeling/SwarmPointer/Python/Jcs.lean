import SwarmPointer.Jcs.MarkerStack
import SwarmPointer.Python.Builtins

/-!
# `implementations/python/jcs.py`

RFC 8785 in Python. `_es_number` re-lays out what `repr` prints; the
`isfinite` test it starts with holds by type.

`canonicalize` is the loop of the marker stack, instantiated with Python's
strings. `KeyError` cannot be raised by its look-ups, but the model keeps it as
a result, and that it never occurs is proved.
-/

namespace SwarmPointer.Python.Jcs

open SwarmPointer.Jcs

/-- `e([+-]?\d+)$`, ignoring case: the signed exponent. -/
def matchExp : Str → Option Str
  | c :: s =>
      if (c == 'e' || c == 'E') && skipSign s ≠ [] && (skipSign s).all isDigit then some s else none
  | [] => none

/-- `_REPR_SCI.fullmatch`: leading digit, fraction, exponent. -/
def reprSci (s : Str) : Option (Char × Str × Str) :=
  match skipSign s with
  | [] => none
  | d :: s =>
      if !isDigit d then none
      else
        match s with
        | '.' :: s =>
            if s.takeWhile isDigit = [] then none
            else (matchExp (s.dropWhile isDigit)).map fun e => (d, s.takeWhile isDigit, e)
        | s => (matchExp s).map fun e => (d, [], e)

/-- `_REPR_FIXED.fullmatch`: integer part, fraction. -/
def reprFixed (s : Str) : Option (Str × Str) :=
  let s := skipSign s
  if s.takeWhile isDigit = [] then none
  else
    match s.dropWhile isDigit with
    | [] => some (s.takeWhile isDigit, [])
    | '.' :: frac =>
        if frac ≠ [] ∧ frac.all isDigit then some (s.takeWhile isDigit, frac) else none
    | _ => none

/-- The digits and the exponent of `1.ddd` form read off `repr`. -/
def readRepr (s : Str) : Py (Str × Int) :=
  match reprSci s with
  | some (lead, frac, exp_s) => (int exp_s).map fun exp => (rstripZeros (lead :: frac), exp)
  | none =>
      match reprFixed s with
      | some (int_part, frac_part) =>
          .ok (rstripZeros (int_part ++ frac_part), (int_part.length : Int) - 1)
      | none => .error .jcsError

/-- The layout at the end of `_es_number`. -/
def layout (digits : Str) (exp : Int) : Str :=
  let k : Int := digits.length
  let n_es := exp + 1
  if 1 ≤ n_es ∧ n_es ≤ 21 then
    if k ≤ n_es then digits ++ List.replicate (n_es - k).toNat '0'
    else digits.take n_es.toNat ++ '.' :: digits.drop n_es.toNat
  else if -5 ≤ n_es ∧ n_es ≤ 0 then '0' :: '.' :: (List.replicate (-n_es).toNat '0' ++ digits)
  else
    let exp_show := n_es - 1
    let mant := if k = 1 then digits else digits.take 1 ++ '.' :: digits.drop 1
    mant ++ 'e' :: ((if exp_show ≥ 0 then ['+'] else ['-']) ++ Nat.toDigits 10 exp_show.natAbs)

/-- `_es_number`. -/
def esNumber (n : Binary64) : Py Str := do
  if n.mag = 0 then
    return ['0']
  let sign := if n.neg then ['-'] else []
  -- from here on `n = abs(n)`
  if n.isInteger && n.mag < 2 ^ 53 * Binary64.one then
    return sign ++ Nat.toDigits 10 (n.mag / Binary64.one)
  let (digits, exp) ← readRepr (reprFloat n)
  return sign ++ layout digits exp

/-- `f"{o:04x}"`. -/
def fmt04x (o : Nat) : Str := (Nat.toDigits 16 o).leftpad 4 '0'

def escapeChar (ch : Char) : Str :=
  let o := ch.toNat
  if ch = '"' then ['\\', '"']
  else if ch = '\\' then ['\\', '\\']
  else if ch = '\x08' then ['\\', 'b']
  else if ch = '\x0c' then ['\\', 'f']
  else if ch = '\n' then ['\\', 'n']
  else if ch = '\x0d' then ['\\', 'r']
  else if ch = '\t' then ['\\', 't']
  else if o < 0x20 then ['\\', 'u'] ++ fmt04x o
  else [ch]

/-- `_escape_string`. -/
def escapeString (s : Str) : Str := ['"'] ++ s.flatMap escapeChar ++ ['"']

/-- `k.encode("utf-16-be")`. -/
def utf16be (k : Str) : Bytes :=
  (Unicode.utf16 k).flatMap fun u => [UInt8.ofNat (u.toNat / 256), UInt8.ofNat u.toNat]

/-- Byte strings compare as their bytes do. -/
def bytesLe (a b : Bytes) : Bool := a.map UInt8.toNat ≤ b.map UInt8.toNat

def dialect : Dialect Str Char Exn where
  ascii := id
  quote := escapeString
  number := esNumber
  nameLe a b := bytesLe (utf16be a) (utf16be b)
  missing := .keyError

/-- `canonicalize`; the loop never runs out of turns (`canonicalize_eq`). -/
def canonicalize (value : Json Str) : Py Str :=
  (serialize dialect value).getD (.error .assertionError)

def canonicalizeBytes (value : Json Str) : Py Bytes := (canonicalize value).map Unicode.utf8

end SwarmPointer.Python.Jcs
