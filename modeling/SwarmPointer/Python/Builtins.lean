import Mathlib.Data.Nat.Digits.Lemmas
import SwarmPointer.Json
import SwarmPointer.Lib.BinaryMethod
import SwarmPointer.Lib.Decimal
import SwarmPointer.Lib.JsonGrammar

/-!
# Python built-ins

The parts of the language and its standard library that the modelled
modules share: byte strings, the exceptions they raise and catch, three
argument `pow`, and the conversions between integers, byte strings and
hexadecimal text.

Nothing here belongs to the repository. What the documentation of the language
leaves to the implementation (the digits `repr` chooses) is fixed as CPython
fixes it: the shortest that read back, the closest of them.
-/

namespace SwarmPointer.Python

/-- The reason tokens of a JSON-input rejection. -/
inductive JsonReason
  | invalidUtf8
  | invalidJson
  | notObject
  | duplicateMemberName
  | loneSurrogate
  | noncharacter
  | negativeZero
  | nonFiniteNumber
  deriving DecidableEq, Repr

/-- The stages of a `SppError`. -/
inductive Stage
  | jsonInput
  | version
  | schema
  | identifier
  | created
  | nonce
  | length
  | identity
  | work
  | signature
  deriving DecidableEq, Repr

/-- The reason tokens of a `SppError`. -/
inductive Reason
  | json (r : JsonReason)
  | unknownV
  | schema
  | unknownType
  | identifier
  | created
  | nonce
  | tooManyLocators
  | locatorTooLong
  | tooManyParents
  | jcsTooLarge
  | missingId
  | idMismatch
  | insufficientWork
  | signature
  | nonceNotFound
  | nonceSpaceExhausted
  | minedIdMismatch
  deriving DecidableEq, Repr

/-- What the modelled Python code can raise. `unsupportedError` is the
subclass of `sppError`, so `except SppError` catches both. -/
inductive Exn
  | valueError
  | overflowError
  | zeroDivisionError
  | assertionError
  | keyError
  | indexError
  | typeError
  | attributeError
  | operationalError
  | recursionError
  | badCursor (message : Str)
  | jcsError
  | jsonInputError (reason : JsonReason)
  | sppError (stage : Stage) (reason : Reason)
  | unsupportedError (stage : Stage) (reason : Reason)
  deriving DecidableEq, Repr

/-- A Python computation: it returns or raises. -/
abbrev Py := Except Exn

/-- Three argument `pow` with a positive modulus. -/
def pow (x : Int) (n m : Nat) : Int := BinaryMethod.powMod (x % m).toNat n m

/-- `int.from_bytes(_, "little")`. -/
def fromBytesLittle : Bytes → Nat
  | [] => 0
  | b :: bs => b.toNat + 256 * fromBytesLittle bs

/-- `int.from_bytes(_, "big")`. -/
def fromBytesBig (bs : Bytes) : Nat := fromBytesLittle bs.reverse

/-- The `n` low bytes of `v`, least significant first. -/
def littleBytes : Nat → Nat → Bytes
  | 0, _ => []
  | n + 1, v => UInt8.ofNat v :: littleBytes n (v / 256)

/-- `int.to_bytes(n, "little")`: out of range is an `OverflowError`. -/
def toBytesLittle (n : Nat) (v : Int) : Py Bytes :=
  if 0 ≤ v ∧ v < 256 ^ n then .ok (littleBytes n v.toNat) else .error .overflowError

/-! ## Text -/

/-- `'0' <= c <= '9'`, and `\d` on ASCII text. -/
def isDigit (c : Char) : Bool := c.isDigit

/-- The value of an optionally signed digit string. -/
def intValue : Str → Int
  | '+' :: ds => Nat.ofDigitChars 10 ds 0
  | '-' :: ds => -(Nat.ofDigitChars 10 ds 0 : Nat)
  | ds => Nat.ofDigitChars 10 ds 0

/-- An optional sign, skipped: `[+-]?`. -/
def skipSign : Str → Str
  | '+' :: s => s
  | '-' :: s => s
  | s => s

/-- `int(s)` on ASCII text without white space or underscores. -/
def int (s : Str) : Py Int :=
  if skipSign s ≠ [] ∧ (skipSign s).all isDigit then .ok (intValue s) else .error .valueError

/-- `chr(n)`. Surrogates are no characters here and count as out of range. -/
def chr (n : Nat) : Py Char :=
  if n.isValidChar then .ok (Char.ofNat n) else .error .valueError

/-- The exponent of a float literal: nothing, or `e` or `E` and an integer. -/
def floatExponent : Str → Option Int
  | [] => some 0
  | e :: s =>
      if (e = 'e' ∨ e = 'E') ∧ skipSign s ≠ [] ∧ (skipSign s).all isDigit then some (intValue s)
      else none

/-- `float(s)` on a decimal literal, correctly rounded; `none` is an infinity. -/
def float (s : Str) : Py (Option Binary64) :=
  let neg := s.head? = some '-'
  let s := skipSign s
  let whole := s.takeWhile isDigit
  let s := s.dropWhile isDigit
  let frac := if s.head? = some '.' then (s.drop 1).takeWhile isDigit else []
  let s := if s.head? = some '.' then (s.drop 1).dropWhile isDigit else s
  match floatExponent s with
  | some e =>
      if whole ++ frac = [] then .error .valueError
      else .ok (Decimal.toBinary64 neg ⟨Nat.ofDigitChars 10 (whole ++ frac) 0, e - frac.length⟩)
  | none => .error .valueError

/-- `s.rstrip("0") or "0"`. -/
def rstripZeros (s : Str) : Str :=
  match (s.reverse.dropWhile (· == '0')).reverse with
  | [] => ['0']
  | ds => ds

/-- An exponent as `repr` writes it: signed, at least two digits. -/
def reprExponent (e : Int) : Str :=
  (if e < 0 then '-' else '+') ::
    (if e.natAbs < 10 then '0' :: Nat.toDigits 10 e.natAbs else Nat.toDigits 10 e.natAbs)

/-- The layout of `repr`: fixed for exponents in `[-4, 16)`, scientific otherwise. -/
def reprLayout (ds : Str) (n : Int) : Str :=
  if n ≤ -4 ∨ 16 < n then ds.take 1 ++ Decimal.fraction (ds.drop 1) ++ 'e' :: reprExponent (n - 1)
  else if n ≤ 0 then '0' :: '.' :: (List.replicate (-n).toNat '0' ++ ds)
  else if n < ds.length then ds.take n.toNat ++ '.' :: ds.drop n.toNat
  else ds ++ List.replicate (n - ds.length).toNat '0' ++ ['.', '0']

/-- `repr` of a positive finite float: the shortest digits that round back. -/
def reprFloat (x : Binary64) : Str :=
  reprLayout (Decimal.shortest x.mag).digits (Decimal.shortest x.mag).point

/-- `repr` of a float. -/
def reprNumber (x : Binary64) : Str :=
  (if x.neg then ['-'] else []) ++ if x.mag = 0 then ['0', '.', '0'] else reprFloat x

/-- `bytes.fromhex` on text without white space. -/
def fromHex : Str → Py Bytes
  | [] => .ok []
  | [_] => .error .valueError
  | a :: b :: cs =>
      match JsonGrammar.hexVal a, JsonGrammar.hexVal b with
      | some x, some y => (fromHex cs).map (UInt8.ofNat (16 * x + y) :: ·)
      | _, _ => .error .valueError

/-- `d[k]`. -/
def getItem {V : Type} (ms : List (Str × V)) (k : Str) : Py V :=
  match ms.lookup k with
  | some v => .ok v
  | none => .error .keyError

/-- `d[k] = v`: in place when the key is there, at the end otherwise. -/
def setItem {V : Type} (ms : List (Str × V)) (k : Str) (v : V) : List (Str × V) :=
  if k ∈ ms.map Prod.fst then ms.map fun m => if m.1 = k then (k, v) else m
  else ms ++ [(k, v)]

/-! ## Bits -/

theorem and_shiftLeft (x m k : Nat) : x &&& (m <<< k) = ((x >>> k) &&& m) <<< k := by
  apply Nat.eq_of_testBit_eq
  intro i
  rw [Nat.testBit_and, Nat.testBit_shiftLeft, Nat.testBit_shiftLeft, Nat.testBit_and,
    Nat.testBit_shiftRight]
  by_cases h : k ≤ i
  · simp [h]
  · simp [h]

/-! ## Digits and signs -/

theorem digit_ne {c d : Char} (h : isDigit c = true) (hd : isDigit d = false) : c ≠ d := by
  rintro rfl
  rw [h] at hd
  cases hd

theorem takeWhile_digits {ds : Str} (rest : Str) (h : ∀ c ∈ ds, isDigit c = true)
    (hrest : ∀ c cs, rest = c :: cs → isDigit c = false) :
    (ds ++ rest).takeWhile isDigit = ds ∧ (ds ++ rest).dropWhile isDigit = rest := by
  induction ds with
  | nil =>
      cases rest with
      | nil => exact ⟨rfl, rfl⟩
      | cons c cs =>
          have hc := hrest c cs rfl
          simp [hc]
  | cons d ds ih =>
      have hd := h d (List.mem_cons_self ..)
      obtain ⟨h1, h2⟩ := ih fun c hc => h c (List.mem_cons_of_mem _ hc)
      simp [hd, h1, h2]

theorem skipSign_digit {d : Char} {s : Str} (h : isDigit d = true) :
    skipSign (d :: s) = d :: s := by
  have hp : d ≠ '+' := digit_ne h (by decide)
  have hm : d ≠ '-' := digit_ne h (by decide)
  rw [skipSign]
  · intro s h
    exact hp (List.cons.inj h).1
  · intro s h
    exact hm (List.cons.inj h).1

theorem int_eq {s : Str} (hne : skipSign s ≠ []) (hall : (skipSign s).all isDigit = true) :
    int s = .ok (intValue s) :=
  if_pos ⟨hne, hall⟩

theorem chr_eq {n : Nat} (h : n.isValidChar) : chr n = .ok (Char.ofNat n) :=
  if_pos h

theorem hexVal_hexDigit {n : Nat} (h : n < 16) : JsonGrammar.hexVal (hexDigit n) = some n := by
  have key : ∀ n < 16, JsonGrammar.hexVal (hexDigit n) = some n := by decide
  exact key n h

/-! ## Little-endian integers -/

theorem littleBytes_succ (n v : Nat) :
    littleBytes (n + 1) v = UInt8.ofNat v :: littleBytes n (v / 256) := rfl

theorem fromBytesLittle_lt (bs : Bytes) : fromBytesLittle bs < 256 ^ bs.length := by
  induction bs with
  | nil => simp [fromBytesLittle]
  | cons b bs ih =>
      have hb : b.toNat < 256 := b.toNat_lt
      simp only [fromBytesLittle, List.length_cons, Nat.pow_succ]
      omega

@[simp] theorem littleBytes_length (n v : Nat) : (littleBytes n v).length = n := by
  induction n generalizing v with
  | zero => rfl
  | succ n ih => simp [littleBytes, ih]

theorem fromBytesLittle_littleBytes (n v : Nat) :
    fromBytesLittle (littleBytes n v) = v % 256 ^ n := by
  induction n generalizing v with
  | zero => simp [littleBytes, fromBytesLittle, Nat.mod_one]
  | succ n ih =>
      have hpow : 256 ^ (n + 1) = 256 * 256 ^ n := Nat.pow_succ'
      rw [littleBytes, fromBytesLittle, ih, UInt8.toNat_ofNat', hpow, Nat.mod_mul]

theorem littleBytes_fromBytesLittle (bs : Bytes) :
    littleBytes bs.length (fromBytesLittle bs) = bs := by
  induction bs with
  | nil => rfl
  | cons b bs ih =>
      have hb : b.toNat < 256 := b.toNat_lt
      have hlow : UInt8.ofNat (b.toNat + 256 * fromBytesLittle bs) = b := by
        apply UInt8.toNat_inj.mp
        rw [UInt8.toNat_ofNat']
        omega
      have hdiv : (b.toNat + 256 * fromBytesLittle bs) / 256 = fromBytesLittle bs := by omega
      rw [List.length_cons, littleBytes, fromBytesLittle, hlow, hdiv, ih]

theorem fromBytesLittle_append (as bs : Bytes) :
    fromBytesLittle (as ++ bs) = fromBytesLittle as + 256 ^ as.length * fromBytesLittle bs := by
  induction as with
  | nil => simp [fromBytesLittle]
  | cons a as ih =>
      simp only [List.cons_append, fromBytesLittle, List.length_cons, ih, Nat.pow_succ]
      ring

end SwarmPointer.Python
