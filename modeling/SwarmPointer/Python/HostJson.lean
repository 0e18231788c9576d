import SwarmPointer.Jcs.Rfc8785
import SwarmPointer.JsonInput.Language
import SwarmPointer.Lib.JsonReader
import SwarmPointer.Lib.Multimap
import SwarmPointer.Python.Builtins

/-!
# The standard library's `json`

`json.loads` and `json.dumps(…, ensure_ascii=False, separators=(",", ":"))`
as the federation worker calls them. Strings may hold lone surrogates, whole
numbers are exact integers and the members of a `dict` come from the last of
equal names. There is no limit on nesting or on the digits of an integer.

`loads` is the reader of the grammar, with the three constants of the codec as
literals of the host, followed by the value of the derivation: an integer token
becomes an `int`, every other number a `float`, which may overflow to infinity.
`dumps` writes the `repr` of a float and escapes what RFC 8785 escapes, since
with `ensure_ascii=False` the codec's table is the same.
-/

namespace SwarmPointer.Python.HostJson

open JsonGrammar

/-! ## Values -/

/-- A code point of a `str`. -/
inductive CodePoint
  | scalar (c : Char)
  | surrogate (n : Fin 2048)
  deriving DecidableEq

/-- A `str`. -/
abbrev PyStr := List CodePoint

/-- A `str` without surrogates. -/
def ofStr (s : Str) : PyStr := s.map .scalar

/-- The characters of a `str`; none when there is a surrogate among them. -/
def chars : PyStr → Option Str
  | [] => some []
  | .scalar c :: s => (chars s).map (c :: ·)
  | .surrogate _ :: _ => none

/-- `s.encode("utf-8")`; none is a `UnicodeEncodeError`. -/
def encode (s : PyStr) : Option Bytes := (chars s).map Unicode.utf8

inductive PyFloat
  | finite (x : Binary64)
  | inf (neg : Bool)
  | nan

inductive Value
  | none
  | bool (b : Bool)
  | int (z : Int)
  | float (x : PyFloat)
  | str (s : PyStr)
  | list (vs : List Value)
  | dict (ms : List (PyStr × Value))

/-! ## `loads` -/

/-- The constants `loads` takes beyond the grammar. -/
inductive Constant
  | nan | infinity | negInfinity
  deriving DecidableEq

def Constant.text : Constant → Str
  | nan => ['N', 'a', 'N']
  | infinity => ['I', 'n', 'f', 'i', 'n', 'i', 't', 'y']
  | negInfinity => ['-', 'I', 'n', 'f', 'i', 'n', 'i', 't', 'y']

def Constant.value : Constant → PyFloat
  | nan => .nan
  | infinity => .inf false
  | negInfinity => .inf true

def Constant.read (s : Str) : Option (Constant × Str) :=
  if s.take 3 = ['N', 'a', 'N'] then some (.nan, s.drop 3)
  else if s.take 8 = ['I', 'n', 'f', 'i', 'n', 'i', 't', 'y'] then some (.infinity, s.drop 8)
  else if s.take 9 = ['-', 'I', 'n', 'f', 'i', 'n', 'i', 't', 'y'] then
    some (.negInfinity, s.drop 9)
  else none

theorem Constant.read_sound {s : Str} {l : Constant} {r : Str} (h : read s = some (l, r)) :
    s = l.text ++ r := by
  rw [read] at h
  split at h
  · rename_i hs
    obtain ⟨rfl, rfl⟩ := Prod.mk.inj (Option.some.inj h)
    exact Reader.take_text hs
  split at h
  · rename_i hs
    obtain ⟨rfl, rfl⟩ := Prod.mk.inj (Option.some.inj h)
    exact Reader.take_text hs
  split at h
  · rename_i hs
    obtain ⟨rfl, rfl⟩ := Prod.mk.inj (Option.some.inj h)
    exact Reader.take_text hs
  · cases h

def constants : Reader.Literals Constant where
  text := Constant.text
  read := Constant.read
  sound := Constant.read_sound
  complete l r := by cases l <;> rfl
  head l := by
    cases l
    · exact ⟨'N', _, rfl, rfl, by decide⟩
    · exact ⟨'I', _, rfl, rfl, by decide⟩
    · exact ⟨'-', _, rfl, rfl, by decide⟩
  no_number l r := by cases l <;> rfl

/-- `chr` of a code that may be a surrogate. -/
def codePoint (n : Nat) : CodePoint :=
  if isHighCode n || isLowCode n then .surrogate (Fin.ofNat 2048 (n - 0xD800))
  else .scalar (Char.ofNat n)

/-- `scanstring`: a pair of adjacent surrogate escapes is one character, any
other surrogate escape stays. -/
def scanString : List Piece → PyStr
  | [] => []
  | .raw c _ :: ps => .scalar c :: scanString ps
  | .short e :: ps => .scalar e.char :: scanString ps
  | .unicode a b c d :: ps =>
      if isHighCode (hexCode a b c d) then
        match ps with
        | .unicode a' b' c' d' :: ps' =>
            if isLowCode (hexCode a' b' c' d') then
              .scalar (pairChar (hexCode a b c d) (hexCode a' b' c' d')) :: scanString ps'
            else codePoint (hexCode a b c d) :: scanString (.unicode a' b' c' d' :: ps')
        | ps' => codePoint (hexCode a b c d) :: scanString ps'
      else codePoint (hexCode a b c d) :: scanString ps

/-- The integer of a token without fraction and exponent. -/
def intOf (x : Number) : Int :=
  if x.neg then -(digitsValue x.int.1 : Int) else digitsValue x.int.1

/-- `float` of a token. -/
def floatOf (x : Number) : PyFloat := (JsonInput.numberValue x).elim (.inf x.neg) .finite

def matchNumber (x : Number) : Value :=
  if x.frac.isNone && x.exp.isNone then .int (intOf x) else .float (floatOf x)

/-- A `dict` from pairs. -/
def dictOf (ps : List (PyStr × Value)) : List (PyStr × Value) :=
  ps.foldl (fun ms p => Multimap.set ms p.1 p.2) []

mutual

/-- The value of a derivation. -/
def value : Phrase Constant → Value
  | .null => .none
  | .bool b => .bool b
  | .num x => matchNumber x
  | .str s => .str (scanString s)
  | .ext l => .float l.value
  | .arrEmpty _ => .list []
  | .arr es => .list (items es)
  | .objEmpty _ => .dict []
  | .obj ms => .dict (dictOf (pairs ms))

def items : Elements Constant → List Value
  | .one _ t _ => [value t]
  | .cons _ t _ es => value t :: items es

def pairs : Members Constant → List (PyStr × Value)
  | .one _ k _ _ t _ => [(scanString k, value t)]
  | .cons _ k _ _ t _ ms => (scanString k, value t) :: pairs ms

end

/-- `json.loads`. -/
def loads (s : Str) : Py Value :=
  match Reader.document constants s with
  | some (_, t, _) => .ok (value t)
  | none => .error .valueError

/-- `json.loads(data.decode("utf-8"))`. -/
def loadsUtf8 (data : Bytes) : Py Value :=
  match Unicode.decodeUtf8 data with
  | some s => loads s
  | none => .error .valueError

/-! ## `dumps` -/

/-- `int.__repr__`. -/
def intText (z : Int) : Str := (if z < 0 then ['-'] else []) ++ Nat.toDigits 10 z.natAbs

/-- `float.__repr__`, with the names `json` has for what is not finite. -/
def floatText : PyFloat → Str
  | .finite x => reprNumber x
  | .inf neg => if neg then Constant.negInfinity.text else Constant.infinity.text
  | .nan => Constant.nan.text

/-- `ESCAPE_DCT` has the escapes of RFC 8785; surrogates stay. -/
def escapePoint : CodePoint → PyStr
  | .scalar c => ofStr (Rfc8785.escape c)
  | .surrogate n => [.surrogate n]

def quote (s : PyStr) : PyStr := .scalar '"' :: (s.flatMap escapePoint ++ [.scalar '"'])

mutual

/-- `json.dumps`. -/
def dumps : Value → PyStr
  | .none => ofStr ['n', 'u', 'l', 'l']
  | .bool true => ofStr ['t', 'r', 'u', 'e']
  | .bool false => ofStr ['f', 'a', 'l', 's', 'e']
  | .int z => ofStr (intText z)
  | .float x => ofStr (floatText x)
  | .str s => quote s
  | .list vs => .scalar '[' :: ([.scalar ','].intercalate (dumpsList vs) ++ [.scalar ']'])
  | .dict ms => .scalar '{' :: ([.scalar ','].intercalate (dumpsPairs ms) ++ [.scalar '}'])

def dumpsList : List Value → List PyStr
  | [] => []
  | v :: vs => dumps v :: dumpsList vs

def dumpsPairs : List (PyStr × Value) → List PyStr
  | [] => []
  | (k, v) :: ms => (quote k ++ .scalar ':' :: dumps v) :: dumpsPairs ms

end

end SwarmPointer.Python.HostJson
