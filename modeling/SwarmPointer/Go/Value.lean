import SwarmPointer.Go.Jcs
import SwarmPointer.Lib.Raises
import SwarmPointer.Python.Builtins

/-!
# `implementations/go/value.go`

The §6 input scanner in Go. `p.pos` is modelled by the bytes from that
position on; an index or slice expression out of range is a run-time panic.
A container is handed to its parent when it is closed; the source links it
when it is opened and fills it through the pointer, which nothing reads in
between.

A scan returns the value and the bytes behind it, fails with the error the
source returns, or panics; the last two are separate constructors, so that the
absence of a panic can be stated. The two loops the source does not bound get a
number of turns that is shown elsewhere to be enough. `strconv.ParseFloat` on a
decimal literal is the same correctly rounded conversion as Python's `float`.
-/

namespace SwarmPointer.Go

open Except

/-- How a call ends without a result: with an error value, or in a panic. -/
inductive Stop (E : Type)
  | err (e : E)
  | panic
  deriving DecidableEq

/-- `var errInvalidJSON = …` and its seven siblings. -/
inductive ParseError
  | invalidJSON | invalidUTF8 | notObject | duplicate | loneSurrogate | noncharacter
  | negativeZero | nonFinite
  deriving DecidableEq

/-- A function of the scanner. -/
abbrev Scan (α : Type) := Except (Stop ParseError) α

def fail {α : Type} (e : ParseError) : Scan α := .error (.err e)

/-- `p.data[p.pos]`. -/
def indexed (data : Bytes) : Scan UInt8 :=
  match data with
  | [] => .error .panic
  | c :: _ => .ok c

/-- `strconv.ParseFloat(tok, 64)` on a decimal literal: none for a syntax error,
`some none` for a range error. -/
def parseFloat (tok : Bytes) : Option (Option Binary64) :=
  (Python.float (tok.map fun b => Char.ofNat b.toNat)).toOption

/-- `strings.Builder.WriteRune`: surrogates and what is beyond Unicode become
`U+FFFD`. -/
def writeRune (r : Nat) : Bytes :=
  String.utf8EncodeChar (if r.isValidChar then Char.ofNat r else '\uFFFD')

namespace Value

def isNoncharacter (r : Nat) : Bool :=
  (0xFDD0 ≤ r && r ≤ 0xFDEF) || r &&& 0xFFFE == 0xFFFE

def skipWS (data : Bytes) : Bytes :=
  data.dropWhile fun c => c == 0x20 || c == 0x09 || c == 0x0A || c == 0x0D

/-- `'0' <= c && c <= '9'`. -/
def isDigit (c : UInt8) : Bool := 0x30 ≤ c && c ≤ 0x39

/-! ## Strings -/

def isHex (c : UInt8) : Bool :=
  isDigit c || (0x61 ≤ c && c ≤ 0x66) || (0x41 ≤ c && c ≤ 0x46)

def hexVal (c : UInt8) : Nat :=
  if isDigit c then c.toNat - 0x30
  else if 0x61 ≤ c ∧ c ≤ 0x66 then c.toNat - 0x61 + 10
  else c.toNat - 0x41 + 10

/-- The four digits and the bytes after them. -/
def readHex4 (data : Bytes) : Scan (Nat × Bytes) :=
  match data with
  | a :: b :: c :: d :: data =>
      if isHex a && isHex b && isHex c && isHex d then
        .ok ([a, b, c, d].foldl (fun r x => r <<< 4 ||| hexVal x) 0, data)
      else fail .invalidJSON
  | _ => fail .invalidJSON

/-- The case `'u'` of `parseString`: what is written and the bytes after the
escape. -/
def unicodeEscape (data : Bytes) : Scan (Bytes × Bytes) := do
  let (r, data) ← readHex4 data
  if 0xD800 ≤ r ∧ r ≤ 0xDBFF then
    if data.take 2 = lit ['\\', 'u'] then do
      let (r2, data) ← readHex4 (data.drop 2)
      raiseIf (r2 < 0xDC00 ∨ r2 > 0xDFFF) (.err .loneSurrogate)
      let cp := 0x10000 + (r - 0xD800) <<< 10 + (r2 - 0xDC00)
      raiseIf (isNoncharacter cp) (.err .noncharacter)
      .ok (writeRune cp, data)
    else fail .loneSurrogate
  else if 0xDC00 ≤ r ∧ r ≤ 0xDFFF then fail .loneSurrogate
  else do
    raiseIf (isNoncharacter r) (.err .noncharacter)
    .ok (writeRune r, data)

/-- The one-letter cases of `switch e`: the byte written. -/
def shortEscape (e : UInt8) : Option UInt8 :=
  if e = 0x22 then some 0x22
  else if e = 0x5C then some 0x5C
  else if e = 0x2F then some 0x2F
  else if e = 0x62 then some 0x08
  else if e = 0x66 then some 0x0C
  else if e = 0x6E then some 0x0A
  else if e = 0x72 then some 0x0D
  else if e = 0x74 then some 0x09
  else none

/-- What follows a backslash. -/
def escape (data : Bytes) : Scan (Bytes × Bytes) :=
  match data with
  | [] => fail .invalidJSON
  | e :: data =>
      if e = 0x75 then unicodeEscape data
      else
        match shortEscape e with
        | some b => .ok ([b], data)
        | none => fail .invalidJSON

/-- A character that is not escaped, at its first byte. -/
def rawRune (data : Bytes) : Scan (Bytes × Bytes) := do
  let (r, size) := decodeRune data
  raiseIf (r = '\uFFFD' ∧ size = 1) (.err .invalidUTF8)
  raiseIf (isNoncharacter r.toNat) (.err .noncharacter)
  .ok (data.take size, data.drop size)

/-- The loop of `parseString`, for at most `n` turns; `b` is the builder. Every
turn takes at least one byte. -/
def parseStringLoop : Nat → Bytes → Bytes → Scan (Bytes × Bytes)
  | 0, _, _ => fail .invalidJSON
  | n + 1, b, data =>
      match data with
      | [] => fail .invalidJSON
      | c :: rest =>
          if c = 0x22 then .ok (b, rest)
          else if c = 0x5C then do
            let (out, rest) ← escape rest
            parseStringLoop n (b ++ out) rest
          else if c < 0x20 then fail .invalidJSON
          else do
            let (out, rest) ← rawRune data
            parseStringLoop n (b ++ out) rest

/-- `parseString`, after the opening quote. -/
def parseString (data : Bytes) : Scan (Bytes × Bytes) := parseStringLoop (data.length + 1) [] data

/-! ## Numbers -/

/-- At least one digit, else an error; then the digit loop. -/
def digits (data : Bytes) : Scan Bytes :=
  match data with
  | [] => fail .invalidJSON
  | c :: _ => if isDigit c then .ok (data.dropWhile isDigit) else fail .invalidJSON

/-- One `0` or a run of digits. -/
def integer (data : Bytes) : Scan Bytes :=
  match data with
  | [] => fail .invalidJSON
  | c :: rest =>
      if !isDigit c then fail .invalidJSON
      else if c = 0x30 then .ok rest
      else .ok (data.dropWhile isDigit)

def fraction (data : Bytes) : Scan Bytes :=
  if data.head? = some 0x2E then digits (data.drop 1) else .ok data

def exponent (data : Bytes) : Scan Bytes :=
  if data.head? = some 0x65 ∨ data.head? = some 0x45 then
    let data := data.drop 1
    digits (if data.head? = some 0x2B ∨ data.head? = some 0x2D then data.drop 1 else data)
  else .ok data

/-- The bytes after the number token at the front. -/
def scanNumber (data : Bytes) : Scan Bytes := do
  let c ← indexed data
  let data ← integer (if c = 0x2D then data.drop 1 else data)
  let data ← fraction data
  exponent data

def parseNumber (data : Bytes) : Scan (Binary64 × Bytes) := do
  let rest ← scanNumber data
  match parseFloat (data.take (data.length - rest.length)) with
  | none => fail .invalidJSON
  | some none => fail .nonFinite
  | some (some f) =>
      if f.mag = 0 ∧ f.neg then fail .negativeZero else .ok (f, rest)

/-! ## Tokens -/

inductive Token
  | objOpen | objClose | arrOpen | arrClose | comma | colon
  | scalar (val : Json Bytes)

/-- The bytes after a literal. -/
def literal (s : Bytes) (data : Bytes) : Option Bytes :=
  if data.take s.length = s then some (data.drop s.length) else none

/-- A literal with its value. -/
def scanLiteral (s : Bytes) (v : Json Bytes) (data : Bytes) : Scan (Token × Bytes) :=
  match literal s data with
  | some rest => .ok (.scalar v, rest)
  | none => fail .invalidJSON

/-- One case of the switch in `tokenize`; `data` starts with `c`. -/
def scanToken (c : UInt8) (data : Bytes) : Scan (Token × Bytes) :=
  if c = 0x7B then .ok (.objOpen, data.drop 1)
  else if c = 0x7D then .ok (.objClose, data.drop 1)
  else if c = 0x5B then .ok (.arrOpen, data.drop 1)
  else if c = 0x5D then .ok (.arrClose, data.drop 1)
  else if c = 0x2C then .ok (.comma, data.drop 1)
  else if c = 0x3A then .ok (.colon, data.drop 1)
  else if c = 0x22 then do
    let (s, data) ← parseString (data.drop 1)
    .ok (.scalar (.str s), data)
  else if c = 0x74 then scanLiteral (lit "true".toList) (.bool true) data
  else if c = 0x66 then scanLiteral (lit "false".toList) (.bool false) data
  else if c = 0x6E then scanLiteral (lit "null".toList) .null data
  else if c = 0x2D ∨ isDigit c then do
    let (f, data) ← parseNumber data
    .ok (.scalar (.num f), data)
  else fail .invalidJSON

/-- The loop of `tokenize`, for at most `n` turns: the tokens and the bytes that
are left. Every turn takes at least one byte. -/
def tokenizeLoop : Nat → List Token → Bytes → Scan (List Token × Bytes)
  | 0, _, _ => fail .invalidJSON
  | n + 1, toks, data =>
      match skipWS data with
      | [] => .ok (toks, [])
      | c :: rest => do
          let (tok, data) ← scanToken c (c :: rest)
          tokenizeLoop n (toks ++ [tok]) data

def tokenize (data : Bytes) : Scan (List Token × Bytes) := tokenizeLoop (data.length + 1) [] data

/-! ## The tree -/

/-- The phases of an object frame. -/
inductive ObjPhase
  | keyOrClose | key | colon | value | commaOrClose
  deriving DecidableEq

/-- The phases of an array frame. -/
inductive ArrPhase
  | valOrClose | val | commaOrClose
  deriving DecidableEq

/-- An open container. `pendKey` stays until the value under it is complete. -/
inductive Frame
  | obj (members : Json.Members Bytes) (keys : List Bytes) (ph : ObjPhase) (pendKey : Bytes)
  | arr (items : List (Json Bytes)) (ph : ArrPhase)

/-- The stack, innermost first, and the root once it is done. -/
structure Builder where
  stack : List Frame
  root : Option (Json Bytes)

/-- `f.val.Obj = append(…)` or `f.val.Arr = append(…)`. -/
def Frame.append (v : Json Bytes) : Frame → Frame
  | .obj members keys _ pendKey => .obj (members ++ [(pendKey, v)]) keys .commaOrClose []
  | .arr items _ => .arr (items ++ [v]) .commaOrClose

/-- The parent of a container that is being opened. -/
def Frame.expect : Frame → Frame
  | .obj members keys _ pendKey => .obj members keys .commaOrClose pendKey
  | .arr items _ => .arr items .commaOrClose

/-- A complete value, for the innermost frame or as the root. -/
def complete (v : Json Bytes) : List Frame → Builder
  | [] => ⟨[], some v⟩
  | f :: stack => ⟨f.append v :: stack, none⟩

def Frame.newObj : Frame := .obj [] [] .keyOrClose []

def Frame.newArr : Frame := .arr [] .valOrClose

/-- A token where a value is expected; `stack` holds the frame that expects it. -/
def valueToken (t : Token) (stack : List Frame) : Scan Builder :=
  let parents := match stack with
    | [] => []
    | f :: stack => f.expect :: stack
  match t with
  | .objOpen => .ok ⟨.newObj :: parents, none⟩
  | .arrOpen => .ok ⟨.newArr :: parents, none⟩
  | .scalar v => .ok (complete v stack)
  | _ => fail .invalidJSON

/-- The cases `objKeyOrClose` and `objKey`. -/
def keyToken (t : Token) (members : Json.Members Bytes) (keys : List Bytes) (ph : ObjPhase)
    (stack : List Frame) : Scan Builder :=
  match t with
  | .objClose => if ph = .keyOrClose then .ok (complete (.obj members) stack) else fail .invalidJSON
  | .scalar (.str k) =>
      if k ∈ keys then fail .duplicate
      else .ok ⟨.obj members (keys ++ [k]) .colon k :: stack, none⟩
  | _ => fail .invalidJSON

/-- One turn of the loop of `buildValue`. -/
def buildStep (b : Builder) (t : Token) : Scan Builder :=
  match b.root with
  | some _ => fail .invalidJSON
  | none =>
      match b.stack with
      | [] => valueToken t []
      | .obj members keys ph pendKey :: stack =>
          match ph with
          | .keyOrClose => keyToken t members keys .keyOrClose stack
          | .key => keyToken t members keys .key stack
          | .colon =>
              match t with
              | .colon => .ok ⟨.obj members keys .value pendKey :: stack, none⟩
              | _ => fail .invalidJSON
          | .value => valueToken t b.stack
          | .commaOrClose =>
              match t with
              | .comma => .ok ⟨.obj members keys .key pendKey :: stack, none⟩
              | .objClose => .ok (complete (.obj members) stack)
              | _ => fail .invalidJSON
      | .arr items ph :: stack =>
          match ph with
          | .valOrClose =>
              match t with
              | .arrClose => .ok (complete (.arr items) stack)
              | t => valueToken t b.stack
          | .val => valueToken t b.stack
          | .commaOrClose =>
              match t with
              | .comma => .ok ⟨.arr items .val :: stack, none⟩
              | .arrClose => .ok (complete (.arr items) stack)
              | _ => fail .invalidJSON

/-- What is returned after the last token. -/
def finish (b : Builder) : Scan (Json Bytes) :=
  match b.stack, b.root with
  | [], some root => .ok root
  | _, _ => fail .invalidJSON

def buildValue (toks : List Token) : Scan (Json Bytes) := do
  finish (← toks.foldlM buildStep ⟨[], none⟩)

/-! ## The document -/

def parseDocument (data : Bytes) : Scan (Json Bytes) := do
  let (toks, rest) ← tokenize data
  let v ← buildValue toks
  raiseIf (skipWS rest ≠ []) (.err .invalidJSON)
  .ok v

/-- `ParseIJSON`. -/
def parseIJSON (data : Bytes) : Scan (Json Bytes) := do
  raiseIf (data.take 3 = [0xEF, 0xBB, 0xBF]) (.err .invalidJSON)
  raiseIf ((ByteArray.mk data.toArray).utf8Decode?.isNone) (.err .invalidUTF8)
  raiseIf (skipWS data = []) (.err .invalidJSON)
  match ← parseDocument (skipWS data) with
  | .obj members => .ok (.obj members)
  | _ => fail .notObject

end Value

end SwarmPointer.Go
