import SwarmPointer.Python.Builtins

/-!
# `implementations/python/json_input.py`

The iterative parser of §6. Its index into the text is modelled by the text
from that index on. The turns of `parse_document`'s loop are counted by the
text that remains: every turn takes at least one character
(`advance_returns`).

A frame is an open container with the members or elements it has so far, the
object with the name that waits for a value. The phases are those of the
source. Internal errors that Python would raise as `IndexError` are results of
the model as well, and none of them can occur.
-/

namespace SwarmPointer.Python.JsonInput

/-- One character matched by `NONCHARACTER`. -/
def noncharacter (c : Char) : Bool :=
  (0xFDD0 ≤ c.toNat && c.toNat ≤ 0xFDEF) || 0xFFFE ≤ c.toNat % 0x10000

/-- The members of `_WS`. -/
def inWs (c : Char) : Bool := c = ' ' || c = '\t' || c = '\n' || c = '\r'

/-- `_ws`. -/
def ws (s : Str) : Str := s.dropWhile inWs

/-- `_HEX`. -/
def inHex (c : Char) : Bool :=
  ('0' ≤ c && c ≤ '9') || ('a' ≤ c && c ≤ 'f') || ('A' ≤ c && c ≤ 'F')

/-- `_check_scalars`; a `Str` has no surrogates. -/
def checkScalars (s : Str) : Py Unit :=
  if s.any noncharacter then .error (.jsonInputError .noncharacter) else .ok ()

def invalidJson {α : Type} : Py α := .error (.jsonInputError .invalidJson)

def loneSurrogate {α : Type} : Py α := .error (.jsonInputError .loneSurrogate)

/-- `_hex4` on the four characters it slices. -/
def hex4 (a b c d : Char) : Option Nat :=
  if [a, b, c, d].all inHex then
    some ([a, b, c, d].foldl (fun n x => 16 * n + (JsonGrammar.hexVal x).getD 0) 0)
  else none

/-- The escapes of one letter. -/
def shortEscape (e : Char) : Option Char :=
  if e = '"' then some '"'
  else if e = '\\' then some '\\'
  else if e = '/' then some '/'
  else if e = 'b' then some '\x08'
  else if e = 'f' then some '\x0c'
  else if e = 'n' then some '\n'
  else if e = 'r' then some '\r'
  else if e = 't' then some '\t'
  else none

/-- `_string` after the opening quote: the string and the text after it. -/
def string (chars : Str) (s : Str) : Py (Str × Str) :=
  match s with
  | [] => invalidJson
  | c :: s =>
      if c = '"' then (checkScalars chars).map fun _ => (chars, s)
      else if c = '\\' then
        match s with
        | [] => invalidJson
        | e :: s =>
            if e = 'u' then
              match s with
              | a :: b :: c :: d :: s =>
                  match hex4 a b c d with
                  | none => invalidJson
                  | some cp =>
                      if 0xD800 ≤ cp ∧ cp ≤ 0xDBFF then
                        match s with
                        | x :: y :: s =>
                            if x = '\\' ∧ y = 'u' then
                              match s with
                              | a :: b :: c :: d :: s =>
                                  match hex4 a b c d with
                                  | none => invalidJson
                                  | some trail =>
                                      if 0xDC00 ≤ trail ∧ trail ≤ 0xDFFF then do
                                        let ch ← chr (0x10000 + (cp - 0xD800) * 1024 +
                                          (trail - 0xDC00))
                                        string (chars ++ [ch]) s
                                      else loneSurrogate
                              | _ => invalidJson
                            else loneSurrogate
                        | _ => loneSurrogate
                      else if 0xDC00 ≤ cp ∧ cp ≤ 0xDFFF then loneSurrogate
                      else do
                        let ch ← chr cp
                        string (chars ++ [ch]) s
              | _ => invalidJson
            else
              match shortEscape e with
              | some ch => string (chars ++ [ch]) s
              | none => invalidJson
      else if c.toNat ≤ 0x1F then invalidJson
      else string (chars ++ [c]) s

theorem string_nil (chars : Str) : string chars [] = invalidJson := by
  rw [string.eq_def]

/-- At least one digit: the text after the run. -/
def digitRun (s : Str) : Py Str :=
  match s with
  | [] => invalidJson
  | c :: _ => if isDigit c then .ok (s.dropWhile isDigit) else invalidJson

/-- The integer part of `_number`: one `0` or a run of digits. -/
def integerPart (s : Str) : Py Str :=
  match s with
  | [] => invalidJson
  | c :: s' =>
      if !isDigit c then invalidJson
      else if c = '0' then .ok s'
      else .ok (s.dropWhile isDigit)

/-- The fraction of `_number`, if there is one. -/
def fractionPart (s : Str) : Py Str :=
  if s.head? = some '.' then digitRun (s.drop 1) else .ok s

/-- The exponent of `_number`, if there is one. -/
def exponentPart (s : Str) : Py Str :=
  if s.head? = some 'e' ∨ s.head? = some 'E' then digitRun (skipSign (s.drop 1)) else .ok s

/-- The text after the number token at the front of `s`. -/
def scanNumber (s : Str) : Py Str := do
  let i ← integerPart (if s.head? = some '-' then s.drop 1 else s)
  let i ← fractionPart i
  exponentPart i

/-- `_number`: the value and the text after it. -/
def number (s : Str) : Py (Binary64 × Str) := do
  let i ← scanNumber s
  let token := s.take (s.length - i.length)
  match ← float token with
  | none => .error (.jsonInputError .nonFiniteNumber)
  | some value =>
      if value.mag = 0 ∧ token.head? = some '-' then .error (.jsonInputError .negativeZero)
      else .ok (value, i)

/-! ## The machine -/

/-- The phases `_VALUE`, `_KEY`, `_COLON`, `_OBJ_NEXT`, `_ARR_NEXT`. -/
inductive Phase
  | value | key | colon | objNext | arrNext
  deriving DecidableEq

/-- An open container: `[_OBJ, dict, key]` or `[_ARR, list]`. -/
inductive Frame
  | obj (members : Json.Members Str) (key : Option Str)
  | arr (items : List (Json Str))

/-- `frame[1]`. -/
def Frame.value : Frame → Json Str
  | obj members _ => .obj members
  | arr items => .arr items

structure State where
  phase : Phase
  rest : Str
  stack : List Frame

/-- Hand a completed value to the innermost container, or return it. -/
def deliver (i : Str) (value : Json Str) : List Frame → Py (State ⊕ Json Str)
  | [] => if ws i ≠ [] then invalidJson else .ok (.inr value)
  | .obj members key :: stack =>
      match key with
      | none => .error .assertionError
      | some key =>
          if key ∈ members.map Prod.fst then .error (.jsonInputError .duplicateMemberName)
          else .ok (.inl ⟨.objNext, i, .obj (members ++ [(key, value)]) (some key) :: stack⟩)
  | .arr items :: stack => .ok (.inl ⟨.arrNext, i, .arr (items ++ [value]) :: stack⟩)

/-- `stack.pop()` and the delivery of the container. -/
def pop (i : Str) : List Frame → Py (State ⊕ Json Str)
  | [] => .error .indexError
  | frame :: stack => deliver i frame.value stack

/-- `_VALUE`. -/
def valueStep (s : Str) (stack : List Frame) : Py (State ⊕ Json Str) :=
  match ws s with
  | [] => invalidJson
  | c :: i =>
      if c = '{' then
        if (ws i).head? = some '}' then deliver ((ws i).drop 1) (.obj []) stack
        else if (ws i).head? = some '"' then .ok (.inl ⟨.key, ws i, .obj [] none :: stack⟩)
        else invalidJson
      else if c = '[' then
        if (ws i).head? = some ']' then deliver ((ws i).drop 1) (.arr []) stack
        else .ok (.inl ⟨.value, ws i, .arr [] :: stack⟩)
      else if c = '"' then do
        let (value, i) ← string [] i
        deliver i (.str value) stack
      else if c = 't' then
        if i.take 3 = ['r', 'u', 'e'] then deliver (i.drop 3) (.bool true) stack else invalidJson
      else if c = 'f' then
        if i.take 4 = ['a', 'l', 's', 'e'] then deliver (i.drop 4) (.bool false) stack
        else invalidJson
      else if c = 'n' then
        if i.take 3 = ['u', 'l', 'l'] then deliver (i.drop 3) .null stack else invalidJson
      else if c = '-' ∨ isDigit c then do
        let (value, i) ← number (c :: i)
        deliver i (.num value) stack
      else invalidJson

/-- `_KEY`, at an opening quote. -/
def keyStep (s : Str) (stack : List Frame) : Py (State ⊕ Json Str) := do
  let (key, i) ← string [] (s.drop 1)
  match stack with
  | .obj members _ :: stack => .ok (.inl ⟨.colon, i, .obj members (some key) :: stack⟩)
  | _ => .error .indexError

/-- `_COLON`. -/
def colonStep (s : Str) (stack : List Frame) : Py (State ⊕ Json Str) :=
  if (ws s).head? = some ':' then .ok (.inl ⟨.value, (ws s).drop 1, stack⟩) else invalidJson

/-- `_OBJ_NEXT`. -/
def objNextStep (s : Str) (stack : List Frame) : Py (State ⊕ Json Str) :=
  match ws s with
  | [] => invalidJson
  | c :: i =>
      if c = ',' then
        if (ws i).head? = some '"' then .ok (.inl ⟨.key, ws i, stack⟩) else invalidJson
      else if c = '}' then pop i stack
      else invalidJson

/-- `_ARR_NEXT`. -/
def arrNextStep (s : Str) (stack : List Frame) : Py (State ⊕ Json Str) :=
  match ws s with
  | [] => invalidJson
  | c :: i =>
      if c = ',' then .ok (.inl ⟨.value, i, stack⟩)
      else if c = ']' then pop i stack
      else invalidJson

/-- One turn of the loop. -/
def step (σ : State) : Py (State ⊕ Json Str) :=
  match σ.phase with
  | .value => valueStep σ.rest σ.stack
  | .key => keyStep σ.rest σ.stack
  | .colon => colonStep σ.rest σ.stack
  | .objNext => objNextStep σ.rest σ.stack
  | .arrNext => arrNextStep σ.rest σ.stack

/-- At most `n` further turns; `none` when they do not end the loop. -/
def advance : Nat → Py (State ⊕ Json Str) → Option (Py (Json Str))
  | _, .error e => some (.error e)
  | _, .ok (.inr value) => some (.ok value)
  | 0, .ok (.inl _) => none
  | n + 1, .ok (.inl σ) => advance n (step σ)

/-- `parse_document`. -/
def parseDocument (s : Str) : Py (Json Str) :=
  if ws s = [] then invalidJson
  else (advance (s.length + 1) (.ok (.inl ⟨.value, ws s, []⟩))).getD (.error .assertionError)

/-- `parse_utf8`. -/
def parseUtf8 (data : Bytes) : Py (Json Str) :=
  match Unicode.decodeUtf8 data with
  | none => .error (.jsonInputError .invalidUtf8)
  | some text =>
      if text.any noncharacter then .error (.jsonInputError .noncharacter) else parseDocument text

/-- `parse_object`. -/
def parseObject (data : Bytes) : Py (Json.Members Str) := do
  match ← parseUtf8 data with
  | .obj members => .ok members
  | _ => .error (.jsonInputError .notObject)

end SwarmPointer.Python.JsonInput
