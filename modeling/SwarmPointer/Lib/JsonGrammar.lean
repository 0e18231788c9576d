import SwarmPointer.Lib.Decimal

/-!
# The JSON grammar — RFC 8259 as derivations

A `Phrase` is a derivation and its `text` the phrase derived, white space,
escapes and number spelling included. Side conditions of the grammar are
carried by the types of the leaves, so an ill-formed derivation cannot be
built. `L` adds literals of a host beyond the grammar; the grammar itself is
`Phrase Empty`.

Nothing is interpreted here. `decode` reads the escapes of a string, because
the grammar of a string needs them to pair surrogates; what a number denotes
and which derivations a profile admits is left to the user of the grammar.
-/

namespace JsonGrammar

/-! ## Characters -/

/-- White space: blank, tab, line feed, carriage return. -/
def isWs (c : Char) : Bool := c = ' ' || c = '\t' || c = '\n' || c = '\r'

/-- The value of a hexadecimal digit, either case. -/
def hexVal (c : Char) : Option Nat :=
  if '0' ≤ c ∧ c ≤ '9' then some (c.toNat - 48)
  else if 'a' ≤ c ∧ c ≤ 'f' then some (c.toNat - 87)
  else if 'A' ≤ c ∧ c ≤ 'F' then some (c.toNat - 55)
  else none

/-- A run of white space. -/
abbrev Ws := {cs : List Char // ∀ c ∈ cs, isWs c = true}

/-- A non-empty run of digits. -/
abbrev Digits := {ds : List Char // ds ≠ [] ∧ ∀ c ∈ ds, c.isDigit = true}

/-- A hexadecimal digit. -/
abbrev HexDigit := {c : Char // (hexVal c).isSome = true}

/-- The digit string `0`. -/
def Digits.zero : Digits :=
  ⟨['0'], List.cons_ne_nil _ _, fun c hc => by rw [List.mem_singleton.mp hc]; rfl⟩

@[simp] theorem Digits.zero_val : Digits.zero.1 = ['0'] := rfl

def Ws.none : Ws := ⟨[], nofun⟩

def Ws.append (w w' : Ws) : Ws :=
  ⟨w.1 ++ w'.1, fun c hc => (List.mem_append.mp hc).elim (w.2 c) (w'.2 c)⟩

def HexDigit.val (c : HexDigit) : Nat := (hexVal c.1).get c.2

/-! ## Strings -/

/-- The two-character escapes. -/
inductive Short
  | quote | backslash | slash | b | f | n | r | t
  deriving DecidableEq

/-- What follows the backslash. -/
def Short.letter : Short → Char
  | quote => '"'
  | backslash => '\\'
  | slash => '/'
  | b => 'b'
  | f => 'f'
  | n => 'n'
  | r => 'r'
  | t => 't'

/-- What the escape stands for. -/
def Short.char : Short → Char
  | quote => '"'
  | backslash => '\\'
  | slash => '/'
  | b => '\x08'
  | f => '\x0c'
  | n => '\n'
  | r => '\r'
  | t => '\t'

/-- One character of a string as it is spelled. -/
inductive Piece
  | raw (c : Char) (h : 0x20 ≤ c.toNat ∧ c ≠ '"' ∧ c ≠ '\\')
  | short (e : Short)
  | unicode (a b c d : HexDigit)

/-- The code of a `\u` escape. -/
def hexCode (a b c d : HexDigit) : Nat :=
  4096 * a.val + 256 * b.val + 16 * c.val + d.val

theorem HexDigit.val_lt (c : HexDigit) : c.val < 16 := by
  have key : ∀ n, hexVal c.1 = some n → n < 16 := by
    intro n h
    have char_le : ∀ {a b : Char}, a ≤ b → a.toNat ≤ b.toNat := fun h => h
    rw [hexVal] at h
    split at h
    · rename_i hc
      have hhi : c.1.toNat ≤ 57 := char_le hc.2
      have := Option.some.inj h
      omega
    split at h
    · rename_i hc
      have hhi : c.1.toNat ≤ 102 := char_le hc.2
      have := Option.some.inj h
      omega
    split at h
    · rename_i hc
      have hhi : c.1.toNat ≤ 70 := char_le hc.2
      have := Option.some.inj h
      omega
    · cases h
  exact key _ (Option.some_get c.2).symm

theorem hexCode_lt (a b c d : HexDigit) : hexCode a b c d < 0x10000 := by
  have ha := a.val_lt
  have hb := b.val_lt
  have hc := c.val_lt
  have hd := d.val_lt
  rw [hexCode]
  omega

def Piece.text : Piece → List Char
  | raw c _ => [c]
  | short e => ['\\', e.letter]
  | unicode a b c d => ['\\', 'u', a.1, b.1, c.1, d.1]

def piecesText (ps : List Piece) : List Char := ps.flatMap Piece.text

/-- A string with its quotes. -/
def stringText (ps : List Piece) : List Char := '"' :: (piecesText ps ++ ['"'])

def isHighCode (n : Nat) : Bool := 0xD800 ≤ n && n ≤ 0xDBFF

def isLowCode (n : Nat) : Bool := 0xDC00 ≤ n && n ≤ 0xDFFF

/-- The character of a surrogate pair. -/
def pairChar (hi lo : Nat) : Char := Char.ofNat (0x10000 + (hi - 0xD800) * 1024 + (lo - 0xDC00))

/-- The characters spelled; `none` when a surrogate escape is not half of a
pair of adjacent escapes. -/
def decode : List Piece → Option (List Char)
  | [] => some []
  | .raw c _ :: ps => (decode ps).map (c :: ·)
  | .short e :: ps => (decode ps).map (e.char :: ·)
  | .unicode a b c d :: ps =>
      if isHighCode (hexCode a b c d) then
        match ps with
        | .unicode a' b' c' d' :: ps =>
            if isLowCode (hexCode a' b' c' d') then
              (decode ps).map (pairChar (hexCode a b c d) (hexCode a' b' c' d') :: ·)
            else none
        | _ => none
      else if isLowCode (hexCode a b c d) then none
      else (decode ps).map (Char.ofNat (hexCode a b c d) :: ·)

/-! ## Numbers -/

inductive Sign
  | none | plus | minus
  deriving DecidableEq

def Sign.text : Sign → List Char
  | none => []
  | plus => ['+']
  | minus => ['-']

/-- `e` or `E`, an optional sign, digits. -/
structure Exponent where
  capital : Bool
  sign : Sign
  digits : Digits

def Exponent.text (e : Exponent) : List Char :=
  (if e.capital then 'E' else 'e') :: (e.sign.text ++ e.digits.1)

/-- The value of a digit string. -/
def digitsValue (ds : List Char) : Nat := Nat.ofDigitChars 10 ds 0

/-- A fraction as it is spelled, nothing when there is none. -/
def fracText (frac : Option Digits) : List Char := frac.elim [] fun ds => '.' :: ds.1

/-- An exponent as it is spelled, nothing when there is none. -/
def expText (exp : Option Exponent) : List Char := exp.elim [] Exponent.text

def Exponent.value (e : Exponent) : Int :=
  match e.sign with
  | .minus => -(digitsValue e.digits.1)
  | _ => digitsValue e.digits.1

/-- An integer part without superfluous zeros, fraction, exponent. -/
structure Number where
  neg : Bool
  int : Digits
  lead : int.1 = ['0'] ∨ int.1.head? ≠ some '0'
  frac : Option Digits
  exp : Option Exponent

namespace Number

def text (x : Number) : List Char :=
  (if x.neg then ['-'] else []) ++ x.int.1 ++ fracText x.frac ++ expText x.exp

/-- The magnitude the token denotes. -/
def decimal (x : Number) : Decimal :=
  let frac := x.frac.elim [] Subtype.val
  ⟨digitsValue (x.int.1 ++ frac), x.exp.elim 0 Exponent.value - frac.length⟩

end Number

/-! ## Values -/

mutual

/-- A derivation of `value`. -/
inductive Phrase (L : Type)
  | null
  | bool (b : Bool)
  | num (x : Number)
  | str (s : List Piece)
  | ext (l : L)
  | arrEmpty (w : Ws)
  | arr (es : Elements L)
  | objEmpty (w : Ws)
  | obj (ms : Members L)

/-- One or more elements, the white space around each included. -/
inductive Elements (L : Type)
  | one (w : Ws) (t : Phrase L) (w' : Ws)
  | cons (w : Ws) (t : Phrase L) (w' : Ws) (es : Elements L)

/-- One or more members: name, colon and value with the white space around. -/
inductive Members (L : Type)
  | one (w : Ws) (k : List Piece) (w₁ w₂ : Ws) (t : Phrase L) (w' : Ws)
  | cons (w : Ws) (k : List Piece) (w₁ w₂ : Ws) (t : Phrase L) (w' : Ws) (ms : Members L)

end

section
variable {L : Type} (ext : L → List Char)

mutual

/-- The phrase derived. -/
def Phrase.text : Phrase L → List Char
  | .null => ['n', 'u', 'l', 'l']
  | .bool true => ['t', 'r', 'u', 'e']
  | .bool false => ['f', 'a', 'l', 's', 'e']
  | .num x => x.text
  | .str s => stringText s
  | .ext l => ext l
  | .arrEmpty w => '[' :: (w.1 ++ [']'])
  | .arr es => '[' :: (es.text ++ [']'])
  | .objEmpty w => '{' :: (w.1 ++ ['}'])
  | .obj ms => '{' :: (ms.text ++ ['}'])

def Elements.text : Elements L → List Char
  | .one w t w' => w.1 ++ t.text ++ w'.1
  | .cons w t w' es => w.1 ++ t.text ++ w'.1 ++ ',' :: es.text

def Members.text : Members L → List Char
  | .one w k w₁ w₂ t w' => w.1 ++ stringText k ++ w₁.1 ++ ':' :: (w₂.1 ++ t.text ++ w'.1)
  | .cons w k w₁ w₂ t w' ms =>
      w.1 ++ stringText k ++ w₁.1 ++ ':' :: (w₂.1 ++ t.text ++ w'.1 ++ ',' :: ms.text)

end

end

/-! ## Other literals -/

section
variable {L L' : Type} (f : L → L')

mutual

/-- The derivation with its literals renamed. -/
def Phrase.map : Phrase L → Phrase L'
  | .null => .null
  | .bool b => .bool b
  | .num x => .num x
  | .str s => .str s
  | .ext l => .ext (f l)
  | .arrEmpty w => .arrEmpty w
  | .arr es => .arr es.map
  | .objEmpty w => .objEmpty w
  | .obj ms => .obj ms.map

def Elements.map : Elements L → Elements L'
  | .one w t w' => .one w t.map w'
  | .cons w t w' es => .cons w t.map w' es.map

def Members.map : Members L → Members L'
  | .one w k w₁ w₂ t w' => .one w k w₁ w₂ t.map w'
  | .cons w k w₁ w₂ t w' ms => .cons w k w₁ w₂ t.map w' ms.map

end

variable (ext : L' → List Char)

mutual

theorem Phrase.text_map (t : Phrase L) : (t.map f).text ext = t.text fun l => ext (f l) := by
  match t with
  | .null => rfl
  | .bool b => cases b <;> rfl
  | .num x => rfl
  | .str s => rfl
  | .ext l => rfl
  | .arrEmpty w => rfl
  | .arr es => rw [Phrase.map, Phrase.text, Phrase.text, Elements.text_map es]
  | .objEmpty w => rfl
  | .obj ms => rw [Phrase.map, Phrase.text, Phrase.text, Members.text_map ms]

theorem Elements.text_map (es : Elements L) :
    (es.map f).text ext = es.text fun l => ext (f l) := by
  match es with
  | .one w t w' => rw [Elements.map, Elements.text, Elements.text, Phrase.text_map t]
  | .cons w t w' es =>
      rw [Elements.map, Elements.text, Elements.text, Phrase.text_map t, Elements.text_map es]

theorem Members.text_map (ms : Members L) :
    (ms.map f).text ext = ms.text fun l => ext (f l) := by
  match ms with
  | .one w k w₁ w₂ t w' => rw [Members.map, Members.text, Members.text, Phrase.text_map t]
  | .cons w k w₁ w₂ t w' ms =>
      rw [Members.map, Members.text, Members.text, Phrase.text_map t, Members.text_map ms]

end

end

end JsonGrammar
