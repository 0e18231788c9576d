import SwarmPointer.Lib.Lines
import SwarmPointer.Python.Builtins

/-!
# Python text methods

What the relay does with header and cursor text. Header text is Latin-1, so
the white space and the digits are those of Latin-1. `strip` and `int` do not
agree on white space: the separators 1C to 1F are white space to `isspace`,
but `int` leaves ASCII text as it is and skips what C calls white space, and
only the two space characters above ASCII become spaces first.

The last section says what `int` reads as a grammar (`Numeral`), so that a
result about text can name the numerals and not the function.
-/

namespace SwarmPointer.Python

/-- `c.isspace()`. -/
def isSpace (c : Char) : Bool :=
  (9 ≤ c.toNat && c.toNat ≤ 13) || (28 ≤ c.toNat && c.toNat ≤ 32) || c.toNat = 0x85 ||
    c.toNat = 0xA0

/-- The white space of `int`. -/
def isIntSpace (c : Char) : Bool :=
  (9 ≤ c.toNat && c.toNat ≤ 13) || c = ' ' || c.toNat = 0x85 || c.toNat = 0xA0

/-- `s.strip()` with the characters to strip. -/
def stripBy (p : Char → Bool) (s : Str) : Str := ((s.dropWhile p).reverse.dropWhile p).reverse

/-- `s.lower()` where only ASCII letters matter. -/
def lower (s : Str) : Str := s.map Char.toLower

/-- The most digits `int` converts. -/
def MAX_STR_DIGITS : Nat := 4300

/-- `int(s)`: white space around, a sign, digits with single underscores between. -/
def intText (s : Str) : Py Int :=
  let t := stripBy isIntSpace s
  let groups := (skipSign t).splitOn '_'
  if (∀ g ∈ groups, g ≠ [] ∧ g.all isDigit) ∧ groups.flatten.length ≤ MAX_STR_DIGITS then
    .ok (if t.head? = some '-' then -(Nat.ofDigitChars 10 groups.flatten 0 : Nat)
      else Nat.ofDigitChars 10 groups.flatten 0)
  else .error .valueError

/-- `bs.decode("ascii")`. -/
def decodeAscii (bs : Bytes) : Py Str :=
  if ∀ b ∈ bs, b < 128 then .ok (bs.map fun b => Char.ofNat b.toNat) else .error .valueError

/-- `\u` and four digits. -/
def escapeUnit (u : Nat) : Str :=
  ['\\', 'u', hexDigit (u / 4096 % 16), hexDigit (u / 256 % 16), hexDigit (u / 16 % 16),
    hexDigit (u % 16)]

/-- One character as `json.dumps` writes it. -/
def dumpsChar (c : Char) : Str :=
  if c = '"' then ['\\', '"']
  else if c = '\\' then ['\\', '\\']
  else if c = '\n' then ['\\', 'n']
  else if c = '\x0d' then ['\\', 'r']
  else if c = '\t' then ['\\', 't']
  else if c = '\x0c' then ['\\', 'f']
  else if c = '\x08' then ['\\', 'b']
  else if 0x20 ≤ c.toNat ∧ c.toNat ≤ 0x7E then [c]
  else (Unicode.utf16Char c).flatMap fun u => escapeUnit u.toNat

/-- `json.dumps(s)`. -/
def dumps (s : Str) : Str := '"' :: s.flatMap dumpsChar ++ ['"']

/-! ## What `int` reads -/

/-- Integer text: white space, a sign, groups of digits with single underscores
between, white space; at most as many digits as `int` converts. -/
structure Numeral where
  before : Str
  sign : Option Bool
  groups : List Str
  after : Str
  blank : ∀ c ∈ before ++ after, isIntSpace c = true
  groups_ne_nil : groups ≠ []
  digits : ∀ g ∈ groups, g ≠ [] ∧ ∀ c ∈ g, isDigit c = true
  short : groups.flatten.length ≤ MAX_STR_DIGITS

namespace Numeral

/-- No sign, a minus or a plus. -/
def signText : Option Bool → Str
  | none => []
  | some true => ['-']
  | some false => ['+']

def core (m : Numeral) : Str := signText m.sign ++ ['_'].intercalate m.groups

def text (m : Numeral) : Str := m.before ++ m.core ++ m.after

def value (m : Numeral) : Int :=
  if m.sign = some true then -(Nat.ofDigitChars 10 m.groups.flatten 0 : Nat)
  else Nat.ofDigitChars 10 m.groups.flatten 0

end Numeral

theorem stripBy_around {p : Char → Bool} {before s after : Str} (hs : s ≠ [])
    (hbefore : ∀ c ∈ before, p c = true) (h : ∀ c ∈ s, p c = false)
    (hafter : ∀ c ∈ after, p c = true) : stripBy p (before ++ s ++ after) = s := by
  have drop : ∀ {l t r : Str}, (∀ c ∈ l, p c = true) → t ≠ [] → (∀ c ∈ t, p c = false) →
      (l ++ (t ++ r)).dropWhile p = t ++ r := by
    intro l t r hl ht htp
    rw [List.dropWhile_append_of_pos hl]
    cases t with
    | nil => exact absurd rfl ht
    | cons c t => rw [List.cons_append, List.dropWhile_cons, htp c (List.mem_cons_self ..)]; rfl
  have hrev : (s ++ after).reverse = after.reverse ++ (s.reverse ++ []) := by
    rw [List.reverse_append, List.append_nil]
  rw [stripBy, List.append_assoc, drop hbefore hs h, hrev,
    drop (fun c hc => hafter c (List.mem_reverse.mp hc)) (mt List.reverse_eq_nil_iff.mp hs)
      (fun c hc => h c (List.mem_reverse.mp hc)), List.append_nil, List.reverse_reverse]

/-- What is stripped off lies around what is left. -/
theorem stripBy_split (p : Char → Bool) (s : Str) : ∃ before after,
    s = before ++ stripBy p s ++ after ∧ (∀ c ∈ before, p c = true) ∧ ∀ c ∈ after, p c = true := by
  refine ⟨s.takeWhile p, ((s.dropWhile p).reverse.takeWhile p).reverse, ?_,
    List.all_eq_true.mp List.all_takeWhile,
    fun c hc => List.all_eq_true.mp List.all_takeWhile c (List.mem_reverse.mp hc)⟩
  rw [stripBy, List.append_assoc, ← List.reverse_append, List.takeWhile_append_dropWhile,
    List.reverse_reverse, List.takeWhile_append_dropWhile]

theorem digit_not_space {c : Char} (h : isDigit c = true) : isIntSpace c = false := by
  have hlo : 48 ≤ c.toNat ∧ c.toNat ≤ 57 := by
    simp only [isDigit, Char.isDigit, Bool.and_eq_true, decide_eq_true_eq] at h
    exact ⟨h.1, h.2⟩
  have hspace : c ≠ ' ' := by
    rintro rfl
    exact absurd h (by decide)
  simp only [isIntSpace, Bool.or_eq_false_iff, Bool.and_eq_false_iff, decide_eq_false_iff_not]
  refine ⟨⟨⟨?_, hspace⟩, ?_⟩, ?_⟩ <;> omega

namespace Numeral

theorem body_ne_nil (m : Numeral) : ['_'].intercalate m.groups ≠ [] := by
  obtain ⟨g, groups, hgroups⟩ := List.exists_cons_of_ne_nil m.groups_ne_nil
  have hne := (m.digits g (by rw [hgroups]; exact List.mem_cons_self ..)).1
  rw [hgroups]
  cases groups with
  | nil => rwa [List.intercalate_singleton]
  | cons g' groups =>
      rw [List.intercalate_cons_cons]
      exact List.append_ne_nil_of_left_ne_nil (List.append_ne_nil_of_left_ne_nil hne _) _

theorem mem_core {m : Numeral} {c : Char} (hc : c ∈ m.core) : isIntSpace c = false := by
  rw [core, List.mem_append] at hc
  rcases hc with hsign | hbody
  · cases hm : m.sign with
    | none =>
        rw [hm] at hsign
        cases hsign
    | some neg =>
        rw [hm] at hsign
        cases neg with
        | true =>
            obtain rfl := List.mem_singleton.mp hsign
            decide
        | false =>
            obtain rfl := List.mem_singleton.mp hsign
            decide
  · rcases Lines.mem_intercalate hbody with hbar | ⟨g, hg, hc⟩
    · obtain rfl := List.mem_singleton.mp hbar
      decide
    · exact digit_not_space ((m.digits g hg).2 c hc)

/-- The body starts with a digit, so no sign is skipped in it. -/
theorem skipSign_body (m : Numeral) :
    skipSign (['_'].intercalate m.groups) = ['_'].intercalate m.groups ∧
      (['_'].intercalate m.groups).head? ≠ some '-' := by
  obtain ⟨g, groups, hgroups⟩ := List.exists_cons_of_ne_nil m.groups_ne_nil
  obtain ⟨hne, hdigits⟩ := m.digits g (by rw [hgroups]; exact List.mem_cons_self ..)
  obtain ⟨d, g, rfl⟩ := List.exists_cons_of_ne_nil hne
  have hd : isDigit d = true := hdigits d (List.mem_cons_self ..)
  have hbody : ∃ rest, ['_'].intercalate m.groups = d :: rest := by
    rw [hgroups]
    cases groups with
    | nil => exact ⟨g, List.intercalate_singleton⟩
    | cons g' groups => exact ⟨_, by rw [List.intercalate_cons_cons]; rfl⟩
  obtain ⟨rest, hrest⟩ := hbody
  rw [hrest]
  exact ⟨skipSign_digit hd, fun h => digit_ne hd (by decide) (Option.some.inj h)⟩

theorem core_sign (m : Numeral) : skipSign m.core = ['_'].intercalate m.groups ∧
    (m.core.head? = some '-' ↔ m.sign = some true) := by
  obtain ⟨hskip, hhead⟩ := m.skipSign_body
  rw [core]
  cases m.sign with
  | none => simpa [signText, hskip] using hhead
  | some neg => cases neg <;> simp [signText, skipSign]

/-- Any text is a sign and what `skipSign` leaves. -/
theorem skipSign_split (s : Str) : ∃ sign, s = signText sign ++ skipSign s ∧
    (s.head? = some '-' ↔ sign = some true) := by
  match s with
  | [] => exact ⟨none, rfl, by simp⟩
  | c :: s =>
      by_cases hplus : c = '+'
      · subst hplus
        exact ⟨some false, rfl, by simp⟩
      by_cases hminus : c = '-'
      · subst hminus
        exact ⟨some true, rfl, by simp⟩
      refine ⟨none, ?_, by simpa using hminus⟩
      rw [skipSign]
      · rfl
      · exact fun _ h => hplus (List.cons.inj h).1
      · exact fun _ h => hminus (List.cons.inj h).1

end Numeral

/-- **`int` reads exactly the numerals.** -/
theorem intText_iff {t : Str} {z : Int} :
    intText t = .ok z ↔ ∃ m : Numeral, m.text = t ∧ m.value = z := by
  constructor
  · intro h
    obtain ⟨before, after, ht, hbefore, hafter⟩ := stripBy_split isIntSpace t
    rw [intText] at h
    generalize stripBy isIntSpace t = core at h ht
    obtain ⟨sign, hcore, hneg⟩ := Numeral.skipSign_split core
    split at h
    next hgroups =>
      refine ⟨⟨before, sign, (skipSign core).splitOn '_', after, ?_, List.splitOn_ne_nil _ _,
        fun g hg => ⟨(hgroups.1 g hg).1, List.all_eq_true.mp (hgroups.1 g hg).2⟩, hgroups.2⟩,
        ?_, ?_⟩
      · intro c hc
        exact (List.mem_append.mp hc).elim (hbefore c) (hafter c)
      · rw [Numeral.text, Numeral.core, List.intercalate_splitOn, ← hcore, ht]
      · rw [Numeral.value, ← Except.ok.inj h]
        simp only [hneg]
    next => cases h
  · rintro ⟨m, rfl, rfl⟩
    -- neither a sign nor a digit is white space, so stripping stops at the numeral
    have hstrip : stripBy isIntSpace m.text = m.core :=
      stripBy_around (List.append_ne_nil_of_right_ne_nil _ m.body_ne_nil)
        (fun c hc => m.blank c (List.mem_append_left _ hc)) (fun c hc => Numeral.mem_core hc)
        (fun c hc => m.blank c (List.mem_append_right _ hc))
    have hsplit : (['_'].intercalate m.groups).splitOn '_' = m.groups :=
      List.splitOn_intercalate '_'
        (fun g hg hmem => digit_ne ((m.digits g hg).2 _ hmem) (by decide) rfl) m.groups_ne_nil
    rw [intText, hstrip, m.core_sign.1, hsplit]
    show (if _ then Except.ok _ else _) = _
    rw [if_pos ⟨fun g hg => ⟨(m.digits g hg).1, List.all_eq_true.mpr (m.digits g hg).2⟩, m.short⟩,
      Numeral.value]
    simp only [m.core_sign.2]

/-- `int` on a run of digits. -/
theorem intText_digits {s : Str} (hne : s ≠ []) (h : ∀ c ∈ s, isDigit c = true)
    (hlen : s.length ≤ MAX_STR_DIGITS) : intText s = .ok (Nat.ofDigitChars 10 s 0) := by
  refine intText_iff.mpr ⟨⟨[], none, [s], [], nofun, List.cons_ne_nil _ _, ?_, ?_⟩, ?_, ?_⟩
  · intro g hg
    obtain rfl := List.mem_singleton.mp hg
    exact ⟨hne, h⟩
  · rwa [List.flatten_singleton]
  · show [] ++ ([] ++ ['_'].intercalate [s]) ++ [] = s
    rw [List.intercalate_singleton, List.nil_append, List.nil_append, List.append_nil]
  · show ((Nat.ofDigitChars 10 [s].flatten 0 : Nat) : Int) = _
    rw [List.flatten_singleton]

end SwarmPointer.Python
