import Mathlib.Data.List.Basic
import Mathlib.Data.List.TakeWhile
import SwarmPointer.Lib.JsonGrammar

/-!
# A reader for the JSON grammar

Recursive descent from a text to its derivation. What is read is a
derivation of the text (`phrase_sound`) and every derivation is read back
(`phrase_complete`), so a text has at most one. The literals of the host
come with their own reader.

The reader exists for the proofs, not for any program: it decides which texts
are derivations, so that "this text has no derivation" is a computation. Every
function has its two lemmas in the same order, the text read first and the
reading back second, and the recursion over values uses a number of calls that
the size of the derivation bounds.
-/

namespace JsonGrammar.Reader

/-! ## White space -/

/-- The white space in front. -/
def ws (s : List Char) : Ws × List Char :=
  (⟨s.takeWhile isWs, fun _ hc => List.mem_takeWhile_imp hc⟩, s.dropWhile isWs)

/-- The text does not begin with white space. -/
def NoWs (s : List Char) : Prop := ∀ c ∈ s.head?, isWs c = false

theorem noWs_cons {c : Char} (s : List Char) (h : isWs c = false) : NoWs (c :: s) := by
  intro d hd
  rwa [← Option.some.inj hd]

theorem ws_text (s : List Char) : s = (ws s).1.1 ++ (ws s).2 :=
  List.takeWhile_append_dropWhile.symm

theorem ws_append (w : Ws) {s : List Char} (h : NoWs s) : ws (w.1 ++ s) = (w, s) := by
  have hnone : s.takeWhile isWs = [] ∧ s.dropWhile isWs = s := by
    cases s with
    | nil => exact ⟨rfl, rfl⟩
    | cons c s =>
        have hc : isWs c = false := h c rfl
        exact ⟨List.takeWhile_cons_of_neg (by rw [hc]; decide),
          List.dropWhile_cons_of_neg (by rw [hc]; decide)⟩
  refine Prod.ext (Subtype.ext ?_) ?_
  · show (w.1 ++ s).takeWhile isWs = w.1
    rw [List.takeWhile_append_of_pos w.2, hnone.1, List.append_nil]
  · show (w.1 ++ s).dropWhile isWs = s
    rw [List.dropWhile_append_of_pos w.2, hnone.2]

/-! ## Digits -/

/-- The digits in front, if there are any. -/
def digits (s : List Char) : Option (Digits × List Char) :=
  if h : s.takeWhile Char.isDigit ≠ [] then
    some (⟨s.takeWhile Char.isDigit, h, fun _ hc => List.mem_takeWhile_imp hc⟩,
      s.dropWhile Char.isDigit)
  else none

/-- The text does not begin with a digit. -/
def NoDigit (s : List Char) : Prop := ∀ c ∈ s.head?, c.isDigit = false

theorem digits_sound {s : List Char} {ds : Digits} {r : List Char} (h : digits s = some (ds, r)) :
    s = ds.1 ++ r := by
  rw [digits] at h
  split at h
  · obtain ⟨rfl, rfl⟩ := Prod.mk.inj (Option.some.inj h)
    exact List.takeWhile_append_dropWhile.symm
  · cases h

theorem digits_complete (ds : Digits) {r : List Char} (h : NoDigit r) :
    digits (ds.1 ++ r) = some (ds, r) := by
  have hnone : r.takeWhile Char.isDigit = [] ∧ r.dropWhile Char.isDigit = r := by
    cases r with
    | nil => exact ⟨rfl, rfl⟩
    | cons c r =>
        have hc : c.isDigit = false := h c rfl
        exact ⟨List.takeWhile_cons_of_neg (by rw [hc]; decide),
          List.dropWhile_cons_of_neg (by rw [hc]; decide)⟩
  have htake : (ds.1 ++ r).takeWhile Char.isDigit = ds.1 := by
    rw [List.takeWhile_append_of_pos ds.2.2, hnone.1, List.append_nil]
  have hdrop : (ds.1 ++ r).dropWhile Char.isDigit = r := by
    rw [List.dropWhile_append_of_pos ds.2.2, hnone.2]
  rw [digits, dif_pos (by rw [htake]; exact ds.2.1)]
  exact congrArg some (Prod.ext (Subtype.ext htake) hdrop)

/-! ## Numbers -/

/-- An integer part without superfluous zeros. -/
abbrev Int' := {ds : Digits // ds.1 = ['0'] ∨ ds.1.head? ≠ some '0'}

def int (s : List Char) : Option (Int' × List Char) :=
  if s.head? = some '0' then some (⟨.zero, .inl rfl⟩, s.drop 1)
  else (digits s).bind fun p => if h : p.1.1.head? ≠ some '0' then some (⟨p.1, .inr h⟩, p.2) else none

def frac (s : List Char) : Option Digits × List Char :=
  if s.head? = some '.' then (digits (s.drop 1)).elim (none, s) fun p => (some p.1, p.2)
  else (none, s)

def sign (s : List Char) : Sign × List Char :=
  if s.head? = some '+' then (.plus, s.drop 1)
  else if s.head? = some '-' then (.minus, s.drop 1)
  else (.none, s)

def exp (s : List Char) : Option Exponent × List Char :=
  if s.head? = some 'e' ∨ s.head? = some 'E' then
    (digits (sign (s.drop 1)).2).elim (none, s) fun p =>
      (some ⟨s.head? = some 'E', (sign (s.drop 1)).1, p.1⟩, p.2)
  else (none, s)

/-- The number token in front. -/
def number (s : List Char) : Option (Number × List Char) :=
  (int (if s.head? = some '-' then s.drop 1 else s)).map fun p =>
    (⟨s.head? = some '-', p.1.1, p.1.2, (frac p.2).1, (exp (frac p.2).2).1⟩, (exp (frac p.2).2).2)

theorem cons_of_head {s : List Char} {c : Char} (h : s.head? = some c) : s = c :: s.drop 1 := by
  cases s with
  | nil => cases h
  | cons d s =>
      obtain rfl := Option.some.inj h
      rfl

theorem int_sound {s : List Char} {x : Int'} {r : List Char} (h : int s = some (x, r)) :
    s = x.1.1 ++ r := by
  rw [int] at h
  split at h
  · rename_i hs
    obtain ⟨rfl, rfl⟩ := Prod.mk.inj (Option.some.inj h)
    exact cons_of_head hs
  · obtain ⟨⟨ds, r'⟩, hds, h⟩ := Option.bind_eq_some_iff.mp h
    split at h
    · obtain ⟨rfl, rfl⟩ := Prod.mk.inj (Option.some.inj h)
      exact digits_sound hds
    · cases h

theorem frac_sound (s : List Char) : s = fracText (frac s).1 ++ (frac s).2 := by
  rw [frac]
  split
  · rename_i hs
    cases h : digits (s.drop 1) with
    | none => rfl
    | some p =>
        conv_lhs => rw [cons_of_head hs, digits_sound h]
        rfl
  · rfl

theorem sign_sound (s : List Char) : s = (sign s).1.text ++ (sign s).2 := by
  rw [sign]
  split
  · rename_i hs
    exact cons_of_head hs
  · split
    · rename_i hs
      exact cons_of_head hs
    · rfl

theorem exp_sound (s : List Char) : s = expText (exp s).1 ++ (exp s).2 := by
  rw [exp]
  split
  · rename_i hs
    cases h : digits (sign (s.drop 1)).2 with
    | none => rfl
    | some p =>
        have hrest := sign_sound (s.drop 1)
        rw [digits_sound h] at hrest
        rcases hs with hs | hs
        · conv_lhs => rw [cons_of_head hs, hrest]
          simp [expText, Exponent.text, hs]
        · conv_lhs => rw [cons_of_head hs, hrest]
          simp [expText, Exponent.text, hs]
  · rfl

/-- **What is read is the token.** -/
theorem number_sound {s : List Char} {x : Number} {r : List Char} (h : number s = some (x, r)) :
    s = x.text ++ r := by
  rw [number, Option.map_eq_some_iff] at h
  obtain ⟨⟨i, r'⟩, hi, h⟩ := h
  obtain ⟨rfl, rfl⟩ := Prod.mk.inj h
  have hint := int_sound hi
  have hfrac := frac_sound r'
  have hexp := exp_sound (frac r').2
  rw [hexp] at hfrac
  rw [hfrac] at hint
  by_cases hs : s.head? = some '-'
  · rw [if_pos hs] at hint
    conv_lhs => rw [cons_of_head hs, hint]
    simp [Number.text, hs]
  · rw [if_neg hs] at hint
    conv_lhs => rw [hint]
    simp [Number.text, hs]

/-- Text that cannot continue a number token. -/
def NumEnd (s : List Char) : Prop :=
  ∀ c ∈ s.head?, c.isDigit = false ∧ c ≠ '.' ∧ c ≠ 'e' ∧ c ≠ 'E'

theorem NumEnd.noDigit {s : List Char} (h : NumEnd s) : NoDigit s := fun c hc => (h c hc).1

theorem digits_head (ds : Digits) : ∃ d s, ds.1 = d :: s ∧ d.isDigit = true := by
  obtain ⟨ds, hne, hds⟩ := ds
  cases ds with
  | nil => exact absurd rfl hne
  | cons d s => exact ⟨d, s, rfl, hds d (List.mem_cons_self ..)⟩

theorem noDigit_cons {c : Char} (s : List Char) (h : c.isDigit = false) : NoDigit (c :: s) := by
  intro d hd
  rwa [← Option.some.inj hd]

theorem int_complete (x : Int') {r : List Char} (h : NoDigit r) :
    int (x.1.1 ++ r) = some (x, r) := by
  obtain ⟨ds, hlead⟩ := x
  rw [int]
  by_cases hzero : ds.1 = ['0']
  · have hhead : (ds.1 ++ r).head? = some '0' := by rw [hzero]; rfl
    rw [if_pos hhead]
    have hdrop : (ds.1 ++ r).drop 1 = r := by rw [hzero]; rfl
    exact congrArg some (Prod.ext (Subtype.ext (Subtype.ext hzero.symm)) hdrop)
  · have hne : ds.1.head? ≠ some '0' := hlead.resolve_left hzero
    have hhead : ¬ (ds.1 ++ r).head? = some '0' := by
      rw [List.head?_append_of_ne_nil ds.1 ds.2.1]
      exact hne
    rw [if_neg hhead, digits_complete ds h, Option.bind_some, dif_pos hne]

theorem frac_complete (f : Option Digits) {r : List Char} (h : NoDigit r)
    (hdot : f = none → r.head? ≠ some '.') : frac (fracText f ++ r) = (f, r) := by
  cases f with
  | none =>
      have hr : ¬ (fracText none ++ r).head? = some '.' := hdot rfl
      rw [frac, if_neg hr]
      rfl
  | some ds =>
      have hdigits : digits ((fracText (some ds) ++ r).drop 1) = some (ds, r) :=
        digits_complete ds h
      have hhead : (fracText (some ds) ++ r).head? = some '.' := rfl
      rw [frac, if_pos hhead, hdigits]
      rfl

theorem sign_complete (sg : Sign) (ds : Digits) (r : List Char) :
    sign (sg.text ++ (ds.1 ++ r)) = (sg, ds.1 ++ r) := by
  cases sg with
  | none =>
      obtain ⟨d, s, hds, hd⟩ := digits_head ds
      have hne : ∀ c : Char, c.isDigit = false → ¬ (Sign.none.text ++ (ds.1 ++ r)).head? = some c := by
        intro c hc heq
        rw [hds] at heq
        obtain rfl := Option.some.inj heq
        rw [hd] at hc
        cases hc
      rw [sign, if_neg (hne '+' rfl), if_neg (hne '-' rfl)]
      rfl
  | plus => rfl
  | minus => rfl

theorem exp_complete (e : Option Exponent) {r : List Char} (h : NumEnd r) :
    exp (expText e ++ r) = (e, r) := by
  cases e with
  | none =>
      have hr : ¬ (r.head? = some 'e' ∨ r.head? = some 'E') := by
        rintro (hr | hr)
        · exact (h _ hr).2.2.1 rfl
        · exact (h _ hr).2.2.2 rfl
      rw [expText, Option.elim_none, List.nil_append, exp, if_neg hr]
  | some e =>
      obtain ⟨capital, sg, ds⟩ := e
      have hsign := sign_complete sg ds r
      cases capital with
      | false =>
          have htext : expText (some ⟨false, sg, ds⟩) ++ r = 'e' :: (sg.text ++ (ds.1 ++ r)) := by
            simp [expText, Exponent.text]
          rw [htext, exp, if_pos (.inl rfl), List.drop_one, List.tail_cons, hsign,
            digits_complete ds h.noDigit]
          rfl
      | true =>
          have htext : expText (some ⟨true, sg, ds⟩) ++ r = 'E' :: (sg.text ++ (ds.1 ++ r)) := by
            simp [expText, Exponent.text]
          rw [htext, exp, if_pos (.inr rfl), List.drop_one, List.tail_cons, hsign,
            digits_complete ds h.noDigit]
          rfl

theorem expText_noDigit (e : Option Exponent) {r : List Char} (h : NumEnd r) :
    NoDigit (expText e ++ r) ∧ (expText e ++ r).head? ≠ some '.' := by
  cases e with
  | none => exact ⟨h.noDigit, fun hr => (h _ hr).2.1 rfl⟩
  | some e =>
      obtain ⟨capital, sg, ds⟩ := e
      cases capital with
      | false => exact ⟨noDigit_cons _ rfl, by simp [expText, Exponent.text]⟩
      | true => exact ⟨noDigit_cons _ rfl, by simp [expText, Exponent.text]⟩

/-- **Every number token is read back.** -/
theorem number_complete (x : Number) {r : List Char} (h : NumEnd r) :
    number (x.text ++ r) = some (x, r) := by
  obtain ⟨neg, ds, lead, f, e⟩ := x
  have hexp := expText_noDigit e h
  have hfrac : NoDigit (fracText f ++ (expText e ++ r)) := by
    cases f with
    | none => exact hexp.1
    | some fs => exact noDigit_cons _ rfl
  have hint := int_complete ⟨ds, lead⟩ hfrac
  have hbody : ∀ b : Bool, (int (ds.1 ++ (fracText f ++ (expText e ++ r)))).map (fun p =>
      ((⟨b, p.1.1, p.1.2, (frac p.2).1, (exp (frac p.2).2).1⟩ : Number),
        (exp (frac p.2).2).2)) = some (⟨b, ds, lead, f, e⟩, r) := fun b => by
    rw [hint, Option.map_some, frac_complete f hexp.1 fun _ => hexp.2, exp_complete e h]
  cases neg with
  | true =>
      have htext : Number.text ⟨true, ds, lead, f, e⟩ ++ r =
          '-' :: (ds.1 ++ (fracText f ++ (expText e ++ r))) := by
        simp [Number.text]
      rw [number, htext]
      exact hbody true
  | false =>
      have htext : Number.text ⟨false, ds, lead, f, e⟩ ++ r =
          ds.1 ++ (fracText f ++ (expText e ++ r)) := by
        simp [Number.text]
      have hhead : ¬ (ds.1 ++ (fracText f ++ (expText e ++ r))).head? = some '-' := by
        obtain ⟨d, s, hds, hd⟩ := digits_head ds
        rw [hds]
        rintro hminus
        obtain rfl := Option.some.inj hminus
        cases hd
      rw [number, htext, if_neg hhead, decide_eq_false hhead]
      exact hbody false

/-! ## Strings -/

def shortOf (c : Char) : Option Short :=
  if c = '"' then some .quote
  else if c = '\\' then some .backslash
  else if c = '/' then some .slash
  else if c = 'b' then some .b
  else if c = 'f' then some .f
  else if c = 'n' then some .n
  else if c = 'r' then some .r
  else if c = 't' then some .t
  else none

theorem shortOf_sound {c : Char} {e : Short} (h : shortOf c = some e) : c = e.letter := by
  simp only [shortOf] at h
  repeat'
    split at h
    · rename_i hc
      rw [hc, ← Option.some.inj h]
      rfl
  cases h

/-- The pieces up to the closing quotation mark, and the text behind it. -/
def pieces (s : List Char) : Option (List Piece × List Char) :=
  match s with
  | [] => none
  | c :: s =>
      if c = '"' then some ([], s)
      else if c = '\\' then
        match s with
        | [] => none
        | e :: s =>
            if e = 'u' then
              match s with
              | a :: b :: c :: d :: s =>
                  if h : (hexVal a).isSome = true ∧ (hexVal b).isSome = true ∧
                      (hexVal c).isSome = true ∧ (hexVal d).isSome = true then
                    (pieces s).map fun p =>
                      (.unicode ⟨a, h.1⟩ ⟨b, h.2.1⟩ ⟨c, h.2.2.1⟩ ⟨d, h.2.2.2⟩ :: p.1, p.2)
                  else none
              | _ => none
            else
              match shortOf e with
              | some e => (pieces s).map fun p => (.short e :: p.1, p.2)
              | none => none
      else if h : 0x20 ≤ c.toNat ∧ c ≠ '"' ∧ c ≠ '\\' then
        (pieces s).map fun p => (.raw c h :: p.1, p.2)
      else none

theorem pieces_sound {s : List Char} :
    ∀ {ps : List Piece} {r : List Char}, pieces s = some (ps, r) →
      s = piecesText ps ++ '"' :: r := by
  fun_induction pieces s with
  | case2 s =>
      intro ps r h
      obtain ⟨rfl, rfl⟩ := Prod.mk.inj (Option.some.inj h)
      rfl
  | case4 a b c d s hx _ ih =>
      intro ps r h
      obtain ⟨⟨ps', r'⟩, hp, h⟩ := Option.map_eq_some_iff.mp h
      obtain ⟨rfl, rfl⟩ := Prod.mk.inj h
      rw [ih hp]
      rfl
  | case7 e s _ e' he _ ih =>
      intro ps r h
      obtain ⟨⟨ps', r'⟩, hp, h⟩ := Option.map_eq_some_iff.mp h
      obtain ⟨rfl, rfl⟩ := Prod.mk.inj h
      rw [ih hp, shortOf_sound he]
      rfl
  | case9 c s _ _ hc ih =>
      intro ps r h
      obtain ⟨⟨ps', r'⟩, hp, h⟩ := Option.map_eq_some_iff.mp h
      obtain ⟨rfl, rfl⟩ := Prod.mk.inj h
      rw [ih hp]
      rfl
  | _ => exact nofun

theorem pieces_quote (r : List Char) : pieces ('"' :: r) = some ([], r) := by
  rw [pieces.eq_def]
  rfl

theorem pieces_raw {c : Char} (h : 0x20 ≤ c.toNat ∧ c ≠ '"' ∧ c ≠ '\\') (s : List Char) :
    pieces (c :: s) = (pieces s).map fun p => (.raw c h :: p.1, p.2) := by
  conv_lhs => rw [pieces.eq_def]
  show (if c = '"' then _ else _) = _
  rw [if_neg h.2.1, if_neg h.2.2, dif_pos h]

theorem pieces_short (e : Short) (s : List Char) :
    pieces ('\\' :: e.letter :: s) = (pieces s).map fun p => (.short e :: p.1, p.2) := by
  conv_lhs => rw [pieces.eq_def]
  cases e <;> rfl

theorem pieces_unicode (a b c d : HexDigit) (s : List Char) :
    pieces ('\\' :: 'u' :: a.1 :: b.1 :: c.1 :: d.1 :: s) =
      (pieces s).map fun p => (.unicode a b c d :: p.1, p.2) := by
  conv_lhs => rw [pieces.eq_def]
  exact dif_pos ⟨a.2, b.2, c.2, d.2⟩

/-- **Every string is read back.** -/
theorem pieces_complete (ps : List Piece) (r : List Char) :
    pieces (piecesText ps ++ '"' :: r) = some (ps, r) := by
  induction ps with
  | nil => exact pieces_quote r
  | cons p ps ih =>
      rw [piecesText, List.flatMap_cons, List.append_assoc, ← piecesText]
      cases p with
      | raw c h => exact (pieces_raw h _).trans (congrArg _ ih)
      | short e => exact (pieces_short e _).trans (congrArg _ ih)
      | unicode a b c d => exact (pieces_unicode a b c d _).trans (congrArg _ ih)

/-! ## Separators -/

/-- White space and then the character `c`. -/
def gap (c : Char) (s : List Char) : Option (Ws × List Char) :=
  if (ws s).2.head? = some c then some ((ws s).1, (ws s).2.drop 1) else none

theorem gap_sound {c : Char} {s : List Char} {w : Ws} {r : List Char}
    (h : gap c s = some (w, r)) : s = w.1 ++ c :: r := by
  rw [gap] at h
  split at h
  · rename_i hc
    obtain ⟨rfl, rfl⟩ := Prod.mk.inj (Option.some.inj h)
    conv_lhs => rw [ws_text s, cons_of_head hc]
  · cases h

theorem gap_complete {c : Char} (hc : isWs c = false) (w : Ws) (r : List Char) :
    gap c (w.1 ++ c :: r) = some (w, r) := by
  rw [gap, ws_append w (noWs_cons r hc)]
  exact if_pos rfl

theorem gap_none {c : Char} {w : Ws} {s : List Char} (hs : NoWs s) (h : s.head? ≠ some c) :
    gap c (w.1 ++ s) = none := by
  rw [gap, ws_append w hs, if_neg h]

/-- What stands in front of a member's value. -/
structure Name where
  before : Ws
  key : List Piece
  after : Ws
  colon : Ws

def Name.text (k : Name) : List Char :=
  k.before.1 ++ stringText k.key ++ k.after.1 ++ ':' :: k.colon.1

def name (s : List Char) : Option (Name × List Char) :=
  (gap '"' s).bind fun (w, r) => (pieces r).bind fun (k, r) => (gap ':' r).map fun (w₁, r) =>
    (⟨w, k, w₁, (ws r).1⟩, (ws r).2)

theorem name_sound {s : List Char} {k : Name} {r : List Char} (h : name s = some (k, r)) :
    s = k.text ++ r := by
  rw [name] at h
  obtain ⟨⟨w, r₀⟩, hw, h⟩ := Option.bind_eq_some_iff.mp h
  obtain ⟨⟨ps, r₁⟩, hps, h⟩ := Option.bind_eq_some_iff.mp h
  obtain ⟨⟨w₁, r₂⟩, hw₁, h⟩ := Option.map_eq_some_iff.mp h
  obtain ⟨rfl, rfl⟩ := Prod.mk.inj h
  conv_lhs => rw [gap_sound hw, pieces_sound hps, gap_sound hw₁, ws_text r₂]
  simp [Name.text, stringText]

theorem name_complete (k : Name) {r : List Char} (h : NoWs r) : name (k.text ++ r) = some (k, r) := by
  obtain ⟨w, ps, w₁, w₂⟩ := k
  have htext : Name.text ⟨w, ps, w₁, w₂⟩ ++ r =
      w.1 ++ '"' :: (piecesText ps ++ '"' :: (w₁.1 ++ ':' :: (w₂.1 ++ r))) := by
    simp [Name.text, stringText]
  have hcolon : (gap ':' (w₁.1 ++ ':' :: (w₂.1 ++ r))).map
      (fun p => ((⟨w, ps, p.1, (ws p.2).1⟩ : Name), (ws p.2).2)) = some (⟨w, ps, w₁, w₂⟩, r) := by
    rw [gap_complete rfl, Option.map_some, ws_append w₂ h]
  rw [htext]
  exact Option.bind_eq_some_iff.mpr ⟨_, gap_complete rfl w _,
    Option.bind_eq_some_iff.mpr ⟨_, pieces_complete ps _, hcolon⟩⟩

/-! ## Values -/

/-- Literals of a host and how they are read. No literal begins like another
value of the grammar or like a closing bracket. -/
structure Literals (L : Type) where
  text : L → List Char
  read : List Char → Option (L × List Char)
  sound : ∀ {s l r}, read s = some (l, r) → s = text l ++ r
  complete : ∀ l r, read (text l ++ r) = some (l, r)
  head : ∀ l, ∃ c s, text l = c :: s ∧ isWs c = false ∧ c ∉ ['"', '[', ']', '\x7b', 'n', 't', 'f']
  no_number : ∀ l r, number (text l ++ r) = none

/-- A word, a number or a literal of the host. -/
def token {L : Type} (lit : Literals L) (s : List Char) : Option (Phrase L × List Char) :=
  if s.take 4 = ['n', 'u', 'l', 'l'] then some (.null, s.drop 4)
  else if s.take 4 = ['t', 'r', 'u', 'e'] then some (.bool true, s.drop 4)
  else if s.take 5 = ['f', 'a', 'l', 's', 'e'] then some (.bool false, s.drop 5)
  else
    match number s with
    | some (x, r) => some (.num x, r)
    | none => (lit.read s).map fun (l, r) => (.ext l, r)

mutual

/-- The value in front, read with at most `n` nested calls. -/
def phrase {L : Type} (lit : Literals L) : Nat → List Char → Option (Phrase L × List Char)
  | 0, _ => none
  | n + 1, s =>
      if s.head? = some '"' then (pieces (s.drop 1)).map fun (ps, r) => (.str ps, r)
      else if s.head? = some '[' then
        match gap ']' (s.drop 1) with
        | some (w, r) => some (.arrEmpty w, r)
        | none => (elements lit n (s.drop 1)).map fun (es, r) => (.arr es, r)
      else if s.head? = some '{' then
        match gap '}' (s.drop 1) with
        | some (w, r) => some (.objEmpty w, r)
        | none => (members lit n (s.drop 1)).map fun (ms, r) => (.obj ms, r)
      else token lit s

/-- The elements up to the closing bracket. -/
def elements {L : Type} (lit : Literals L) : Nat → List Char → Option (Elements L × List Char)
  | 0, _ => none
  | n + 1, s =>
      (phrase lit n (ws s).2).bind fun (t, r) =>
        match gap ',' r with
        | some (w, r) => (elements lit n r).map fun (es, r) => (.cons (ws s).1 t w es, r)
        | none => (gap ']' r).map fun (w, r) => (.one (ws s).1 t w, r)

/-- The members up to the closing brace. -/
def members {L : Type} (lit : Literals L) : Nat → List Char → Option (Members L × List Char)
  | 0, _ => none
  | n + 1, s =>
      (name s).bind fun (k, r) => (phrase lit n r).bind fun (t, r) =>
        match gap ',' r with
        | some (w, r) =>
            (members lit n r).map fun (ms, r) =>
              (.cons k.before k.key k.after k.colon t w ms, r)
        | none =>
            (gap '}' r).map fun (w, r) => (.one k.before k.key k.after k.colon t w, r)

end

section
variable {L : Type} {lit : Literals L}

theorem take_text {s : List Char} {w : List Char} (h : s.take w.length = w) :
    s = w ++ s.drop w.length := by
  conv_lhs => rw [← List.take_append_drop w.length s, h]

theorem token_sound {s : List Char} {t : Phrase L} {r : List Char}
    (h : token lit s = some (t, r)) : s = t.text lit.text ++ r := by
  rw [token] at h
  split at h
  · rename_i hs
    obtain ⟨rfl, rfl⟩ := Prod.mk.inj (Option.some.inj h)
    exact take_text hs
  split at h
  · rename_i hs
    obtain ⟨rfl, rfl⟩ := Prod.mk.inj (Option.some.inj h)
    exact take_text hs
  split at h
  · rename_i hs
    obtain ⟨rfl, rfl⟩ := Prod.mk.inj (Option.some.inj h)
    exact take_text hs
  split at h
  · rename_i hs
    obtain ⟨rfl, rfl⟩ := Prod.mk.inj (Option.some.inj h)
    exact number_sound hs
  · obtain ⟨⟨l, r'⟩, hl, h⟩ := Option.map_eq_some_iff.mp h
    obtain ⟨rfl, rfl⟩ := Prod.mk.inj h
    exact lit.sound hl

/-- **What is read is the derivation.** -/
theorem reads_sound (lit : Literals L) (n : Nat) :
    (∀ s t r, phrase lit n s = some (t, r) → s = t.text lit.text ++ r) ∧
    (∀ s es r, elements lit n s = some (es, r) → s = es.text lit.text ++ ']' :: r) ∧
    (∀ s ms r, members lit n s = some (ms, r) → s = ms.text lit.text ++ '}' :: r) := by
  induction n with
  | zero => exact ⟨fun _ _ _ h => (by cases h), fun _ _ _ h => (by cases h), fun _ _ _ h => (by cases h)⟩
  | succ n ih =>
      obtain ⟨ihp, ihe, ihm⟩ := ih
      refine ⟨fun s t r h => ?_, fun s es r h => ?_, fun s ms r h => ?_⟩
      · -- a string, an array, an object or a token, by the first character
        rw [phrase] at h
        split at h
        · rename_i hs
          obtain ⟨⟨ps, r'⟩, hp, h⟩ := Option.map_eq_some_iff.mp h
          obtain ⟨rfl, rfl⟩ := Prod.mk.inj h
          conv_lhs => rw [cons_of_head hs, pieces_sound hp]
          simp [Phrase.text, stringText]
        split at h
        · rename_i hs
          split at h
          · rename_i w r' hw
            obtain ⟨rfl, rfl⟩ := Prod.mk.inj (Option.some.inj h)
            conv_lhs => rw [cons_of_head hs, gap_sound hw]
            simp [Phrase.text]
          · obtain ⟨⟨es, r'⟩, he, h⟩ := Option.map_eq_some_iff.mp h
            obtain ⟨rfl, rfl⟩ := Prod.mk.inj h
            conv_lhs => rw [cons_of_head hs, ihe _ _ _ he]
            simp [Phrase.text]
        split at h
        · rename_i hs
          split at h
          · rename_i w r' hw
            obtain ⟨rfl, rfl⟩ := Prod.mk.inj (Option.some.inj h)
            conv_lhs => rw [cons_of_head hs, gap_sound hw]
            simp [Phrase.text]
          · obtain ⟨⟨ms, r'⟩, hm, h⟩ := Option.map_eq_some_iff.mp h
            obtain ⟨rfl, rfl⟩ := Prod.mk.inj h
            conv_lhs => rw [cons_of_head hs, ihm _ _ _ hm]
            simp [Phrase.text]
        · exact token_sound h
      · -- behind an element stands a comma or the closing bracket
        rw [elements] at h
        obtain ⟨⟨t, r'⟩, ht, h⟩ := Option.bind_eq_some_iff.mp h
        dsimp only at h
        split at h
        · rename_i w r'' hw
          obtain ⟨⟨es', r₃⟩, he, h⟩ := Option.map_eq_some_iff.mp h
          obtain ⟨rfl, rfl⟩ := Prod.mk.inj h
          conv_lhs => rw [ws_text s, ihp _ _ _ ht, gap_sound hw, ihe _ _ _ he]
          simp [Elements.text]
        · obtain ⟨⟨w, r''⟩, hw, h⟩ := Option.map_eq_some_iff.mp h
          obtain ⟨rfl, rfl⟩ := Prod.mk.inj h
          conv_lhs => rw [ws_text s, ihp _ _ _ ht, gap_sound hw]
          simp [Elements.text]
      · rw [members] at h
        obtain ⟨⟨k, r₀⟩, hk, h⟩ := Option.bind_eq_some_iff.mp h
        obtain ⟨⟨t, r'⟩, ht, h⟩ := Option.bind_eq_some_iff.mp h
        dsimp only at h
        split at h
        · rename_i w r'' hw
          obtain ⟨⟨ms', r₃⟩, hm, h⟩ := Option.map_eq_some_iff.mp h
          obtain ⟨rfl, rfl⟩ := Prod.mk.inj h
          conv_lhs => rw [name_sound hk, ihp _ _ _ ht, gap_sound hw, ihm _ _ _ hm]
          simp [Members.text, Name.text]
        · obtain ⟨⟨w, r''⟩, hw, h⟩ := Option.map_eq_some_iff.mp h
          obtain ⟨rfl, rfl⟩ := Prod.mk.inj h
          conv_lhs => rw [name_sound hk, ihp _ _ _ ht, gap_sound hw]
          simp [Members.text, Name.text]

/-! ## Every derivation is read back -/

theorem numEnd_cons {c : Char} (s : List Char)
    (h : c.isDigit = false ∧ c ≠ '.' ∧ c ≠ 'e' ∧ c ≠ 'E') : NumEnd (c :: s) := by
  intro d hd
  rwa [← Option.some.inj hd]

theorem numEnd_ws (w : Ws) {s : List Char} (h : NumEnd s) : NumEnd (w.1 ++ s) := by
  obtain ⟨w, hw⟩ := w
  cases w with
  | nil => exact h
  | cons c w =>
      refine numEnd_cons _ ?_
      have hc := hw c (List.mem_cons_self ..)
      simp only [isWs, Bool.or_eq_true, decide_eq_true_eq] at hc
      rcases hc with ((rfl | rfl) | rfl) | rfl <;> decide

theorem number_head (x : Number) :
    ∃ c s, x.text = c :: s ∧ (c = '-' ∨ c.isDigit = true) := by
  obtain ⟨neg, ds, lead, f, e⟩ := x
  obtain ⟨d, s, hds, hd⟩ := digits_head ds
  cases neg with
  | true => exact ⟨'-', ds.1 ++ fracText f ++ expText e, by simp [Number.text], .inl rfl⟩
  | false => exact ⟨d, s ++ fracText f ++ expText e, by simp [Number.text, hds], .inr hd⟩

theorem digit_ne {c d : Char} (h : c.isDigit = true) (hd : d.isDigit = false) : c ≠ d := by
  rintro rfl
  rw [h] at hd
  cases hd

/-- No value begins with white space or a closing bracket. -/
theorem phrase_head (lit : Literals L) (t : Phrase L) :
    ∃ c s, t.text lit.text = c :: s ∧ isWs c = false ∧ c ≠ ']' := by
  cases t with
  | null => exact ⟨_, _, rfl, rfl, by decide⟩
  | bool b => cases b <;> exact ⟨_, _, rfl, rfl, by decide⟩
  | num x =>
      obtain ⟨c, s, htext, hc⟩ := number_head x
      refine ⟨c, s, htext, ?_⟩
      rcases hc with rfl | hc
      · decide
      · refine ⟨?_, digit_ne hc rfl⟩
        rw [isWs, decide_eq_false (digit_ne hc rfl), decide_eq_false (digit_ne hc rfl),
          decide_eq_false (digit_ne hc rfl), decide_eq_false (digit_ne hc rfl)]
        rfl
  | str s => exact ⟨_, _, rfl, rfl, by decide⟩
  | ext l =>
      obtain ⟨c, s, htext, hws, hc⟩ := lit.head l
      refine ⟨c, s, htext, hws, ?_⟩
      rintro rfl
      exact hc (by decide)
  | arrEmpty w => exact ⟨_, _, rfl, rfl, by decide⟩
  | arr es => exact ⟨_, _, rfl, rfl, by decide⟩
  | objEmpty w => exact ⟨_, _, rfl, rfl, by decide⟩
  | obj ms => exact ⟨_, _, rfl, rfl, by decide⟩

theorem phrase_noWs (t : Phrase L) (r : List Char) : NoWs (t.text lit.text ++ r) := by
  obtain ⟨c, s, htext, hws, -⟩ := phrase_head lit t
  rw [htext]
  exact noWs_cons _ hws

theorem elements_no_bracket (es : Elements L) (r : List Char) :
    gap ']' (es.text lit.text ++ r) = none := by
  have key : ∀ (w : Ws) (t : Phrase L) (r : List Char),
      gap ']' (w.1 ++ (t.text lit.text ++ r)) = none := fun w t r => by
    obtain ⟨c, s, htext, hws, hc⟩ := phrase_head lit t
    refine gap_none (phrase_noWs t r) ?_
    rw [htext]
    exact fun h => hc (Option.some.inj h)
  cases es with
  | one w t w' =>
      rw [Elements.text, List.append_assoc, List.append_assoc]
      exact key w t _
  | cons w t w' es =>
      rw [Elements.text, List.append_assoc, List.append_assoc, List.append_assoc]
      exact key w t _

theorem members_no_brace (ms : Members L) (r : List Char) :
    gap '}' (ms.text lit.text ++ r) = none := by
  have key : ∀ (w : Ws) (s : List Char), gap '}' (w.1 ++ '"' :: s) = none := fun w s =>
    gap_none (noWs_cons s rfl) (by simp)
  cases ms with
  | one w k w₁ w₂ t w' =>
      simp only [Members.text, stringText, List.append_assoc, List.cons_append]
      exact key w _
  | cons w k w₁ w₂ t w' ms =>
      simp only [Members.text, stringText, List.append_assoc, List.cons_append]
      exact key w _

/-- No word begins like this. -/
def NoWord (s : List Char) : Prop := ∀ c ∈ s.head?, c ∉ ['n', 't', 'f']

theorem noWord_take {s : List Char} {c : Char} (hc : c ∈ ['n', 't', 'f']) (h : NoWord s)
    (n : Nat) (w : List Char) : ¬ s.take n = c :: w := by
  intro htake
  have hs : s = c :: (w ++ s.drop n) := by
    conv_lhs => rw [← List.take_append_drop n s, htake]
    rfl
  rw [hs] at h
  exact h c rfl hc

theorem token_eq {s : List Char} (h : NoWord s) :
    token lit s = match number s with
      | some (x, r) => some (.num x, r)
      | none => (lit.read s).map fun (l, r) => (.ext l, r) := by
  rw [token, if_neg (noWord_take (by decide) h 4 _), if_neg (noWord_take (by decide) h 4 _),
    if_neg (noWord_take (by decide) h 5 _)]

theorem token_num (x : Number) {r : List Char} (h : NumEnd r) :
    token lit (x.text ++ r) = some (.num x, r) := by
  obtain ⟨c, s, htext, hc⟩ := number_head x
  have hword : NoWord (x.text ++ r) := by
    rw [htext]
    intro d hd
    obtain rfl := Option.some.inj hd
    rcases hc with rfl | hc
    · decide
    · simp only [List.mem_cons, List.not_mem_nil, or_false, not_or]
      exact ⟨digit_ne hc rfl, digit_ne hc rfl, digit_ne hc rfl⟩
  rw [token_eq hword, number_complete x h]

theorem token_ext (l : L) (r : List Char) :
    token lit (lit.text l ++ r) = some (.ext l, r) := by
  obtain ⟨c, s, htext, -, hc⟩ := lit.head l
  have hword : NoWord (lit.text l ++ r) := by
    rw [htext]
    intro d hd
    obtain rfl := Option.some.inj hd
    simp only [List.mem_cons, List.not_mem_nil, or_false, not_or] at hc ⊢
    exact hc.2.2.2.2
  rw [token_eq hword, lit.no_number, lit.complete]
  rfl

/-- What is no string, array or object is a token. -/
theorem phrase_token {n : Nat} {s : List Char} (h : ∀ c ∈ s.head?, c ∉ ['"', '[', '\x7b']) :
    phrase lit (n + 1) s = token lit s := by
  have hne : ∀ c ∈ ['"', '[', '\x7b'], ¬ s.head? = some c := fun c hc hs => h c hs hc
  rw [phrase, if_neg (hne _ (by decide)), if_neg (hne _ (by decide)), if_neg (hne _ (by decide))]

theorem phrase_quote (n : Nat) (s : List Char) :
    phrase lit (n + 1) ('"' :: s) = (pieces s).map fun (ps, r) => (.str ps, r) := by
  rw [phrase]
  exact if_pos rfl

theorem phrase_bracket (n : Nat) (s : List Char) :
    phrase lit (n + 1) ('[' :: s) = match gap ']' s with
      | some (w, r) => some (.arrEmpty w, r)
      | none => (elements lit n s).map fun (es, r) => (.arr es, r) := by
  rw [phrase, if_neg (by simp)]
  exact if_pos rfl

theorem phrase_brace (n : Nat) (s : List Char) :
    phrase lit (n + 1) ('{' :: s) = match gap '}' s with
      | some (w, r) => some (.objEmpty w, r)
      | none => (members lit n s).map fun (ms, r) => (.obj ms, r) := by
  rw [phrase, if_neg (by simp), if_neg (by simp)]
  exact if_pos rfl

theorem phrase_num (n : Nat) (x : Number) {r : List Char} (h : NumEnd r) :
    phrase lit (n + 1) (x.text ++ r) = some (.num x, r) := by
  obtain ⟨c, s, htext, hc⟩ := number_head x
  refine (phrase_token ?_).trans (token_num x h)
  rw [htext]
  intro d hd
  obtain rfl := Option.some.inj hd
  rcases hc with rfl | hc
  · decide
  · simp only [List.mem_cons, List.not_mem_nil, or_false, not_or]
    exact ⟨digit_ne hc rfl, digit_ne hc rfl, digit_ne hc rfl⟩

theorem phrase_ext (n : Nat) (l : L) (r : List Char) :
    phrase lit (n + 1) (lit.text l ++ r) = some (.ext l, r) := by
  obtain ⟨c, s, htext, -, hc⟩ := lit.head l
  refine (phrase_token ?_).trans (token_ext l r)
  rw [htext]
  intro d hd
  obtain rfl := Option.some.inj hd
  simp only [List.mem_cons, List.not_mem_nil, or_false, not_or] at hc ⊢
  exact ⟨hc.1, hc.2.1, hc.2.2.2.1⟩

mutual

/-- **Every derivation is read back** when there is a call for each of its
characters. -/
theorem phrase_complete (t : Phrase L) {r : List Char} (hr : NumEnd r) {n : Nat}
    (hn : (t.text lit.text).length ≤ n) : phrase lit n (t.text lit.text ++ r) = some (t, r) := by
  obtain ⟨n, rfl⟩ : ∃ m, n = m + 1 := by
    obtain ⟨c, s, htext, -⟩ := phrase_head lit t
    rw [htext, List.length_cons] at hn
    exact ⟨n - 1, by omega⟩
  match t with
  | .null => exact phrase_token (by simp [Phrase.text])
  | .bool true => exact phrase_token (by simp [Phrase.text])
  | .bool false => exact phrase_token (by simp [Phrase.text])
  | .num x => exact phrase_num n x hr
  | .str s =>
      rw [Phrase.text, stringText, List.cons_append, List.append_assoc, List.singleton_append,
        phrase_quote, pieces_complete]
      rfl
  | .ext l => exact phrase_ext n l r
  | .arrEmpty w =>
      rw [Phrase.text, List.cons_append, List.append_assoc, List.singleton_append, phrase_bracket,
        gap_complete rfl]
  | .arr es =>
      rw [Phrase.text, List.length_cons, List.length_append, List.length_singleton] at hn
      rw [Phrase.text, List.cons_append, List.append_assoc, List.singleton_append, phrase_bracket,
        elements_no_bracket]
      exact Option.map_eq_some_iff.mpr ⟨_, elements_complete es r (n := n) (by omega), rfl⟩
  | .objEmpty w =>
      rw [Phrase.text, List.cons_append, List.append_assoc, List.singleton_append, phrase_brace,
        gap_complete rfl]
  | .obj ms =>
      rw [Phrase.text, List.length_cons, List.length_append, List.length_singleton] at hn
      rw [Phrase.text, List.cons_append, List.append_assoc, List.singleton_append, phrase_brace,
        members_no_brace]
      exact Option.map_eq_some_iff.mpr ⟨_, members_complete ms r (n := n) (by omega), rfl⟩

theorem elements_complete (es : Elements L) (r : List Char) {n : Nat}
    (hn : (es.text lit.text).length < n) :
    elements lit n (es.text lit.text ++ ']' :: r) = some (es, r) := by
  obtain ⟨n, rfl⟩ : ∃ m, n = m + 1 := ⟨n - 1, by omega⟩
  match es with
  | .one w t w' =>
      rw [Elements.text, List.length_append, List.length_append] at hn
      have ht := phrase_complete t (numEnd_ws w' (numEnd_cons (c := ']') r (by decide))) (n := n)
        (by omega)
      rw [Elements.text, List.append_assoc, List.append_assoc, elements,
        ws_append w (phrase_noWs t _)]
      refine Option.bind_eq_some_iff.mpr ⟨_, ht, ?_⟩
      dsimp only
      rw [gap_none (noWs_cons r rfl) (by simp), gap_complete rfl]
      rfl
  | .cons w t w' es =>
      rw [Elements.text, List.length_append, List.length_append, List.length_append,
        List.length_cons] at hn
      have ht := phrase_complete t (numEnd_ws w' (numEnd_cons (c := ',')
        (es.text lit.text ++ ']' :: r) (by decide))) (n := n) (by omega)
      have hes := elements_complete es r (n := n) (by omega)
      rw [Elements.text, List.append_assoc, List.append_assoc, List.append_assoc, List.cons_append,
        elements, ws_append w (phrase_noWs t _)]
      refine Option.bind_eq_some_iff.mpr ⟨_, ht, ?_⟩
      dsimp only
      rw [gap_complete rfl]
      exact Option.map_eq_some_iff.mpr ⟨_, hes, rfl⟩

theorem members_complete (ms : Members L) (r : List Char) {n : Nat}
    (hn : (ms.text lit.text).length < n) :
    members lit n (ms.text lit.text ++ '}' :: r) = some (ms, r) := by
  obtain ⟨n, rfl⟩ : ∃ m, n = m + 1 := ⟨n - 1, by omega⟩
  match ms with
  | .one w k w₁ w₂ t w' =>
      have htext : Members.text lit.text (.one w k w₁ w₂ t w') ++ '}' :: r =
          Name.text ⟨w, k, w₁, w₂⟩ ++ (t.text lit.text ++ (w'.1 ++ '}' :: r)) := by
        simp [Members.text, Name.text]
      have hlen : (t.text lit.text).length ≤ n := by
        simp only [Members.text, List.length_append, List.length_cons] at hn
        omega
      have ht := phrase_complete t (numEnd_ws w' (numEnd_cons (c := '}') r (by decide))) hlen
      rw [htext, members, name_complete _ (phrase_noWs t _)]
      refine Option.bind_eq_some_iff.mpr ⟨_, rfl, Option.bind_eq_some_iff.mpr ⟨_, ht, ?_⟩⟩
      dsimp only
      rw [gap_none (noWs_cons r rfl) (by simp), gap_complete rfl]
      rfl
  | .cons w k w₁ w₂ t w' ms =>
      have htext : Members.text lit.text (.cons w k w₁ w₂ t w' ms) ++ '}' :: r =
          Name.text ⟨w, k, w₁, w₂⟩ ++
            (t.text lit.text ++ (w'.1 ++ ',' :: (ms.text lit.text ++ '}' :: r))) := by
        simp [Members.text, Name.text]
      simp only [Members.text, List.length_append, List.length_cons] at hn
      have ht := phrase_complete t (numEnd_ws w' (numEnd_cons (c := ',')
        (ms.text lit.text ++ '}' :: r) (by decide))) (n := n) (by omega)
      have hms := members_complete ms r (n := n) (by omega)
      rw [htext, members, name_complete _ (phrase_noWs t _)]
      refine Option.bind_eq_some_iff.mpr ⟨_, rfl, Option.bind_eq_some_iff.mpr ⟨_, ht, ?_⟩⟩
      dsimp only
      rw [gap_complete rfl]
      exact Option.map_eq_some_iff.mpr ⟨_, hms, rfl⟩

end

end

/-! ## Documents -/

/-- The derivation of a whole text. -/
def document {L : Type} (lit : Literals L) (s : List Char) : Option (Ws × Phrase L × Ws) :=
  (phrase lit s.length (ws s).2).bind fun (t, r) =>
    if (ws r).2 = [] then some ((ws s).1, t, (ws r).1) else none

/-- **A text is read as its one derivation.** -/
theorem document_iff {L : Type} (lit : Literals L) {s : List Char} {w : Ws} {t : Phrase L}
    {w' : Ws} :
    document lit s = some (w, t, w') ↔ s = w.1 ++ t.text lit.text ++ w'.1 := by
  rw [document]
  constructor
  · intro h
    obtain ⟨⟨t', r⟩, ht, h⟩ := Option.bind_eq_some_iff.mp h
    dsimp only at h
    split at h
    · rename_i hr
      obtain ⟨rfl, hrest⟩ := Prod.mk.inj (Option.some.inj h)
      obtain ⟨rfl, rfl⟩ := Prod.mk.inj hrest
      conv_lhs => rw [ws_text s, (reads_sound lit _).1 _ _ _ ht, ws_text r, hr]
      simp
    · cases h
  · rintro rfl
    have hend : NumEnd w'.1 := by
      have hnil : NumEnd [] := nofun
      have h := numEnd_ws w' hnil
      rwa [List.append_nil] at h
    have hws : ws w'.1 = (w', []) := by
      have hnil : NoWs [] := nofun
      have h := ws_append w' hnil
      rwa [List.append_nil] at h
    rw [List.append_assoc, ws_append w (phrase_noWs t _)]
    refine Option.bind_eq_some_iff.mpr ⟨_, phrase_complete t hend ?_, ?_⟩
    · simp only [List.length_append]
      omega
    · dsimp only
      rw [hws, if_pos rfl]

/-- No text has two derivations. -/
theorem document_unique {L : Type} (lit : Literals L) {w w₁ w' w₁' : Ws} {t t' : Phrase L}
    (h : w.1 ++ t.text lit.text ++ w'.1 = w₁.1 ++ t'.text lit.text ++ w₁'.1) :
    w = w₁ ∧ t = t' ∧ w' = w₁' := by
  have hread := (document_iff lit).mpr h
  rw [(document_iff lit).mpr rfl] at hread
  obtain ⟨hw, hrest⟩ := Prod.mk.inj (Option.some.inj hread)
  exact ⟨hw, Prod.mk.inj hrest⟩

end JsonGrammar.Reader
