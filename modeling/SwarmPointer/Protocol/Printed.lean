import SwarmPointer.Jcs.Numbers
import SwarmPointer.Lib.Lines
import SwarmPointer.Protocol.Grammar
import SwarmPointer.Python.SppVerify

/-!
# Protocol — what the Python diagnostic prints

The diagnostic makes one text of its labelled values, and whoever reads it
sees lines. Two things can go wrong between a value and its line. `repr` of a
value nested too deep raises `RecursionError` (`repr_limited` says exactly
when). And a text that is reported before anybody has checked it may hold line
feeds, after which it can say whatever it likes; everything else the
diagnostic prints stays on its line, because `repr`, the canonical text and
the numerals have no line feed in them.

`values` reads a text by its lines; `reported` reads the labelled values. The
last section says when the two agree.
-/

namespace SwarmPointer.Protocol

open Except Json Python Python.Protocol Python.SppVerify

/-! ## Conversion to text -/

mutual

/-- The calls of `repr` that are open at the deepest part of a value. -/
def height : Json Str → Nat
  | .null => 1
  | .bool _ => 1
  | .num _ => 1
  | .str _ => 1
  | .arr vs => heightList vs + 1
  | .obj ms => heightMembers ms + 1

def heightList : List (Json Str) → Nat
  | [] => 0
  | v :: vs => max (height v) (heightList vs)

def heightMembers : Json.Members Str → Nat
  | [] => 0
  | (_, v) :: ms => max (height v) (heightMembers ms)

end

theorem height_pos (v : Json Str) : 0 < height v := by
  cases v <;> rw [height] <;> omega

/-- A computation returns when `p` holds and runs into the limit otherwise. -/
def Limited {α : Type} (p : Prop) (x : Py α) : Prop :=
  (p ∧ ∃ a, x = .ok a) ∨ (¬ p ∧ x = .error .recursionError)

theorem Limited.bind {α β : Type} {p q : Prop} {x : Py α} {f : α → Py β} (hx : Limited p x)
    (hf : ∀ a, x = .ok a → Limited q (f a)) : Limited (p ∧ q) (x >>= f) := by
  rcases hx with ⟨hp, a, ha⟩ | ⟨hp, he⟩
  · rw [ha, ok_bind]
    rcases hf a ha with ⟨hq, b, hb⟩ | ⟨hq, hb⟩
    · exact .inl ⟨⟨hp, hq⟩, b, hb⟩
    · exact .inr ⟨fun h => hq h.2, hb⟩
  · exact .inr ⟨fun h => hp h.1, by rw [he]; rfl⟩

section
variable {host : Host}

theorem reprList_limited {n : Nat} {vs : List (Json Str)}
    (h : ∀ v ∈ vs, Limited (height v ≤ n) (SppVerify.repr host n v)) :
    Limited (heightList vs ≤ n) (reprList host n vs) := by
  induction vs with
  | nil => exact .inl ⟨Nat.zero_le n, [], by rw [reprList]⟩
  | cons v vs ih =>
      rw [heightList, reprList]
      rcases h v (List.mem_cons_self ..) with ⟨hv, s, hs⟩ | ⟨hv, hs⟩
      · rw [hs, ok_bind]
        rcases ih fun w hw => h w (List.mem_cons_of_mem _ hw) with ⟨hvs, ss, hss⟩ | ⟨hvs, hss⟩
        · exact .inl ⟨max_le hv hvs, s :: ss, by rw [hss]; rfl⟩
        · exact .inr ⟨fun hmax => hvs ((le_max_right _ _).trans hmax), by rw [hss]; rfl⟩
      · exact .inr ⟨fun hmax => hv ((le_max_left _ _).trans hmax), by rw [hs]; rfl⟩

theorem reprMembers_limited {n : Nat} {ms : Json.Members Str}
    (h : ∀ m ∈ ms, Limited (height m.2 ≤ n) (SppVerify.repr host n m.2)) :
    Limited (heightMembers ms ≤ n) (reprMembers host n ms) := by
  induction ms with
  | nil => exact .inl ⟨Nat.zero_le n, [], by rw [reprMembers]⟩
  | cons m ms ih =>
      obtain ⟨k, v⟩ := m
      have hpos := height_pos v
      rw [heightMembers, reprMembers]
      by_cases h0 : n = 0
      · rw [if_pos h0]
        exact .inr ⟨by omega, rfl⟩
      rw [if_neg h0]
      rcases h (k, v) (List.mem_cons_self ..) with ⟨hv, s, hs⟩ | ⟨hv, hs⟩
      · rw [hs, ok_bind]
        rcases ih fun w hw => h w (List.mem_cons_of_mem _ hw) with ⟨hvs, ss, hss⟩ | ⟨hvs, hss⟩
        · exact .inl ⟨max_le hv hvs, _, by rw [hss]; rfl⟩
        · exact .inr ⟨fun hmax => hvs ((le_max_right _ _).trans hmax), by rw [hss]; rfl⟩
      · exact .inr ⟨fun hmax => hv ((le_max_left _ _).trans hmax), by rw [hs]; rfl⟩

/-- **`repr` returns exactly when the value is not nested deeper than the calls left.** -/
theorem repr_limited (v : Json Str) (n : Nat) : Limited (height v ≤ n) (SppVerify.repr host n v) := by
  have hleaf : ∀ {v : Json Str} {s : Str}, height v = 1 → (∀ n, SppVerify.repr host (n + 1) v = .ok s) →
      ∀ n, Limited (height v ≤ n) (SppVerify.repr host n v) := by
    intro v s hone hs n
    cases n with
    | zero => exact .inr ⟨by omega, by rw [SppVerify.repr]⟩
    | succ n => exact .inl ⟨by omega, s, hs n⟩
  induction v using Json.induct generalizing n with
  | hnull => exact hleaf (by rw [height]) (fun n => by rw [SppVerify.repr]) n
  | hbool b => cases b <;> exact hleaf (by rw [height]) (fun n => by rw [SppVerify.repr]) n
  | hnum x => exact hleaf (by rw [height]) (fun n => by rw [SppVerify.repr]) n
  | hstr s => exact hleaf (by rw [height]) (fun n => by rw [SppVerify.repr]) n
  | harr vs ih =>
      rw [height]
      cases n with
      | zero => exact .inr ⟨by omega, by rw [SppVerify.repr]⟩
      | succ n =>
          rw [SppVerify.repr]
          rcases reprList_limited fun v hv => ih v hv n with ⟨h, ss, hss⟩ | ⟨h, hss⟩
          · exact .inl ⟨by omega, _, by rw [hss]; rfl⟩
          · exact .inr ⟨by omega, by rw [hss]; rfl⟩
  | hobj ms ih =>
      rw [height]
      cases n with
      | zero => exact .inr ⟨by omega, by rw [SppVerify.repr]⟩
      | succ n =>
          rw [SppVerify.repr]
          rcases reprMembers_limited fun m hm => ih m hm n with ⟨h, ss, hss⟩ | ⟨h, hss⟩
          · exact .inl ⟨by omega, _, by rw [hss]; rfl⟩
          · exact .inr ⟨by omega, by rw [hss]; rfl⟩

/-- A member can be converted: it is missing, a text, or not nested deeper than
`repr` can go. -/
def Fits (host : Host) : Option (Json Str) → Prop
  | none => True
  | some (.str _) => True
  | some v => height v ≤ host.repr_calls

theorem formatValue_limited (host : Host) (v : Option (Json Str)) :
    Limited (Fits host v) (formatValue host v) := by
  rcases v with - | v
  · exact .inl ⟨trivial, _, rfl⟩
  · cases v with
    | str s => exact .inl ⟨trivial, s, rfl⟩
    | _ => exact repr_limited _ _

end

/-! ## Values on one line -/

/-- Without a line feed. -/
abbrev OneLine (s : Str) : Prop := '\n' ∉ s

theorem oneLine_cons {c : Char} {s : Str} : OneLine (c :: s) ↔ c ≠ '\n' ∧ OneLine s := by
  rw [OneLine, List.mem_cons, not_or]
  exact and_congr_left fun _ => ⟨Ne.symm, Ne.symm⟩

theorem oneLine_append {s t : Str} : OneLine (s ++ t) ↔ OneLine s ∧ OneLine t := by
  rw [OneLine, List.mem_append, not_or]

theorem oneLine_digits {b : Nat} (hb : 1 < b) (hb' : b ≤ 16) (n : Nat) :
    OneLine (Nat.toDigits b n) := by
  have hchar : ∀ d < 16, OneLine [d.digitChar] := by decide
  induction n using Nat.strongRecOn with
  | ind n ih =>
      by_cases hn : n < b
      · rw [Nat.toDigits_of_lt_base hn]
        exact hchar n (by omega)
      · rw [Nat.toDigits_of_base_le hb (not_lt.mp hn), oneLine_append]
        exact ⟨ih _ (Nat.div_lt_self (by omega) hb),
          hchar _ ((Nat.mod_lt n (by omega)).trans_le hb')⟩

theorem oneLine_replicate {n : Nat} {c : Char} (h : c ≠ '\n') : OneLine (List.replicate n c) :=
  fun hmem => h (List.eq_of_mem_replicate hmem).symm

theorem oneLine_sublist {s t : Str} (h : s.Sublist t) (ht : OneLine t) : OneLine s :=
  fun hmem => ht (h.subset hmem)

theorem oneLine_flatMap {f : Char → Str} (h : ∀ c, OneLine (f c)) (s : Str) :
    OneLine (s.flatMap f) := by
  intro hmem
  obtain ⟨c, -, hf⟩ := List.mem_flatMap.mp hmem
  exact h c hf

theorem oneLine_intercalate {sep : Str} {ss : List Str} (hsep : OneLine sep)
    (h : ∀ s ∈ ss, OneLine s) : OneLine (sep.intercalate ss) := by
  intro hmem
  rcases Lines.mem_intercalate hmem with hc | ⟨s, hs, hc⟩
  · exact hsep hc
  · exact h s hs hc

theorem oneLine_leftpad {n : Nat} {s : Str} (h : OneLine s) : OneLine (s.leftpad n '0') :=
  oneLine_append.mpr ⟨oneLine_replicate (by decide), h⟩

theorem oneLine_hex (bs : Bytes) : OneLine (hex bs) := fun h =>
  absurd (List.all_eq_true.mp (hex_lower bs) _ h) (by decide)

theorem oneLine_fmt064x (n : Nat) : OneLine (fmt064x n) :=
  oneLine_leftpad (oneLine_digits (by decide) (by decide) n)

theorem oneLine_idText (d : Digest) : OneLine (idText d) :=
  oneLine_append.mpr ⟨by decide, oneLine_hex d.1⟩

theorem oneLine_reprNumber (x : Binary64) : OneLine (reprNumber x) := by
  have hexponent : ∀ e, OneLine (reprExponent e) := by
    intro e
    have hdigits := oneLine_digits (b := 10) (by decide) (by decide) e.natAbs
    rw [reprExponent, oneLine_cons]
    refine ⟨by split <;> decide, ?_⟩
    split
    · exact oneLine_cons.mpr ⟨by decide, hdigits⟩
    · exact hdigits
  have hfraction : ∀ {s : Str}, OneLine s → OneLine (Decimal.fraction s) := by
    intro s hs
    cases s with
    | nil => exact hs
    | cons c s => exact oneLine_cons.mpr ⟨by decide, hs⟩
  have hlayout : ∀ {ds : Str}, OneLine ds → ∀ n, OneLine (reprLayout ds n) := by
    intro ds hds n
    have htake : ∀ k, OneLine (ds.take k) := fun k => oneLine_sublist (List.take_sublist k ds) hds
    have hdrop : ∀ k, OneLine (ds.drop k) := fun k => oneLine_sublist (List.drop_sublist k ds) hds
    rw [reprLayout]
    -- with an exponent, with leading zeros, with a point inside, with trailing zeros
    split
    · refine oneLine_append.mpr ⟨oneLine_append.mpr ⟨htake 1, hfraction (hdrop 1)⟩, ?_⟩
      exact oneLine_cons.mpr ⟨by decide, hexponent _⟩
    split
    · refine oneLine_cons.mpr ⟨by decide, oneLine_cons.mpr ⟨by decide, ?_⟩⟩
      exact oneLine_append.mpr ⟨oneLine_replicate (by decide), hds⟩
    split
    · exact oneLine_append.mpr ⟨htake _, oneLine_cons.mpr ⟨by decide, hdrop _⟩⟩
    · refine oneLine_append.mpr ⟨oneLine_append.mpr ⟨hds, ?_⟩, by decide⟩
      exact oneLine_replicate (by decide)
  rw [reprNumber, oneLine_append]
  refine ⟨by split <;> decide, ?_⟩
  split
  · decide
  · exact hlayout (oneLine_digits (by decide) (by decide) _) _

theorem oneLine_reprStr (host : Host) (s : Str) : OneLine (SppVerify.reprStr host s) := by
  have hchar : ∀ quote ∈ ['"', '\''], ∀ c, OneLine (reprChar host quote c) := by
    intro quote hquote c
    have hpad : ∀ k n, OneLine ((Nat.toDigits 16 n).leftpad k '0') := fun k n =>
      oneLine_leftpad (oneLine_digits (by decide) (by decide) n)
    rw [reprChar]
    split
    next hq =>
      have hc : c ≠ '\n' := by
        rintro rfl
        rcases hq with rfl | h
        · exact absurd hquote (by decide)
        · exact absurd h (by decide)
      exact oneLine_cons.mpr ⟨by decide, oneLine_cons.mpr ⟨hc, by decide⟩⟩
    split
    next => decide
    split
    next => decide
    -- the newline itself is escaped; behind this test the character is not one
    next hn =>
    split
    next => decide
    have hc : OneLine [c] := oneLine_cons.mpr ⟨hn, by decide⟩
    split
    next => exact hc
    split
    next => exact hc
    split
    next => exact oneLine_append.mpr ⟨by decide, hpad _ _⟩
    split
    next => exact oneLine_append.mpr ⟨by decide, hpad _ _⟩
    next => exact oneLine_append.mpr ⟨by decide, hpad _ _⟩
  have hbody : ∀ quote ∈ ['"', '\''],
      OneLine (quote :: s.flatMap (reprChar host quote) ++ [quote]) := by
    intro quote hquote
    have hne : quote ≠ '\n' := by
      rintro rfl
      exact absurd hquote (by decide)
    refine oneLine_cons.mpr ⟨hne, oneLine_append.mpr ⟨oneLine_flatMap (hchar quote hquote) s, ?_⟩⟩
    exact oneLine_cons.mpr ⟨hne, by decide⟩
  rw [SppVerify.reprStr]
  refine hbody _ ?_
  split <;> simp

theorem oneLine_reprList {host : Host} {vs : List (Json Str)} {n : Nat} {ss : List Str}
    (hvs : ∀ v ∈ vs, ∀ {s : Str}, SppVerify.repr host n v = .ok s → OneLine s)
    (h : reprList host n vs = .ok ss) : ∀ s ∈ ss, OneLine s := by
  induction vs generalizing ss with
  | nil =>
      rw [reprList] at h
      obtain rfl := Except.ok.inj h
      exact nofun
  | cons v vs ih =>
      rw [reprList] at h
      obtain ⟨s, hs, h⟩ := bind_eq_ok_iff.mp h
      obtain ⟨ss', hss, h⟩ := bind_eq_ok_iff.mp h
      obtain rfl := Except.ok.inj h
      intro t ht
      rcases List.mem_cons.mp ht with rfl | ht
      · exact hvs v (List.mem_cons_self ..) hs
      · exact ih (fun w hw => hvs w (List.mem_cons_of_mem _ hw)) hss t ht

theorem oneLine_reprMembers {host : Host} {ms : Json.Members Str} {n : Nat} {ss : List Str}
    (hms : ∀ m ∈ ms, ∀ {s : Str}, SppVerify.repr host n m.2 = .ok s → OneLine s)
    (h : reprMembers host n ms = .ok ss) : ∀ s ∈ ss, OneLine s := by
  induction ms generalizing ss with
  | nil =>
      rw [reprMembers] at h
      obtain rfl := Except.ok.inj h
      exact nofun
  | cons m ms ih =>
      obtain ⟨k, v⟩ := m
      rw [reprMembers] at h
      split at h
      · cases h
      obtain ⟨s, hs, h⟩ := bind_eq_ok_iff.mp h
      obtain ⟨ss', hss, h⟩ := bind_eq_ok_iff.mp h
      obtain rfl := Except.ok.inj h
      intro t ht
      rcases List.mem_cons.mp ht with rfl | ht
      · refine oneLine_append.mpr ⟨oneLine_reprStr host k, ?_⟩
        refine oneLine_cons.mpr ⟨by decide, oneLine_cons.mpr ⟨by decide, ?_⟩⟩
        exact hms (k, v) (List.mem_cons_self ..) hs
      · exact ih (fun w hw => hms w (List.mem_cons_of_mem _ hw)) hss t ht

/-- **`repr` writes no line feed.** -/
theorem oneLine_repr (host : Host) (v : Json Str) {n : Nat} {s : Str}
    (h : SppVerify.repr host n v = .ok s) : OneLine s := by
  have hwrap : ∀ {open_ close : Char} {ss : List Str}, open_ ≠ '\n' → close ≠ '\n' →
      (∀ s ∈ ss, OneLine s) → OneLine (open_ :: [',', ' '].intercalate ss ++ [close]) :=
    fun ho hc hss => oneLine_cons.mpr ⟨ho, oneLine_append.mpr
      ⟨oneLine_intercalate (by decide) hss, oneLine_cons.mpr ⟨hc, by decide⟩⟩⟩
  induction v using Json.induct generalizing n s with
  | hnull =>
      cases n <;> rw [SppVerify.repr] at h <;> cases h
      decide
  | hbool b =>
      cases n <;> cases b <;> rw [SppVerify.repr] at h <;> cases h <;> decide
  | hnum x =>
      cases n <;> rw [SppVerify.repr] at h <;> cases h
      exact oneLine_reprNumber x
  | hstr t =>
      cases n <;> rw [SppVerify.repr] at h <;> cases h
      exact oneLine_reprStr host t
  | harr vs ih =>
      cases n with
      | zero =>
          rw [SppVerify.repr] at h
          cases h
      | succ n =>
          rw [SppVerify.repr] at h
          obtain ⟨ss, hss, h⟩ := bind_eq_ok_iff.mp h
          obtain rfl := Except.ok.inj h
          exact hwrap (by decide) (by decide) (oneLine_reprList (fun v hv => ih v hv) hss)
  | hobj ms ih =>
      cases n with
      | zero =>
          rw [SppVerify.repr] at h
          cases h
      | succ n =>
          rw [SppVerify.repr] at h
          obtain ⟨ss, hss, h⟩ := bind_eq_ok_iff.mp h
          obtain rfl := Except.ok.inj h
          exact hwrap (by decide) (by decide) (oneLine_reprMembers (fun m hm => ih m hm) hss)

theorem oneLine_escape (c : Char) : OneLine (Rfc8785.escape c) := by
  have hdigit : ∀ n < 16, OneLine [hexDigit n] := by decide
  rw [Rfc8785.escape]
  split
  next => decide
  split
  next => decide
  split
  next => decide
  split
  next => decide
  split
  next => decide
  next hn =>
  split
  next => decide
  split
  next => decide
  split
  next hc =>
    have hhi := hdigit (c.toNat / 16) (by omega)
    have hlo := hdigit (c.toNat % 16) (by omega)
    have hdigits : OneLine [hexDigit (c.toNat / 16), hexDigit (c.toNat % 16)] :=
      oneLine_cons.mpr ⟨(oneLine_cons.mp hhi).1, hlo⟩
    exact oneLine_append (s := ['\\', 'u', '0', '0']).mpr ⟨by decide, hdigits⟩
  next => exact oneLine_cons.mpr ⟨hn, by decide⟩

/-- **Canonical text has no line feed.** -/
theorem oneLine_text (v : Json Str) : OneLine (Rfc8785.text v) := by
  have hquote : ∀ s, OneLine (Rfc8785.quote s) := fun s => oneLine_cons.mpr
    ⟨by decide, oneLine_append.mpr ⟨oneLine_flatMap oneLine_escape s, by decide⟩⟩
  induction v using Json.induct with
  | hnull =>
      rw [Rfc8785.text]
      decide
  | hbool b => cases b <;> rw [Rfc8785.text] <;> decide
  | hnum x =>
      rw [Rfc8785.text]
      intro h
      rcases Jcs.ecmaString_chars x _ h with hdigit | hmark
      · exact absurd hdigit (by decide)
      · exact absurd hmark (by decide)
  | hstr s =>
      rw [Rfc8785.text]
      exact hquote s
  | harr vs ih =>
      rw [Rfc8785.text, Rfc8785.textList_eq]
      refine oneLine_cons.mpr ⟨by decide, oneLine_append.mpr ⟨?_, by decide⟩⟩
      refine oneLine_intercalate (by decide) fun s hs => ?_
      obtain ⟨v, hv, rfl⟩ := List.mem_map.mp hs
      exact ih v hv
  | hobj ms ih =>
      rw [Rfc8785.text, Rfc8785.textMembers_eq]
      refine oneLine_cons.mpr ⟨by decide, oneLine_append.mpr ⟨?_, by decide⟩⟩
      refine oneLine_intercalate (by decide) fun s hs => ?_
      obtain ⟨m, hm, rfl⟩ := List.mem_map.mp hs
      obtain ⟨m', hm', rfl⟩ := List.mem_map.mp ((Rfc8785.sortByName_perm _).mem_iff.mp hm)
      exact oneLine_append.mpr ⟨hquote _, oneLine_cons.mpr ⟨by decide, ih m' hm'⟩⟩

/-- What the diagnostic converts is on one line, unless it is a text that is not. -/
theorem oneLine_formatValue {host : Host} {v : Option (Json Str)} {s : Str}
    (hv : ∀ t, v = some (.str t) → OneLine t) (h : formatValue host v = .ok s) : OneLine s := by
  rcases v with - | v
  · obtain rfl := Except.ok.inj h
    decide
  cases v with
  | str t =>
      obtain rfl := Except.ok.inj h
      exact hv t rfl
  | _ => exact oneLine_repr host _ h

/-- `f"{v}"`, where the conversion returns. -/
def printed (host : Host) (v : Option (Json Str)) : Str :=
  match formatValue host v with
  | .ok s => s
  | .error _ => []

theorem printed_ok {host : Host} {v : Option (Json Str)} {s : Str}
    (h : formatValue host v = .ok s) : printed host v = s := by
  rw [printed, h]

theorem oneLine_printed {host : Host} {v : Option (Json Str)}
    (hv : ∀ t, v = some (.str t) → OneLine t) : OneLine (printed host v) := by
  cases h : formatValue host v with
  | error e =>
      rw [printed, h]
      exact nofun
  | ok s =>
      rw [printed_ok h]
      exact oneLine_formatValue hv h

/-! ## Lines and labels -/

/-- The values a text prints after a label. -/
def values (label : String) (text : Str) : List Str :=
  Lines.values '\n' (label.toList ++ [':', ' ']) text

/-- The last of them. -/
def final (label : String) (text : Str) : Option Str := (values label text).getLast?

/-- The values a log has under a label. -/
def reported (label : Label) (log : List Line) : List Str :=
  log.filterMap fun l => if l.1 = label then some l.2 else none

theorem label_plain (label : Label) : OneLine label.text.toList ∧ ':' ∉ label.text.toList := by
  cases label <;> decide

theorem label_inj {a b : Label} (h : a.text.toList = b.text.toList) : a = b := by
  have htext : a.text = b.text := String.toList_inj.mp h
  cases a <;> cases b <;> first | rfl | exact absurd htext (by decide)

theorem reported_append (label : Label) (xs ys : List Line) :
    reported label (xs ++ ys) = reported label xs ++ reported label ys :=
  List.filterMap_append

/-- **The values of the diagnostic are those of its lines.** -/
theorem values_diagnosticText (label : String) {log : List Line} (hne : log ≠ []) :
    values label (diagnosticText log) = log.flatMap fun l => values label (lineText l) := by
  have hlabel : label.toList ++ [':', ' '] ≠ [] :=
    List.append_ne_nil_of_right_ne_nil _ (List.cons_ne_nil _ _)
  rw [values, diagnosticText, ← Lines.text, Lines.values_text hlabel (by simpa using hne),
    List.flatMap_map]
  rfl

/-- The first line of a line of the log, read after a label. -/
theorem dropPrefix_lineText (label : Label) (l : Line) (s : Str) :
    (l.1.text.toList ++ [':', ' '] ++ s).dropPrefix? (label.text.toList ++ [':', ' ']) =
      if l.1 = label then some s else none := by
  rw [Lines.dropPrefix_label (label_plain label).2 (label_plain l.1).2]
  exact if_congr ⟨fun h => label_inj h, fun h => h ▸ rfl⟩ rfl rfl

/-- A value on one line is read back under its label and under no other. -/
theorem values_lineText {l : Line} (h : OneLine l.2) (label : Label) :
    values label.text (lineText l) = reported label [l] := by
  have hline : lineText l = l.1.text.toList ++ [':', ' '] ++ l.2 := by
    rw [lineText, List.append_assoc]
    rfl
  have hplain : OneLine (lineText l) := by
    rw [hline]
    exact oneLine_append.mpr ⟨oneLine_append.mpr ⟨(label_plain l.1).1, by decide⟩, h⟩
  rw [values, Lines.values_one hplain, hline, dropPrefix_lineText]
  by_cases hl : l.1 = label
  · simp [reported, hl]
  · simp [reported, hl]

theorem values_lines {log : List Line} (h : ∀ l ∈ log, OneLine l.2) (label : Label) :
    (log.flatMap fun l => values label.text (lineText l)) = reported label log := by
  induction log with
  | nil => rfl
  | cons l log ih =>
      rw [List.flatMap_cons, values_lineText (h l (List.mem_cons_self ..)),
        ih fun l' hl' => h l' (List.mem_cons_of_mem _ hl'), ← reported_append]
      rfl

/-! ## Forged lines -/

/-- A text that prints a line of its own saying that the work is paid for. -/
def Forges (s : Str) : Prop := "PoW: PASS".toList ∈ (s.splitOn '\n').tail

instance (s : Str) : Decidable (Forges s) := inferInstanceAs (Decidable (_ ∈ _))

theorem not_forges {s : Str} (h : OneLine s) : ¬ Forges s := by
  rw [Forges, List.splitOn_eq_singleton h]
  exact nofun

theorem pass_mem_filterMap {rest : List Str} :
    "PASS".toList ∈ rest.filterMap (·.dropPrefix? ("PoW".toList ++ [':', ' '])) ↔
      "PoW: PASS".toList ∈ rest := by
  rw [List.mem_filterMap]
  constructor
  · rintro ⟨line, hline, hdrop⟩
    obtain ⟨p, rfl, hp⟩ := List.dropPrefix?_eq_some_iff.mp hdrop
    rwa [LawfulBEq.eq_of_beq hp] at hline
  · intro h
    exact ⟨_, h, rfl⟩

/-- **A line says that the work is paid for** when that is its value, or when
it is forged. -/
theorem pass_mem_lineText (l : Line) : "PASS".toList ∈ values "PoW" (lineText l) ↔
    (l.1 = .pow ∧ (l.2.splitOn '\n').head? = some "PASS".toList) ∨ Forges l.2 := by
  have hown : OneLine (l.1.text.toList ++ [':', ' ']) :=
    oneLine_append.mpr ⟨(label_plain l.1).1, by decide⟩
  obtain ⟨first, rest, hsplit, hvalues⟩ :=
    @Lines.values_append _ _ _ ("PoW".toList ++ [':', ' ']) _ hown l.2
  have hline : lineText l = l.1.text.toList ++ [':', ' '] ++ l.2 := by
    rw [lineText, List.append_assoc]
    rfl
  rw [values, hline, hvalues, List.mem_append, pass_mem_filterMap, Forges, hsplit]
  refine or_congr ?_ Iff.rfl
  rw [show "PoW".toList = Label.pow.text.toList from rfl, dropPrefix_lineText]
  by_cases hl : l.1 = .pow
  · simp [hl, eq_comm]
  · simp [hl]

/-- **The report says that the work is paid for** when the diagnostic found
so, or when a line is forged. -/
theorem pass_printed {log : List Line} (hne : log ≠ [])
    (hpow : ∀ l ∈ log, l.1 = .pow → OneLine l.2) :
    "PASS".toList ∈ values "PoW" (diagnosticText log) ↔
      "PASS".toList ∈ reported .pow log ∨ ∃ l ∈ log, Forges l.2 := by
  have hreported : "PASS".toList ∈ reported .pow log ↔ ∃ l ∈ log, l.1 = .pow ∧ l.2 = "PASS".toList := by
    rw [reported, List.mem_filterMap]
    refine exists_congr fun l => and_congr_right fun _ => ?_
    by_cases hl : l.1 = .pow <;> simp [hl]
  rw [values_diagnosticText "PoW" hne, List.mem_flatMap, hreported, ← exists_or]
  refine exists_congr fun l => ?_
  rw [pass_mem_lineText, and_or_left]
  refine or_congr (and_congr_right fun hl => and_congr_right fun hlabel => ?_) Iff.rfl
  rw [List.splitOn_eq_singleton (hpow l hl hlabel)]
  exact ⟨fun h => Option.some.inj h, fun h => congrArg some h⟩

/-! ## Members -/

/-- A member cannot break the report: it is missing, a text that forges
nothing, or not nested deeper than `repr` can go. -/
def Shown (host : Host) : Option (Json Str) → Prop
  | none => True
  | some (.str s) => ¬ Forges s
  | some v => height v ≤ host.repr_calls

theorem shown_iff {host : Host} {v : Option (Json Str)} :
    Shown host v ↔ Fits host v ∧ ¬ Forges (printed host v) := by
  have hother : (∀ t, v ≠ some (.str t)) → ¬ Forges (printed host v) := fun h =>
    not_forges (oneLine_printed fun t ht => absurd ht (h t))
  rcases v with - | v
  · exact iff_of_true trivial ⟨trivial, hother nofun⟩
  cases v with
  | str t => exact ⟨fun h => ⟨trivial, h⟩, fun h => h.2⟩
  | _ => exact ⟨fun h => ⟨h, hother nofun⟩, fun h => h.1⟩

end SwarmPointer.Protocol
