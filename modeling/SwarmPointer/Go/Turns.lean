import SwarmPointer.Go.Value
import SwarmPointer.Lib.FuelLoop

/-!
# `implementations/go/value.go` — the loops end

The `for` loops of `parseString` and `tokenize` have no bound, and their models
take one, answering `errInvalidJSON` when it is used up. An answer of that kind
must not stand for a loop that goes on for ever, so the loops are stated here as
the source has them: one turn each, which returns, fails or goes on, repeated
for as long as it takes.

Every turn that goes on leaves fewer bytes than it found. For `tokenize` that
is so because each case of the switch takes at least one byte: a bracket, comma
or colon itself, a string its opening quote, a literal its first letter, a
number its first digit. Hence both loops end on every input, with what the
bounded loops return: one turn for each byte and one more is always enough.
-/

namespace SwarmPointer.Go.Value

open Except FuelLoop

/-! ## The turns -/

/-- One turn of the loop of `parseString`, at the builder and the bytes left. -/
def stringTurn (s : Bytes × Bytes) : Scan ((Bytes × Bytes) ⊕ (Bytes × Bytes)) :=
  match s.2 with
  | [] => fail .invalidJSON
  | c :: rest =>
      if c = 0x22 then .ok (.inl (s.1, rest))
      else if c = 0x5C then do
        let (out, rest) ← escape rest
        .ok (.inr (s.1 ++ out, rest))
      else if c < 0x20 then fail .invalidJSON
      else do
        let (out, rest) ← rawRune (c :: rest)
        .ok (.inr (s.1 ++ out, rest))

/-- One turn of the loop of `tokenize`, at the tokens so far and the bytes left. -/
def tokenizeTurn (s : List Token × Bytes) :
    Scan ((List Token × Bytes) ⊕ (List Token × Bytes)) :=
  match skipWS s.2 with
  | [] => .ok (.inl (s.1, []))
  | c :: rest => do
      let (tok, data) ← scanToken c (c :: rest)
      .ok (.inr (s.1 ++ [tok], data))

theorem parseStringLoop_turn (n : Nat) (s : Bytes × Bytes) :
    parseStringLoop (n + 1) s.1 s.2 =
      stringTurn s >>= Sum.elim Except.ok fun s => parseStringLoop n s.1 s.2 := by
  obtain ⟨b, data⟩ := s
  cases data with
  | nil => rfl
  | cons c rest =>
      simp only [parseStringLoop, stringTurn]
      split
      · rfl
      split
      · cases escape rest <;> rfl
      split
      · rfl
      · cases rawRune (c :: rest) <;> rfl

theorem tokenizeLoop_turn (n : Nat) (s : List Token × Bytes) :
    tokenizeLoop (n + 1) s.1 s.2 =
      tokenizeTurn s >>= Sum.elim Except.ok fun s => tokenizeLoop n s.1 s.2 := by
  simp only [tokenizeLoop, tokenizeTurn]
  cases skipWS s.2 with
  | nil => rfl
  | cons c rest =>
      dsimp only
      cases scanToken c (c :: rest) <;> rfl

/-! ## Strings -/

theorem readHex4_le (data : Bytes) : Ensures (fun out => out.2.length ≤ data.length) (readHex4 data) := by
  match data with
  | a :: b :: c :: d :: data =>
      rw [readHex4]
      split
      · refine .pure ?_
        simp only [List.length_cons]
        omega
      · exact .error _
  | [] => exact .error _
  | [_] => exact .error _
  | [_, _] => exact .error _
  | [_, _, _] => exact .error _

theorem unicodeEscape_le (data : Bytes) :
    Ensures (fun out => out.2.length ≤ data.length) (unicodeEscape data) := by
  refine (readHex4_le data).bind fun ⟨r, rest⟩ hrest => ?_
  dsimp only at hrest ⊢
  split
  · split
    · -- the second half of the pair starts two bytes further
      have hdrop : (rest.drop 2).length ≤ data.length := by
        rw [List.length_drop]
        omega
      refine (readHex4_le _).bind fun ⟨r2, rest⟩ hrest => ?_
      exact .after_test (.after_test (.pure (Nat.le_trans hrest hdrop)))
    · exact .error _
  split
  · exact .error _
  · exact .after_test (.pure hrest)

theorem escape_le (data : Bytes) : Ensures (fun out => out.2.length ≤ data.length) (escape data) := by
  cases data with
  | nil => exact .error _
  | cons e data =>
      have hle : data.length ≤ (e :: data).length := Nat.le_succ _
      rw [escape]
      split
      · exact fun out h => Nat.le_trans (unicodeEscape_le data out h) hle
      cases shortEscape e with
      | none => exact .error _
      | some b => exact .pure hle

theorem decodeRune_pos (data : Bytes) : 0 < (decodeRune data).2 := by
  rw [decodeRune]
  split
  · exact Char.utf8Size_pos _
  · exact Nat.one_pos

theorem rawRune_lt {data : Bytes} (h : data ≠ []) :
    Ensures (fun out => out.2.length < data.length) (rawRune data) := by
  have hdrop : (data.drop (decodeRune data).2).length < data.length := by
    have hpos := decodeRune_pos data
    have hlen := List.length_pos_of_ne_nil h
    rw [List.length_drop]
    omega
  exact .after_test (.after_test (.pure hdrop))

/-- A turn leaves fewer bytes than it found, whether it returns or goes on. -/
theorem stringTurn_lt (s : Bytes × Bytes) :
    Ensures (fun out => (Sum.elim Prod.snd Prod.snd out).length < s.2.length) (stringTurn s) := by
  obtain ⟨b, data⟩ := s
  cases data with
  | nil => exact .error _
  | cons c rest =>
      rw [stringTurn]
      dsimp only
      split
      · exact .pure (Nat.lt_succ_self _)
      split
      · exact (escape_le rest).bind fun out hle => .pure (Nat.lt_succ_of_le hle)
      split
      · exact .error _
      · exact (rawRune_lt (List.cons_ne_nil c rest)).bind fun out hlt => .pure hlt

/-- **The loop of `parseString` ends**, with what the bounded loop returns. -/
theorem parseString_runs (data : Bytes) (x : Scan (Bytes × Bytes)) :
    Runs stringTurn ([], data) x ↔ x = parseString data :=
  runs_iff (fun n s => parseStringLoop n s.1 s.2) (fun s => s.2.length) parseStringLoop_turn
    (fun s _ h => stringTurn_lt s _ h) (Nat.lt_succ_self _)

theorem parseString_lt (data : Bytes) :
    Ensures (fun out => out.2.length < data.length) (parseString data) := by
  have hrun : ∀ s x, Runs stringTurn s x →
      Ensures (fun out => out.2.length < s.2.length) x := by
    intro s x h
    induction h with
    | raises h => exact .error _
    | returns h => exact .pure (stringTurn_lt _ _ h)
    | next h _ ih => exact fun out hout => Nat.lt_trans (ih out hout) (stringTurn_lt _ _ h)
  exact hrun _ _ ((parseString_runs data _).mpr rfl)

/-! ## Numbers and literals -/

theorem digits_le (data : Bytes) : Ensures (fun rest => rest.length ≤ data.length) (digits data) := by
  cases data with
  | nil => exact .error _
  | cons c rest =>
      rw [digits]
      split
      · exact .pure ((List.dropWhile_sublist _).length_le)
      · exact .error _

theorem integer_lt (data : Bytes) : Ensures (fun rest => rest.length < data.length) (integer data) := by
  cases data with
  | nil => exact .error _
  | cons c rest =>
      rw [integer]
      split
      · exact .error _
      rename_i hdigit
      split
      · exact .pure (Nat.lt_succ_self _)
      · -- the first byte is a digit, so the digit loop takes it
        rw [List.dropWhile_cons_of_pos (by simpa using hdigit)]
        exact .pure (Nat.lt_succ_of_le ((List.dropWhile_sublist _).length_le))

theorem drop_le (n : Nat) (data : Bytes) : (data.drop n).length ≤ data.length := by
  rw [List.length_drop]
  exact Nat.sub_le ..

theorem fraction_le (data : Bytes) :
    Ensures (fun rest => rest.length ≤ data.length) (fraction data) := by
  rw [fraction]
  split
  · exact fun rest h => Nat.le_trans (digits_le _ rest h) (drop_le 1 data)
  · exact .pure (Nat.le_refl _)

theorem exponent_le (data : Bytes) :
    Ensures (fun rest => rest.length ≤ data.length) (exponent data) := by
  rw [exponent]
  split
  · intro rest h
    refine Nat.le_trans (digits_le _ rest h) ?_
    split
    · exact Nat.le_trans (drop_le 1 _) (drop_le 1 data)
    · exact drop_le 1 data
  · exact .pure (Nat.le_refl _)

theorem scanNumber_lt (data : Bytes) :
    Ensures (fun rest => rest.length < data.length) (scanNumber data) := by
  have hsign : ∀ c : UInt8, (if c = 0x2D then data.drop 1 else data).length ≤ data.length := by
    intro c
    split
    · exact drop_le 1 data
    · exact Nat.le_refl _
  refine Ensures.bind (fun _ _ => trivial) fun c _ => ?_
  refine (integer_lt _).bind fun rest hrest => ?_
  refine (fraction_le rest).bind fun rest' hrest' => ?_
  intro rest'' h
  have hexponent := exponent_le rest' rest'' h
  have hle := hsign c
  omega

theorem parseNumber_lt (data : Bytes) :
    Ensures (fun out => out.2.length < data.length) (parseNumber data) := by
  refine (scanNumber_lt data).bind fun rest hrest => ?_
  split
  · exact .error _
  · exact .error _
  split
  · exact .error _
  · exact .pure hrest

theorem scanLiteral_lt {s data : Bytes} (hs : s ≠ []) (hdata : data ≠ []) (v : Json Bytes) :
    Ensures (fun out => out.2.length < data.length) (scanLiteral s v data) := by
  have hdrop : (data.drop s.length).length < data.length := by
    have hpos := List.length_pos_of_ne_nil hs
    have hlen := List.length_pos_of_ne_nil hdata
    rw [List.length_drop]
    omega
  rw [scanLiteral, literal]
  by_cases h : data.take s.length = s
  · rw [if_pos h]
    exact .pure hdrop
  · rw [if_neg h]
    exact .error _

/-! ## Tokens -/

theorem scanToken_lt (c : UInt8) (rest : Bytes) :
    Ensures (fun out => out.2.length < (c :: rest).length) (scanToken c (c :: rest)) := by
  have hne : c :: rest ≠ [] := List.cons_ne_nil c rest
  have hpunct : ∀ tok : Token, Ensures (fun out => out.2.length < (c :: rest).length)
      (.ok (tok, (c :: rest).drop 1) : Scan (Token × Bytes)) :=
    fun tok => .pure (Nat.lt_succ_self _)
  have hliteral : ∀ (s : Bytes) v, s ≠ [] → Ensures (fun out => out.2.length < (c :: rest).length)
      (scanLiteral s v (c :: rest)) :=
    fun s v hs => scanLiteral_lt hs hne v
  rw [scanToken]
  refine .ite (hpunct _) (.ite (hpunct _) (.ite (hpunct _) ?_))
  refine .ite (hpunct _) (.ite (hpunct _) (.ite (hpunct _) ?_))
  refine .ite ?_ (.ite (hliteral _ _ ?_) (.ite (hliteral _ _ ?_) (.ite (hliteral _ _ ?_) (.ite ?_ ?_))))
  · exact (parseString_lt rest).bind fun out h => .pure (Nat.lt_succ_of_lt h)
  · exact List.cons_ne_nil _ _
  · exact List.cons_ne_nil _ _
  · exact List.cons_ne_nil _ _
  · exact (parseNumber_lt _).bind fun out h => .pure h
  · exact .error _

theorem tokenizeTurn_lt (s s' : List Token × Bytes) (h : tokenizeTurn s = .ok (.inr s')) :
    s'.2.length < s.2.length := by
  have hws : (skipWS s.2).length ≤ s.2.length := (List.dropWhile_sublist _).length_le
  rw [tokenizeTurn] at h
  cases hs : skipWS s.2 with
  | nil =>
      rw [hs] at h
      cases h
  | cons c rest =>
      rw [hs] at h hws
      obtain ⟨⟨tok, data⟩, hscan, hs'⟩ := bind_eq_ok_iff.mp h
      obtain rfl := Sum.inr.inj (Except.ok.inj hs')
      exact Nat.lt_of_lt_of_le (scanToken_lt c rest _ hscan) hws

/-- **The loop of `tokenize` ends**, with what the bounded loop returns. -/
theorem tokenize_runs (data : Bytes) (x : Scan (List Token × Bytes)) :
    Runs tokenizeTurn ([], data) x ↔ x = tokenize data :=
  runs_iff (fun n (s : List Token × Bytes) => tokenizeLoop n s.1 s.2) (fun s => s.2.length)
    tokenizeLoop_turn tokenizeTurn_lt (Nat.lt_succ_self _)

end SwarmPointer.Go.Value
