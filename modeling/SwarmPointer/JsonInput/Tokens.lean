import SwarmPointer.JsonInput.Language
import SwarmPointer.Python.JsonInput

/-!
# JSON input — white space, strings, numbers

The scanners of the parser against the leaves of the grammar. For each of
them one lemma says what it does on the text of a leaf, and one that every
text either starts with a leaf or makes it raise `JsonInputError`.

The scanners take the rest of the text and return the rest behind the token.
Nothing is assumed of what follows a string; a number ends where no character
follows that could continue it (`NumEnd`), which is what maximal munch needs.
`checkScalars` runs at the end of `_string`, after the escapes; a surrogate
that stays alone and a noncharacter are found there.
-/

namespace SwarmPointer.JsonInput

open JsonGrammar Python Python.JsonInput

/-! ## White space -/

theorem inWs_eq : inWs = isWs := rfl

/-- The text does not start with white space. -/
def NoWs (s : Str) : Prop := ∀ c ∈ s.head?, isWs c = false

theorem ws_noWs {s : Str} (h : NoWs s) : ws s = s := by
  cases s with
  | nil => rfl
  | cons c s =>
      rw [ws, inWs_eq, List.dropWhile_cons_of_neg]
      rw [h c rfl]
      exact Bool.false_ne_true

theorem ws_append (w : Ws) (s : Str) : ws (w.1 ++ s) = ws s := by
  exact List.dropWhile_append_of_pos w.2

theorem noWs_ws (s : Str) : NoWs (ws s) := by
  intro c hc
  have := List.head?_dropWhile_not inWs s
  rw [ws] at hc
  rw [Option.mem_def.mp hc] at this
  simpa [inWs_eq] using this

theorem ws_ws (s : Str) : ws (ws s) = ws s := ws_noWs (noWs_ws s)

theorem exists_ws (s : Str) : ∃ w : Ws, s = w.1 ++ ws s :=
  ⟨⟨s.takeWhile inWs, fun c hc => List.all_eq_true.mp List.all_takeWhile c hc⟩, List.takeWhile_append_dropWhile.symm⟩

/-! ## Escapes -/

theorem inHex_eq (c : Char) : inHex c = (hexVal c).isSome := by
  simp only [inHex, hexVal]
  split
  · rename_i h
    simp [h.1, h.2]
  · split
    · rename_i h
      simp [h.1, h.2]
    · split
      · rename_i h
        simp [h.1, h.2]
      · simp_all

theorem hexVal_getD (c : HexDigit) : (hexVal c.1).getD 0 = c.val :=
  (Option.get_eq_getD _).symm

theorem hex4_digits (a b c d : HexDigit) : hex4 a.1 b.1 c.1 d.1 = some (hexCode a b c d) := by
  have hall : [a.1, b.1, c.1, d.1].all inHex = true := by
    simp [inHex_eq, a.2, b.2, c.2, d.2]
  rw [hex4, if_pos hall]
  simp only [List.foldl_cons, List.foldl_nil, hexVal_getD, hexCode]
  congr 1
  omega

/-- Four characters are hexadecimal digits or no code. -/
theorem hex4_cases (a b c d : Char) :
    (∃ a' b' c' d' : HexDigit, a = a'.1 ∧ b = b'.1 ∧ c = c'.1 ∧ d = d'.1) ∨ hex4 a b c d = none := by
  by_cases h : [a, b, c, d].all inHex = true
  · simp only [List.all_cons, List.all_nil, inHex_eq, Bool.and_true, Bool.and_eq_true] at h
    exact .inl ⟨⟨a, h.1⟩, ⟨b, h.2.1⟩, ⟨c, h.2.2.1⟩, ⟨d, h.2.2.2⟩, rfl, rfl, rfl, rfl⟩
  · rw [hex4, if_neg h]
    exact .inr rfl

theorem shortEscape_letter (e : Short) : shortEscape e.letter = some e.char ∧ e.letter ≠ 'u' := by
  cases e <;> decide

theorem shortEscape_cases (e : Char) :
    (∃ e' : Short, e = e'.letter) ∨ shortEscape e = none := by
  by_cases h : ∃ e' : Short, e = e'.letter
  · exact .inl h
  · have hne : ∀ e' : Short, e ≠ e'.letter := fun e' he => h ⟨e', he⟩
    refine .inr ?_
    rw [shortEscape, if_neg (c := e = '"') (hne .quote), if_neg (c := e = '\\') (hne .backslash),
      if_neg (c := e = '/') (hne .slash), if_neg (c := e = 'b') (hne .b),
      if_neg (c := e = 'f') (hne .f), if_neg (c := e = 'n') (hne .n),
      if_neg (c := e = 'r') (hne .r), if_neg (c := e = 't') (hne .t)]

theorem noncharacter_eq (c : Char) : noncharacter c = decide (Noncharacter c) := by
  rw [Bool.eq_iff_iff, decide_eq_true_iff, noncharacter, Noncharacter]
  simp only [Bool.or_eq_true, Bool.and_eq_true, decide_eq_true_eq]
  omega

/-! ## Strings -/

theorem string_quote (chars rest : Str) :
    string chars ('"' :: rest) = (checkScalars chars).map fun _ => (chars, rest) := by
  rw [string.eq_def]
  exact if_pos rfl

theorem string_raw {c : Char} (h : 0x20 ≤ c.toNat ∧ c ≠ '"' ∧ c ≠ '\\') (chars rest : Str) :
    string chars (c :: rest) = string (chars ++ [c]) rest := by
  rw [string.eq_def]
  simp only [if_neg h.2.1, if_neg h.2.2, if_neg (show ¬ c.toNat ≤ 0x1F by omega)]

theorem string_short (e : Short) (chars rest : Str) :
    string chars ('\\' :: e.letter :: rest) = string (chars ++ [e.char]) rest := by
  obtain ⟨he, hu⟩ := shortEscape_letter e
  rw [string.eq_def]
  simp [if_neg hu, he]

/-- One `\u` escape, up to what follows a high surrogate. -/
theorem string_unicode (a b c d : HexDigit) (chars rest : Str) :
    string chars ('\\' :: 'u' :: a.1 :: b.1 :: c.1 :: d.1 :: rest) =
      if isHighCode (hexCode a b c d) then
        match rest with
        | x :: y :: s =>
            if x = '\\' ∧ y = 'u' then
              match s with
              | a' :: b' :: c' :: d' :: s =>
                  match hex4 a' b' c' d' with
                  | none => invalidJson
                  | some trail =>
                      if isLowCode trail then
                        chr (0x10000 + (hexCode a b c d - 0xD800) * 1024 + (trail - 0xDC00)) >>=
                          fun ch => string (chars ++ [ch]) s
                      else loneSurrogate
              | _ => invalidJson
            else loneSurrogate
        | _ => loneSurrogate
      else if isLowCode (hexCode a b c d) then loneSurrogate
      else chr (hexCode a b c d) >>= fun ch => string (chars ++ [ch]) rest := by
  rw [string.eq_def]
  simp only [hex4_digits, isHighCode, isLowCode, Bool.and_eq_true, decide_eq_true_eq, if_true]
  rfl

/-- A code that is no surrogate half is a character. -/
theorem chr_hexCode {a b c d : HexDigit} (hhi : isHighCode (hexCode a b c d) = false)
    (hlo : isLowCode (hexCode a b c d) = false) :
    chr (hexCode a b c d) = .ok (Char.ofNat (hexCode a b c d)) := by
  have hlt := hexCode_lt a b c d
  simp only [isHighCode, isLowCode, Bool.and_eq_false_iff, decide_eq_false_iff_not] at hhi hlo
  refine chr_eq ?_
  rw [Nat.isValidChar]
  omega

/-- A pair of surrogate halves is a character. -/
theorem chr_pair {hi lo : Nat} (hhi : isHighCode hi = true) (hlo : isLowCode lo = true) :
    chr (0x10000 + (hi - 0xD800) * 1024 + (lo - 0xDC00)) = .ok (pairChar hi lo) := by
  simp only [isHighCode, isLowCode, Bool.and_eq_true, decide_eq_true_eq] at hhi hlo
  refine chr_eq ?_
  rw [Nat.isValidChar]
  omega

theorem string_bmp {a b c d : HexDigit} (hhi : isHighCode (hexCode a b c d) = false)
    (hlo : isLowCode (hexCode a b c d) = false) (chars rest : Str) :
    string chars ('\\' :: 'u' :: a.1 :: b.1 :: c.1 :: d.1 :: rest) =
      string (chars ++ [Char.ofNat (hexCode a b c d)]) rest := by
  rw [string_unicode, hhi, hlo, chr_hexCode hhi hlo]
  rfl

theorem string_low {a b c d : HexDigit} (hhi : isHighCode (hexCode a b c d) = false)
    (hlo : isLowCode (hexCode a b c d) = true) (chars rest : Str) :
    string chars ('\\' :: 'u' :: a.1 :: b.1 :: c.1 :: d.1 :: rest) = loneSurrogate := by
  rw [string_unicode, hhi, hlo]
  rfl

/-- A high surrogate that no `\u` follows. -/
theorem string_lone {a b c d : HexDigit} (hhi : isHighCode (hexCode a b c d) = true)
    (chars : Str) {rest : Str} (hrest : ∀ s, rest ≠ '\\' :: 'u' :: s) :
    string chars ('\\' :: 'u' :: a.1 :: b.1 :: c.1 :: d.1 :: rest) = loneSurrogate := by
  rw [string_unicode, if_pos hhi]
  match rest with
  | [] => rfl
  | [_] => rfl
  | x :: y :: s =>
      have hxy : ¬ (x = '\\' ∧ y = 'u') := by
        rintro ⟨rfl, rfl⟩
        exact hrest s rfl
      exact if_neg hxy

theorem string_pair {a b c d : HexDigit} (hhi : isHighCode (hexCode a b c d) = true)
    (a' b' c' d' : HexDigit) (chars rest : Str) :
    string chars ('\\' :: 'u' :: a.1 :: b.1 :: c.1 :: d.1 ::
        '\\' :: 'u' :: a'.1 :: b'.1 :: c'.1 :: d'.1 :: rest) =
      if isLowCode (hexCode a' b' c' d') then
        string (chars ++ [pairChar (hexCode a b c d) (hexCode a' b' c' d')]) rest
      else loneSurrogate := by
  rw [string_unicode, if_pos hhi]
  simp only [hex4_digits, and_self, if_true]
  split
  · rename_i hlo
    rw [chr_pair hhi hlo]
    rfl
  · rfl

theorem piecesText_cons (p : Piece) (ps : List Piece) :
    piecesText (p :: ps) = p.text ++ piecesText ps := rfl

theorem decode_lone {a b c d : HexDigit} {ps : List Piece}
    (hhi : isHighCode (hexCode a b c d) = true)
    (hps : ∀ a' b' c' d' ps', ps = .unicode a' b' c' d' :: ps' → False) :
    decode (.unicode a b c d :: ps) = none := by
  rw [decode, if_pos hhi]
  exact hps

theorem decode_low {a b c d : HexDigit} {ps : List Piece}
    (hhi : ¬ isHighCode (hexCode a b c d) = true) (hlo : isLowCode (hexCode a b c d) = true) :
    decode (.unicode a b c d :: ps) = none := by
  rw [decode.eq_def]
  simp only [if_neg hhi, if_pos hlo]

theorem decode_bmp {a b c d : HexDigit} {ps : List Piece}
    (hhi : ¬ isHighCode (hexCode a b c d) = true) (hlo : ¬ isLowCode (hexCode a b c d) = true) :
    decode (.unicode a b c d :: ps) = (decode ps).map (Char.ofNat (hexCode a b c d) :: ·) := by
  rw [decode.eq_def]
  simp only [if_neg hhi, if_neg hlo]

/-- `_string` on `s` adds to `chars` what `o` holds and stops before `rest`,
or it raises and `o` is none. -/
def Scans (o : Option Str) (chars rest s : Str) : Prop :=
  (∃ cs, o = some cs ∧ string chars s =
      (checkScalars (chars ++ cs)).map fun _ => (chars ++ cs, rest)) ∨
    o = none ∧ ∃ r, string chars s = .error (.jsonInputError r)

theorem Scans.push {o : Option Str} {chars rest s s' : Str} {c : Char}
    (heq : string chars s' = string (chars ++ [c]) s) (h : Scans o (chars ++ [c]) rest s) :
    Scans (o.map (c :: ·)) chars rest s' := by
  rcases h with ⟨cs, rfl, h⟩ | ⟨rfl, r, h⟩
  · refine .inl ⟨c :: cs, rfl, ?_⟩
    rw [heq, h, List.append_assoc, List.singleton_append]
  · exact .inr ⟨rfl, r, heq.trans h⟩

theorem Scans.lone {chars rest s : Str} (h : string chars s = loneSurrogate) :
    Scans none chars rest s :=
  .inr ⟨rfl, _, h⟩

/-- What `_string` does on a body of pieces and the closing quote. -/
theorem string_pieces (ps : List Piece) (chars rest : Str) :
    Scans (decode ps) chars rest (piecesText ps ++ '"' :: rest) := by
  induction ps using decode.induct generalizing chars with
  | case1 =>
      refine .inl ⟨[], rfl, ?_⟩
      rw [List.append_nil]
      exact string_quote chars rest
  | case2 c hc ps ih =>
      rw [decode, piecesText_cons, Piece.text]
      exact (ih _).push (string_raw hc chars _)
  | case3 e ps ih =>
      rw [decode, piecesText_cons, Piece.text]
      exact (ih _).push (string_short e chars _)
  | case4 a b c d hhi a' b' c' d' ps hlo ih =>
      rw [decode, if_pos hhi, if_pos hlo, piecesText_cons, piecesText_cons]
      refine (ih _).push ((string_pair hhi a' b' c' d' chars _).trans ?_)
      rw [if_pos hlo]
      rfl
  | case5 a b c d hhi a' b' c' d' ps hlo =>
      rw [decode, if_pos hhi, if_neg hlo, piecesText_cons, piecesText_cons]
      refine .lone ((string_pair hhi a' b' c' d' chars _).trans ?_)
      rw [if_neg hlo]
  | case6 a b c d ps hhi hps =>
      -- the text after the escape starts with another piece or the quote
      have hrest : ∀ s, piecesText ps ++ '"' :: rest ≠ '\\' :: 'u' :: s := by
        intro s h
        match ps with
        | [] => cases h
        | .raw c hc :: ps => exact hc.2.2 (List.cons.inj h).1
        | .short e :: ps => exact (shortEscape_letter e).2 (List.cons.inj (List.cons.inj h).2).1
        | .unicode a b c d :: ps => exact hps a b c d ps rfl
      rw [decode_lone hhi hps, piecesText_cons]
      exact .lone (string_lone hhi chars hrest)
  | case7 a b c d ps hhi hlo =>
      rw [decode_low hhi hlo, piecesText_cons]
      exact .lone (string_low (Bool.not_eq_true _ ▸ hhi) hlo chars _)
  | case8 a b c d ps hhi hlo ih =>
      rw [decode_bmp hhi hlo, piecesText_cons]
      exact (ih _).push (string_bmp (Bool.not_eq_true _ ▸ hhi) (Bool.not_eq_true _ ▸ hlo) chars _)

/-- The text does not start with four hexadecimal digits. -/
def NoHex (s : Str) : Prop :=
  ∀ (a b c d : HexDigit) (s' : Str), s ≠ a.1 :: b.1 :: c.1 :: d.1 :: s'

theorem NoHex.hex4 {a b c d : Char} {s : Str} (h : NoHex (a :: b :: c :: d :: s)) :
    hex4 a b c d = none := by
  rcases hex4_cases a b c d with ⟨a', b', c', d', rfl, rfl, rfl, rfl⟩ | hnone
  · exact absurd rfl (h a' b' c' d' s)
  · exact hnone

/-- An escape without four hexadecimal digits. -/
theorem string_noHex (chars : Str) {s : Str} (h : NoHex s) :
    string chars ('\\' :: 'u' :: s) = invalidJson := by
  rw [string.eq_def]
  rcases s with - | ⟨a, - | ⟨b, - | ⟨c, - | ⟨d, s⟩⟩⟩⟩
  · rfl
  · rfl
  · rfl
  · rfl
  · simp [h.hex4]

/-- A high surrogate and a `\u` without four hexadecimal digits. -/
theorem string_noTrail {a b c d : HexDigit} (hhi : isHighCode (hexCode a b c d) = true)
    (chars : Str) {s : Str} (h : NoHex s) :
    string chars ('\\' :: 'u' :: a.1 :: b.1 :: c.1 :: d.1 :: '\\' :: 'u' :: s) =
      invalidJson := by
  rw [string_unicode, if_pos hhi]
  simp only [and_self, if_true]
  match s with
  | [] => rfl
  | [_] => rfl
  | [_, _] => rfl
  | [_, _, _] => rfl
  | a :: b :: c :: d :: s => simp only [h.hex4]

/-- `s` starts with the body of a string and its quote, or `_string` raises. -/
def Bodied (chars s : Str) : Prop :=
  (∃ ps rest, s = piecesText ps ++ '"' :: rest) ∨ ∃ r, string chars s = .error (.jsonInputError r)

theorem Bodied.push {chars chars' s s' : Str} (qs : List Piece) (hs : s' = piecesText qs ++ s)
    (heq : string chars s' = string chars' s) (h : Bodied chars' s) : Bodied chars s' := by
  rcases h with ⟨ps, rest, rfl⟩ | ⟨r, h⟩
  · refine .inl ⟨qs ++ ps, rest, ?_⟩
    rw [hs, piecesText, piecesText, piecesText, List.flatMap_append, List.append_assoc]
  · exact .inr ⟨r, heq.trans h⟩

theorem Bodied.raises {chars s : Str} {r : JsonReason}
    (h : string chars s = .error (.jsonInputError r)) : Bodied chars s :=
  .inr ⟨r, h⟩

/-- The escapes, given every shorter text. -/
theorem bodied_escape (chars s : Str)
    (next : ∀ s' chars', s'.length ≤ s.length → Bodied chars' s') : Bodied chars ('\\' :: s) := by
  match s with
  | [] => exact .raises (r := .invalidJson) (by rw [string.eq_def]; rfl)
  | e :: s =>
      by_cases hu : e = 'u'
      · subst hu
        by_cases hhex : NoHex s
        · exact .raises (string_noHex chars hhex)
        simp only [NoHex, not_forall, not_not] at hhex
        obtain ⟨a, b, c, d, s, rfl⟩ := hhex
        simp only [List.length_cons] at next
        cases hhi : isHighCode (hexCode a b c d) with
        | false =>
            cases hlo : isLowCode (hexCode a b c d) with
            | false =>
                exact (next s _ (by omega)).push [.unicode a b c d] rfl
                  (string_bmp hhi hlo chars s)
            | true => exact .raises (string_low hhi hlo chars s)
        | true =>
            -- only a second escape continues
            by_cases hesc : ∀ s', s ≠ '\\' :: 'u' :: s'
            · exact .raises (string_lone hhi chars hesc)
            simp only [not_forall, not_not] at hesc
            obtain ⟨s, rfl⟩ := hesc
            by_cases hhex : NoHex s
            · exact .raises (string_noTrail hhi chars hhex)
            simp only [NoHex, not_forall, not_not] at hhex
            obtain ⟨a', b', c', d', s, rfl⟩ := hhex
            simp only [List.length_cons] at next
            have hpair := string_pair hhi a' b' c' d' chars s
            cases hlo : isLowCode (hexCode a' b' c' d') with
            | false =>
                rw [hlo] at hpair
                exact .raises hpair
            | true =>
                rw [hlo] at hpair
                exact (next s _ (by omega)).push [.unicode a b c d, .unicode a' b' c' d'] rfl hpair
      · rcases shortEscape_cases e with ⟨e, rfl⟩ | hnone
        · exact (next s _ (Nat.le_succ _)).push [.short e] rfl (string_short e chars s)
        · refine .raises (r := .invalidJson) ?_
          rw [string.eq_def]
          simp [hu, hnone, invalidJson]

/-- Every text starts with the body of a string, or `_string` raises. -/
theorem string_cases (chars s : Str) : Bodied chars s := by
  induction hn : s.length using Nat.strong_induction_on generalizing s chars with
  | _ n ih =>
      subst hn
      match s with
      | [] => exact .raises (r := .invalidJson) (string_nil chars)
      | c :: s =>
          have next : ∀ s' chars', s'.length ≤ s.length → Bodied chars' s' :=
            fun s' chars' hle => ih _ (Nat.lt_succ_of_le hle) chars' s' rfl
          by_cases hq : c = '"'
          · exact .inl ⟨[], s, by rw [hq]; rfl⟩
          by_cases hb : c = '\\'
          · rw [hb]
            exact bodied_escape chars s next
          by_cases hc : c.toNat ≤ 0x1F
          · refine .raises (r := .invalidJson) ?_
            rw [string.eq_def]
            simp only [if_neg hq, if_neg hb, if_pos hc]
            rfl
          · have hraw : 0x20 ≤ c.toNat ∧ c ≠ '"' ∧ c ≠ '\\' := ⟨by omega, hq, hb⟩
            exact (next s _ le_rfl).push [.raw c hraw] rfl (string_raw hraw chars s)

theorem checkScalars_eq (s : Str) :
    checkScalars s = if s.all (fun c => ¬ Noncharacter c) then .ok ()
      else .error (.jsonInputError .noncharacter) := by
  have hany : s.any noncharacter = !s.all fun c => ¬ Noncharacter c := by
    rw [List.not_all_eq_any_not]
    congr 1
    funext c
    simp [noncharacter_eq]
  rw [checkScalars, hany]
  cases s.all fun c => ¬ Noncharacter c <;> rfl

/-- `_string` returns the string read, or raises when there is none. -/
theorem string_read (ps : List Piece) (rest : Str) :
    (∃ cs, readString ps = some cs ∧ string [] (piecesText ps ++ '"' :: rest) = .ok (cs, rest)) ∨
      readString ps = none ∧
        ∃ r, string [] (piecesText ps ++ '"' :: rest) = .error (.jsonInputError r) := by
  rw [readString]
  rcases string_pieces ps [] rest with ⟨cs, hdec, h⟩ | ⟨hdec, h⟩
  · rw [hdec, h, List.nil_append, checkScalars_eq, Option.filter_some]
    split
    · exact .inl ⟨cs, rfl, rfl⟩
    · exact .inr ⟨rfl, _, rfl⟩
  · rw [hdec]
    exact .inr ⟨rfl, h⟩

/-! ## Numbers -/

/-- Text that cannot continue a number token. -/
def NumEnd (s : Str) : Prop :=
  ∀ c ∈ s.head?, isDigit c = false ∧ c ≠ '.' ∧ c ≠ 'e' ∧ c ≠ 'E'

/-- The text does not start with a digit. -/
def NoDigit (s : Str) : Prop := ∀ c ∈ s.head?, isDigit c = false

theorem digits_run (ds : Digits) {rest : Str} (h : NoDigit rest) :
    (ds.1 ++ rest).takeWhile isDigit = ds.1 ∧ (ds.1 ++ rest).dropWhile isDigit = rest :=
  takeWhile_digits rest ds.2.2 fun c _ hc => h c (by rw [hc]; rfl)

theorem digits_cons (ds : Digits) : ∃ d s, ds.1 = d :: s ∧ isDigit d = true := by
  obtain ⟨ds, hne, hds⟩ := ds
  cases ds with
  | nil => exact absurd rfl hne
  | cons d s => exact ⟨d, s, rfl, hds d (List.mem_cons_self ..)⟩

theorem digitRun_digits (ds : Digits) {rest : Str} (h : NoDigit rest) :
    digitRun (ds.1 ++ rest) = .ok rest := by
  obtain ⟨d, s, hds, hd⟩ := digits_cons ds
  have hrun := (digits_run ds h).2
  rw [hds] at hrun ⊢
  rw [List.cons_append] at hrun ⊢
  simp only [digitRun, hd, if_true, hrun]

/-- A run of digits, or `digitRun` raises. -/
theorem digitRun_cases (s : Str) :
    (∃ (ds : Digits) (rest : Str), s = ds.1 ++ rest ∧ NoDigit rest) ∨ digitRun s = invalidJson := by
  cases s with
  | nil => exact .inr rfl
  | cons c s =>
      cases hc : isDigit c with
      | false => exact .inr (by simp only [digitRun, hc]; rfl)
      | true =>
          refine .inl ⟨⟨(c :: s).takeWhile isDigit, ?_, ?_⟩, (c :: s).dropWhile isDigit,
            List.takeWhile_append_dropWhile.symm, ?_⟩
          · rw [List.takeWhile_cons_of_pos hc]
            exact List.cons_ne_nil _ _
          · exact fun c hc => List.all_eq_true.mp List.all_takeWhile c hc
          · intro d hd
            have := List.head?_dropWhile_not isDigit (c :: s)
            rw [Option.mem_def.mp hd] at this
            simpa using this

theorem integerPart_int {int : Digits} (lead : int.1 = ['0'] ∨ int.1.head? ≠ some '0')
    {rest : Str} (h : NoDigit rest) : integerPart (int.1 ++ rest) = .ok rest := by
  rcases lead with h0 | hne
  · rw [h0]
    rfl
  · obtain ⟨d, s, hds, hd⟩ := digits_cons int
    have hrun := (digits_run int h).2
    have hd0 : d ≠ '0' := by
      rintro rfl
      exact hne (by rw [hds]; rfl)
    rw [hds] at hrun ⊢
    rw [List.cons_append] at hrun ⊢
    simp only [integerPart, hd, Bool.not_true, Bool.false_eq_true, if_false, if_neg hd0, hrun]

theorem integerPart_cases (s : Str) :
    (∃ (int : Digits) (rest : Str), (int.1 = ['0'] ∨ int.1.head? ≠ some '0') ∧
        s = int.1 ++ rest ∧ integerPart s = .ok rest) ∨ integerPart s = invalidJson := by
  rcases digitRun_cases s with ⟨ds, rest, rfl, hrest⟩ | herr
  · by_cases hlead : ds.1.head? = some '0'
    · obtain ⟨d, s, hds, -⟩ := digits_cons ds
      rw [hds, List.head?_cons, Option.some_inj] at hlead
      subst hlead
      rw [hds]
      exact .inl ⟨.zero, s ++ rest, .inl rfl, rfl, rfl⟩
    · exact .inl ⟨ds, rest, .inr hlead, rfl, integerPart_int (.inr hlead) hrest⟩
  · refine .inr ?_
    match s with
    | [] => rfl
    | c :: s =>
        cases hc : isDigit c with
        | false => simp only [integerPart, hc, Bool.not_false, if_true]
        | true =>
            simp only [digitRun, hc, if_true, invalidJson] at herr
            cases herr

theorem fractionPart_frac (frac : Option Digits) {rest : Str} (h : NoDigit rest)
    (hdot : rest.head? ≠ some '.') : fractionPart (fracText frac ++ rest) = .ok rest := by
  cases frac with
  | none => exact if_neg hdot
  | some ds => exact (if_pos rfl).trans (digitRun_digits ds h)

theorem fractionPart_cases (s : Str) :
    (∃ (frac : Option Digits) (rest : Str), s = fracText frac ++ rest ∧
        fractionPart s = .ok rest) ∨ fractionPart s = invalidJson := by
  by_cases hdot : s.head? = some '.'
  · obtain ⟨s, rfl⟩ := List.head?_eq_some_iff.mp hdot
    have hpart : fractionPart ('.' :: s) = digitRun s := if_pos rfl
    rw [hpart]
    rcases digitRun_cases s with ⟨ds, rest, rfl, hrest⟩ | herr
    · exact .inl ⟨some ds, rest, rfl, digitRun_digits ds hrest⟩
    · exact .inr herr
  · exact .inl ⟨none, s, rfl, if_neg hdot⟩

theorem skipSign_noDigit {s : Str} (h : s.head? ≠ some '+') (h' : s.head? ≠ some '-') :
    skipSign s = s := by
  rw [skipSign]
  · rintro s' rfl
    exact h rfl
  · rintro s' rfl
    exact h' rfl

theorem skipSign_text (sign : Sign) (ds : Digits) (rest : Str) :
    skipSign (sign.text ++ ds.1 ++ rest) = ds.1 ++ rest := by
  cases sign with
  | none =>
      obtain ⟨d, s, hds, hd⟩ := digits_cons ds
      rw [Sign.text, List.nil_append, hds, List.cons_append]
      exact skipSign_digit hd
  | plus => rfl
  | minus => rfl

theorem skipSign_cases (s : Str) : ∃ sign : Sign, s = sign.text ++ skipSign s := by
  match s with
  | [] => exact ⟨.none, rfl⟩
  | c :: s =>
      by_cases hp : c = '+'
      · exact ⟨.plus, by rw [hp]; rfl⟩
      by_cases hm : c = '-'
      · exact ⟨.minus, by rw [hm]; rfl⟩
      · refine ⟨.none, ?_⟩
        rw [skipSign_noDigit]
        · rfl
        · exact fun h => hp (Option.some.inj h)
        · exact fun h => hm (Option.some.inj h)

theorem exponentPart_text (e : Exponent) (rest : Str) :
    exponentPart (e.text ++ rest) = digitRun (e.digits.1 ++ rest) := by
  rw [← skipSign_text e.sign e.digits rest, Exponent.text]
  cases e.capital with
  | false => exact if_pos (.inl rfl)
  | true => exact if_pos (.inr rfl)

theorem exponentPart_exp (exp : Option Exponent) {rest : Str} (h : NumEnd rest) :
    exponentPart (expText exp ++ rest) = .ok rest := by
  cases exp with
  | none =>
      have hne : ¬ (rest.head? = some 'e' ∨ rest.head? = some 'E') := by
        rintro (he | he)
        · exact (h _ he).2.2.1 rfl
        · exact (h _ he).2.2.2 rfl
      exact if_neg hne
  | some e => exact (exponentPart_text e rest).trans (digitRun_digits _ fun c hc => (h c hc).1)

theorem exponentPart_cases (s : Str) :
    (∃ (exp : Option Exponent) (rest : Str), s = expText exp ++ rest ∧
        exponentPart s = .ok rest) ∨ exponentPart s = invalidJson := by
  by_cases he : s.head? = some 'e' ∨ s.head? = some 'E'
  · have hpart : exponentPart s = digitRun (skipSign (s.drop 1)) := if_pos he
    obtain ⟨capital, hcap⟩ : ∃ capital : Bool, s = (if capital then 'E' else 'e') :: s.drop 1 := by
      rcases he with he | he
      · obtain ⟨s, rfl⟩ := List.head?_eq_some_iff.mp he
        exact ⟨false, rfl⟩
      · obtain ⟨s, rfl⟩ := List.head?_eq_some_iff.mp he
        exact ⟨true, rfl⟩
    rcases digitRun_cases (skipSign (s.drop 1)) with ⟨ds, rest, hds, hrest⟩ | herr
    · obtain ⟨sign, hsign⟩ := skipSign_cases (s.drop 1)
      refine .inl ⟨some ⟨capital, sign, ds⟩, rest, ?_, ?_⟩
      · rw [hcap, hsign, hds]
        simp [expText, Exponent.text]
      · rw [hpart, hds, digitRun_digits ds hrest]
    · exact .inr (hpart.trans herr)
  · exact .inl ⟨none, s, rfl, if_neg he⟩

theorem expText_noDigit (exp : Option Exponent) {rest : Str} (h : NumEnd rest) :
    NoDigit (expText exp ++ rest) ∧ (expText exp ++ rest).head? ≠ some '.' := by
  cases exp with
  | none => exact ⟨fun c hc => (h c hc).1, fun hc => (h _ hc).2.1 rfl⟩
  | some e =>
      have hcap : ∀ b : Bool, isDigit (if b then 'E' else 'e') = false ∧
          (if b then 'E' else 'e') ≠ '.' := by decide
      refine ⟨fun c hc => ?_, fun hc => (hcap e.capital).2 (Option.some.inj hc)⟩
      rw [← Option.some.inj hc]
      exact (hcap e.capital).1

theorem fracText_noDigit (frac : Option Digits) {rest : Str} (h : NoDigit rest) :
    NoDigit (fracText frac ++ rest) := by
  cases frac with
  | none => exact h
  | some ds =>
      intro c hc
      rw [← Option.some.inj hc]
      decide

/-- The sign of a number token, skipped. -/
theorem text_unsigned (x : Number) (rest : Str) :
    (if (x.text ++ rest).head? = some '-' then (x.text ++ rest).drop 1 else x.text ++ rest) =
      x.int.1 ++ (fracText x.frac ++ (expText x.exp ++ rest)) := by
  obtain ⟨d, s, hds, hd⟩ := digits_cons x.int
  have hminus : d ≠ '-' := digit_ne hd (by decide)
  rw [Number.text, hds]
  cases x.neg <;> simp [hminus]

theorem scanNumber_text (x : Number) {rest : Str} (h : NumEnd rest) :
    scanNumber (x.text ++ rest) = .ok rest := by
  obtain ⟨hexp, hdot⟩ := expText_noDigit x.exp h
  rw [scanNumber, text_unsigned, integerPart_int x.lead (fracText_noDigit x.frac hexp)]
  simp only [bind, Except.bind, fractionPart_frac x.frac hexp hdot, exponentPart_exp x.exp h]

/-- Every text starts with a number token, or `_number` raises. -/
theorem scanNumber_cases (s : Str) :
    (∃ (x : Number) (rest : Str), s = x.text ++ rest ∧ scanNumber s = .ok rest) ∨
      scanNumber s = invalidJson := by
  obtain ⟨neg, hneg⟩ : ∃ neg : Bool, s = (if neg then ['-'] else []) ++
      (if s.head? = some '-' then s.drop 1 else s) := by
    by_cases h : s.head? = some '-'
    · obtain ⟨s, rfl⟩ := List.head?_eq_some_iff.mp h
      exact ⟨true, rfl⟩
    · exact ⟨false, by rw [if_neg h]; rfl⟩
  rw [scanNumber]
  generalize (if s.head? = some '-' then s.drop 1 else s) = i at hneg ⊢
  rcases integerPart_cases i with ⟨int, i, lead, rfl, hint⟩ | herr
  · rw [hint]
    rcases fractionPart_cases i with ⟨frac, i, rfl, hfrac⟩ | herr
    · simp only [bind, Except.bind, hfrac]
      rcases exponentPart_cases i with ⟨exp, rest, rfl, hexp⟩ | herr
      · refine .inl ⟨⟨neg, int, lead, frac, exp⟩, rest, ?_, hexp⟩
        rw [hneg, Number.text]
        simp
      · exact .inr herr
    · simp only [bind, Except.bind, herr]
      exact .inr rfl
  · rw [herr]
    exact .inr rfl

theorem intValue_text (sign : Sign) (ds : Digits) :
    intValue (sign.text ++ ds.1) = (⟨false, sign, ds⟩ : Exponent).value := by
  obtain ⟨d, s, hds, hd⟩ := digits_cons ds
  cases sign with
  | none =>
      have hp : d ≠ '+' := digit_ne hd (by decide)
      have hm : d ≠ '-' := digit_ne hd (by decide)
      simp only [Sign.text, List.nil_append, Exponent.value, digitsValue, hds]
      rw [intValue]
      · intro s h
        exact hp (List.cons.inj h).1
      · intro s h
        exact hm (List.cons.inj h).1
  | plus => rfl
  | minus => rfl

theorem floatExponent_expText (exp : Option Exponent) :
    floatExponent (expText exp) = some (exp.elim 0 Exponent.value) := by
  cases exp with
  | none => rfl
  | some e =>
      have hskip : skipSign (e.sign.text ++ e.digits.1) = e.digits.1 := by
        have h := skipSign_text e.sign e.digits []
        rwa [List.append_nil, List.append_nil] at h
      have hcap : ∀ b : Bool, (if b then 'E' else 'e') = 'e' ∨ (if b then 'E' else 'e') = 'E' := by
        decide
      have hall : e.digits.1.all isDigit = true := List.all_eq_true.mpr e.digits.2.2
      simp only [expText, Option.elim_some, Exponent.text, floatExponent, hskip]
      rw [if_pos ⟨hcap _, e.digits.2.1, hall⟩, intValue_text]
      rfl

theorem text_neg (x : Number) : x.text.head? = some '-' ↔ x.neg = true := by
  obtain ⟨d, s, hds, hd⟩ := digits_cons x.int
  have hminus : d ≠ '-' := digit_ne hd (by decide)
  rw [Number.text, hds]
  cases x.neg <;> simp [hminus]

/-- `float` on a number token is its value, correctly rounded. -/
theorem float_text (x : Number) : float x.text = .ok (numberValue x) := by
  have hend : NumEnd [] := nofun
  obtain ⟨hexp, hdot⟩ := expText_noDigit x.exp hend
  rw [List.append_nil] at hexp hdot
  have hskip : skipSign x.text = x.int.1 ++ (fracText x.frac ++ expText x.exp) := by
    have h := skipSign_text (if x.neg then .minus else .none) x.int (fracText x.frac ++ expText x.exp)
    rw [← h, Number.text]
    cases x.neg <;> simp [Sign.text]
  obtain ⟨htake, hdrop⟩ := digits_run x.int (fracText_noDigit x.frac hexp)
  have hne : ∀ frac : Str, x.int.1 ++ frac ≠ [] := fun frac h =>
    x.int.2.1 (List.append_eq_nil_iff.mp h).1
  rw [float]
  simp only [text_neg, hskip, htake, hdrop]
  cases hfrac : x.frac with
  | none =>
      have hfrac' : fracText (none : Option Digits) ++ expText x.exp = expText x.exp := rfl
      rw [hfrac', if_neg hdot, if_neg hdot, floatExponent_expText]
      simp only [if_neg (hne []), numberValue_eq, Number.decimal, hfrac, digitsValue,
        Option.elim_none, Bool.decide_eq_true]
  | some ds =>
      obtain ⟨htake', hdrop'⟩ := digits_run ds hexp
      have hhead : (fracText (some ds) ++ expText x.exp).head? = some '.' := rfl
      have htail : (fracText (some ds) ++ expText x.exp).drop 1 = ds.1 ++ expText x.exp := rfl
      rw [if_pos hhead, if_pos hhead, htail, htake', hdrop', floatExponent_expText]
      simp only [if_neg (hne ds.1), numberValue_eq, Number.decimal, hfrac, digitsValue,
        Option.elim_some, Bool.decide_eq_true]

theorem number_of_float {s rest token : Str} {o : Option Binary64} (hscan : scanNumber s = .ok rest)
    (htoken : s.take (s.length - rest.length) = token) (hfloat : float token = .ok o) :
    number s = o.elim (.error (.jsonInputError .nonFiniteNumber)) fun value =>
      if value.mag = 0 ∧ token.head? = some '-' then .error (.jsonInputError .negativeZero)
      else .ok (value, rest) := by
  rw [number, hscan]
  simp only [bind, Except.bind, htoken, hfloat]
  clear hfloat
  cases o <;> rfl

/-- `_number` on a token it scans returns the number read, or raises. -/
theorem number_read (x : Number) {rest : Str} (h : scanNumber (x.text ++ rest) = .ok rest) :
    (∃ y, readNumber x = some y ∧ number (x.text ++ rest) = .ok (y, rest)) ∨
      readNumber x = none ∧ ∃ r, number (x.text ++ rest) = .error (.jsonInputError r) := by
  have htoken : (x.text ++ rest).take ((x.text ++ rest).length - rest.length) = x.text := by
    rw [List.length_append, Nat.add_sub_cancel, List.take_left]
  rw [number_of_float h htoken (float_text x), readNumber]
  generalize numberValue x = o
  cases o with
  | none => exact .inr ⟨rfl, _, rfl⟩
  | some y =>
      simp only [text_neg, Option.filter_some, Option.elim_some]
      by_cases hz : y.mag = 0 ∧ x.neg = true
      · have hno : ¬ (x.neg = true → y.mag ≠ 0) := fun himp => himp hz.2 hz.1
        rw [if_pos hz, if_neg (mt of_decide_eq_true hno)]
        exact .inr ⟨rfl, _, rfl⟩
      · have hyes : x.neg = true → y.mag ≠ 0 := fun hn hm => hz ⟨hm, hn⟩
        rw [if_neg hz, if_pos (decide_eq_true hyes)]
        exact .inl ⟨y, rfl, rfl⟩

end SwarmPointer.JsonInput
