import SwarmPointer.Go.Turns
import SwarmPointer.JsonInput.GoScanner
import SwarmPointer.JsonInput.RoundTrip

/-!
# JSON input — the Go parser is the Python parser

Go splits the whole input into tokens and then runs a machine of eight phases
over them; Python runs one machine over the text. The two are in step: at a
token boundary the Go frames are those of Python with the names seen so far,
and what follows leads both to one value or both to an error.

`Related` says when the two are in the same place, phase by phase. Between
tokens Go is never inside white space and Python may be, so the relation looks
at the text after its white space. Agreement is on the value or on the fact of
an error; the reasons the two report are not compared.
-/

namespace SwarmPointer.JsonInput

open JsonGrammar Python Python.JsonInput Unicode
open Go.Value (Token Builder ObjPhase ArrPhase buildStep valueToken keyToken complete finish scanToken
  tokenizeLoop)

/-! ## Running the two machines -/

/-- A value with its strings encoded. -/
abbrev tree (v : Json Str) : Json Bytes := v.map utf8

/-- The Python machine ends with `u`. -/
def Yields (x : Py (State ⊕ Json Str)) (u : Json Str) : Prop := ∃ n, Ends n x u

/-- Both machines arrive at one value, or neither arrives and Go has an error. -/
def Agree (x : Py (State ⊕ Json Str)) (y : Go.Scan (Json Bytes)) : Prop :=
  (∃ u, Yields x u ∧ y = .ok (tree u)) ∨ (∀ u, ¬ Yields x u) ∧ ∃ e, y = .error (.err e)

theorem not_yields_error (e : Exn) (u : Json Str) : ¬ Yields (.error e) u := by
  rintro ⟨n, h⟩
  exact not_ends_error h

theorem yields_step {σ : State} {u : Json Str} :
    Yields (.ok (.inl σ)) u ↔ Yields (step σ) u := by
  constructor
  · rintro ⟨n, h⟩
    obtain ⟨m, -, hm⟩ := h.step
    exact ⟨m, hm⟩
  · rintro ⟨m, hm⟩
    exact ⟨m + 1, hm⟩

theorem Agree.turn {σ : State} {y : Go.Scan (Json Bytes)} (h : Agree (step σ) y) :
    Agree (.ok (.inl σ)) y := by
  rcases h with ⟨u, hu, hy⟩ | ⟨hno, hy⟩
  · exact .inl ⟨u, yields_step.mpr hu, hy⟩
  · exact .inr ⟨fun u hu => hno u (yields_step.mp hu), hy⟩

theorem Agree.fail {x : Py (State ⊕ Json Str)} {y : Go.Scan (Json Bytes)}
    (hx : ∃ e, x = .error e) (hy : ∃ e, y = .error (.err e)) : Agree x y := by
  obtain ⟨e, rfl⟩ := hx
  exact .inr ⟨not_yields_error e, hy⟩

/-- Go from the tokens `toks` and the text `s` on. -/
def run (n : Nat) (toks : List Token) (s : Str) : Go.Scan (Json Bytes) :=
  tokenizeLoop n toks (utf8 s) >>= fun out => Go.Value.buildValue out.1

/-- The machine of `buildValue` after the tokens. -/
def built (toks : List Token) : Go.Scan Builder := toks.foldlM buildStep ⟨[], none⟩

theorem built_append (toks more : List Token) :
    built (toks ++ more) = built toks >>= fun b => more.foldlM buildStep b := List.foldlM_append

theorem built_snoc {toks : List Token} {b : Builder} (h : built toks = .ok b) (tok : Token) :
    built (toks ++ [tok]) = buildStep b tok := by
  rw [built_append, h, Except.ok_bind, List.foldlM_cons]
  cases buildStep b tok <;> rfl

/-- The rest of the input is tokenized, or it is an error. -/
theorem tokenizeLoop_cases (n : Nat) (toks : List Token) (s : Str) :
    (∃ more, tokenizeLoop n toks (utf8 s) = .ok (toks ++ more, [])) ∨
      ∃ e, tokenizeLoop n toks (utf8 s) = .error (.err e) := by
  induction n generalizing toks s with
  | zero => exact .inr ⟨_, rfl⟩
  | succ n ih =>
      rw [tokenizeLoop, skipWS_utf8]
      cases hws : ws s with
      | nil => exact .inl ⟨[], by rw [List.append_nil]; rfl⟩
      | cons c i =>
          obtain ⟨bs, hbs⟩ := utf8_cons_lead c i
          rw [hbs]
          dsimp only
          rw [← hbs]
          rcases scanToken_cases c i with ⟨e, he⟩ | ⟨tok, r, hok, -, -⟩
          · rw [he]
            exact .inr ⟨e, rfl⟩
          · rw [hok, Except.ok_bind]
            rcases ih (toks ++ [tok]) r with ⟨more, hmore⟩ | hmore
            · exact .inl ⟨tok :: more, by rw [hmore, List.append_assoc, List.singleton_append]⟩
            · exact .inr hmore

/-- A token that the machine refuses is refused whatever follows. -/
theorem run_stuck {toks : List Token} {e : Go.ParseError} (h : built toks = .error (.err e))
    (n : Nat) (s : Str) : ∃ e, run n toks s = .error (.err e) := by
  rcases tokenizeLoop_cases n toks s with ⟨more, hmore⟩ | ⟨e', he'⟩
  · have hbuilt : built (toks ++ more) = .error (.err e) := by
      rw [built_append, h]
      rfl
    refine ⟨e, ?_⟩
    rw [run, hmore, Except.ok_bind, Go.Value.buildValue]
    rw [built] at hbuilt
    rw [hbuilt]
    rfl
  · exact ⟨e', by rw [run, he']; rfl⟩

theorem run_end {n : Nat} {toks : List Token} {b : Builder} {s : Str} (hs : ws s = [])
    (h : built toks = .ok b) : run (n + 1) toks s = finish b := by
  rw [run, tokenizeLoop, skipWS_utf8, hs]
  dsimp only [utf8_nil]
  rw [Except.ok_bind, Go.Value.buildValue]
  rw [built] at h
  rw [h, Except.ok_bind]

theorem run_turn {n : Nat} {toks : List Token} {s : Str} {c : Char} {i : Str} (hs : ws s = c :: i) :
    run (n + 1) toks s = scanToken (lead c) (utf8 (c :: i)) >>= fun out =>
      tokenizeLoop n (toks ++ [out.1]) out.2 >>= fun out => Go.Value.buildValue out.1 := by
  obtain ⟨bs, hbs⟩ := utf8_cons_lead c i
  rw [run, tokenizeLoop, skipWS_utf8, hs, hbs]
  dsimp only
  cases scanToken (lead c) (lead c :: bs) <;> rfl

theorem run_token {n : Nat} {toks : List Token} {s : Str} {c : Char} {i r : Str} {tok : Token}
    (hs : ws s = c :: i) (h : scanToken (lead c) (utf8 (c :: i)) = .ok (tok, utf8 r)) :
    run (n + 1) toks s = run n (toks ++ [tok]) r := by
  rw [run_turn hs, h, Except.ok_bind, run]

theorem run_error {n : Nat} {toks : List Token} {s : Str} {c : Char} {i : Str} {e : Go.ParseError}
    (hs : ws s = c :: i) (h : scanToken (lead c) (utf8 (c :: i)) = .error (.err e)) :
    ∃ e, run (n + 1) toks s = .error (.err e) :=
  ⟨e, by rw [run_turn hs, h]; rfl⟩

/-- White space in front makes no difference. -/
theorem run_ws (n : Nat) (toks : List Token) (s : Str) : run (n + 1) toks (ws s) = run (n + 1) toks s := by
  rw [run, run, tokenizeLoop, tokenizeLoop, skipWS_utf8, skipWS_utf8, ws_ws]

/-! ## The relation -/

def goMembers (ms : Json.Members Str) : Json.Members Bytes := ms.map fun m => (utf8 m.1, tree m.2)

def goNames (ms : Json.Members Str) : List Bytes := ms.map fun m => utf8 m.1

theorem tree_obj (ms : Json.Members Str) : tree (.obj ms) = .obj (goMembers ms) :=
  congrArg Json.obj (Json.mapMembers_eq utf8 ms)

theorem tree_arr (vs : List (Json Str)) : tree (.arr vs) = .arr (vs.map tree) :=
  congrArg Json.arr (Json.mapList_eq utf8 vs)

theorem mem_goNames {ms : Json.Members Str} {k : Str} :
    utf8 k ∈ goNames ms ↔ k ∈ ms.map Prod.fst := by
  rw [goNames, List.mem_map, List.mem_map]
  constructor
  · rintro ⟨m, hm, heq⟩
    exact ⟨m, hm, utf8_inj heq⟩
  · rintro ⟨m, hm, rfl⟩
    exact ⟨m, hm, rfl⟩

/-- The Go frame of a container with an open child. -/
def waiting : Frame → Go.Value.Frame
  | .obj ms key =>
      .obj (goMembers ms) (goNames ms ++ [utf8 (key.getD [])]) .commaOrClose (utf8 (key.getD []))
  | .arr items => .arr (items.map tree) .commaOrClose

/-- Every open object has a name waiting for its value, a new one. -/
def Open (stack : List Frame) : Prop :=
  ∀ ms key, .obj ms key ∈ stack → ∃ k, key = some k ∧ k ∉ ms.map Prod.fst

theorem Open.tail {f : Frame} {stack : List Frame} (h : Open (f :: stack)) : Open stack :=
  fun ms key hm => h ms key (List.mem_cons_of_mem _ hm)

theorem Open.obj {ms : Json.Members Str} {k : Str} {stack : List Frame} (h : Open stack)
    (hk : k ∉ ms.map Prod.fst) : Open (.obj ms (some k) :: stack) := by
  intro ms' key hm
  rcases List.mem_cons.mp hm with heq | hm
  · obtain ⟨rfl, rfl⟩ := Frame.obj.inj heq
    exact ⟨k, rfl, hk⟩
  · exact h ms' key hm

theorem Open.arr {items : List (Json Str)} {stack : List Frame} (h : Open stack) :
    Open (.arr items :: stack) := by
  intro ms key hm
  rcases List.mem_cons.mp hm with heq | hm
  · cases heq
  · exact h ms key hm

/-- The frames with the innermost one marked as waiting. -/
def parents : List Go.Value.Frame → List Go.Value.Frame
  | [] => []
  | f :: stack => f.expect :: stack

theorem valueToken_eq (t : Token) (stack : List Go.Value.Frame) : valueToken t stack =
    match t with
    | .objOpen => .ok ⟨.newObj :: parents stack, none⟩
    | .arrOpen => .ok ⟨.newArr :: parents stack, none⟩
    | .scalar v => .ok (complete v (parents stack))
    | _ => Go.fail .invalidJSON := by
  cases stack with
  | nil => cases t <;> rfl
  | cons f stack => cases t <;> cases f <;> rfl

/-- The Go machine expects a value where Python is in its phase `_VALUE`. -/
structure Expecting (stack : List Frame) (s : Str) (b : Builder) : Prop where
  parents : parents b.stack = stack.map waiting
  step : ∀ c i tok, ws s = c :: i → Heads c tok → buildStep b tok = valueToken tok b.stack
  stop : finish b = Go.fail .invalidJSON
  opened : Open stack

/-- At a token boundary the two machines are in the same place. -/
def Related (σ : State) (b : Builder) : Prop :=
  match σ.phase with
  | .value => Expecting σ.stack σ.rest b
  | .key => ∃ ms key stack ph pend, σ.stack = .obj ms key :: stack ∧ Open stack ∧
      b = ⟨.obj (goMembers ms) (goNames ms) ph pend :: stack.map waiting, none⟩ ∧
      (ph = .keyOrClose ∨ ph = .key) ∧ σ.rest.head? = some '"'
  | .colon => ∃ ms k stack, σ.stack = .obj ms (some k) :: stack ∧ Open stack ∧
      k ∉ ms.map Prod.fst ∧
      b = ⟨.obj (goMembers ms) (goNames ms ++ [utf8 k]) .colon (utf8 k) :: stack.map waiting, none⟩
  | .objNext => ∃ ms key stack pend, σ.stack = .obj ms key :: stack ∧ Open stack ∧
      b = ⟨.obj (goMembers ms) (goNames ms) .commaOrClose pend :: stack.map waiting, none⟩
  | .arrNext => ∃ items stack, σ.stack = .arr items :: stack ∧ Open stack ∧
      b = ⟨.arr (items.map tree) .commaOrClose :: stack.map waiting, none⟩

/-- From related states the two machines agree, with fuel `n`. -/
def InStep (n : Nat) : Prop :=
  ∀ (σ : State) (b : Builder) (toks : List Token), Related σ b → built toks = .ok b →
    (utf8 σ.rest).length < n → Agree (.ok (.inl σ)) (run n toks σ.rest)

theorem ws_bytes_le (s : Str) : (utf8 (ws s)).length ≤ (utf8 s).length := by
  obtain ⟨w, hw⟩ := exists_ws s
  conv_rhs => rw [hw, utf8_append, List.length_append]
  exact Nat.le_add_left ..

/-- The text after the first character, white space in front aside. -/
theorem rest_bytes_lt {s i : Str} {c : Char} {n : Nat} (hs : ws s = c :: i)
    (hlen : (utf8 s).length < n + 1) : (utf8 i).length < n := by
  have hle := ws_bytes_le s
  have hlt : (utf8 i).length < (utf8 (c :: i)).length :=
    Remains.length ⟨[c], List.cons_ne_nil _ _, rfl⟩
  rw [hs] at hle
  omega

/-- Tokens of one character. -/
theorem scanToken_punctuation (i : Str) :
    scanToken (lead '\x7b') (utf8 ('\x7b' :: i)) = .ok (.objOpen, utf8 i) ∧
    scanToken (lead '\x7d') (utf8 ('\x7d' :: i)) = .ok (.objClose, utf8 i) ∧
    scanToken (lead '[') (utf8 ('[' :: i)) = .ok (.arrOpen, utf8 i) ∧
    scanToken (lead ']') (utf8 (']' :: i)) = .ok (.arrClose, utf8 i) ∧
    scanToken (lead ',') (utf8 (',' :: i)) = .ok (.comma, utf8 i) ∧
    scanToken (lead ':') (utf8 (':' :: i)) = .ok (.colon, utf8 i) := by
  have hdrop : ∀ c : Char, c.toNat < 0x80 → (utf8 (c :: i)).drop 1 = utf8 i :=
    fun c hc => drop_one_cons hc i
  refine ⟨?_, ?_, ?_, ?_, ?_, ?_⟩ <;> rw [scanToken_lead, hdrop _ (by decide)] <;> rfl

/-- Python raises, and Go refuses whatever token comes. -/
theorem refuse_agree {n : Nat} {x : Py (State ⊕ Json Str)} {toks : List Token} {b : Builder}
    {s : Str} (hx : ∃ e, x = .error e) (hbuilt : built toks = .ok b)
    (hstop : finish b = Go.fail .invalidJSON)
    (hrefuse : ∀ c i tok, ws s = c :: i → Heads c tok → buildStep b tok = Go.fail .invalidJSON) :
    Agree x (run (n + 1) toks s) := by
  refine .fail hx ?_
  cases hws : ws s with
  | nil => exact ⟨_, (run_end hws hbuilt).trans hstop⟩
  | cons c i =>
      rcases scanToken_cases c i with ⟨e, he⟩ | ⟨tok, r, hok, -, hheads⟩
      · exact run_error hws he
      · rw [run_token hws hok]
        exact run_stuck ((built_snoc hbuilt tok).trans (hrefuse c i tok hws hheads)) n r

/-! ## Values are delivered alike -/

theorem deliver_agree {n : Nat} (ih : InStep n) {i : Str} {v : Json Str} {stack : List Frame}
    {toks : List Token} (hopen : Open stack)
    (hbuilt : built toks = .ok (complete (tree v) (stack.map waiting)))
    (hlen : (utf8 i).length < n) : Agree (deliver i v stack) (run n toks i) := by
  match stack with
  | [] =>
      obtain ⟨m, rfl⟩ : ∃ m, n = m + 1 := ⟨n - 1, by omega⟩
      rw [deliver]
      cases hws : ws i with
      | nil =>
          rw [if_neg fun h => h rfl, run_end hws hbuilt]
          exact .inl ⟨v, ⟨0, rfl⟩, rfl⟩
      | cons c r =>
          -- the root is done, so one more token is an error
          rw [if_pos (List.cons_ne_nil c r)]
          refine .fail ⟨_, rfl⟩ ?_
          rcases scanToken_cases c r with ⟨e, he⟩ | ⟨tok, r', hok, -, -⟩
          · exact run_error hws he
          · rw [run_token hws hok]
            exact run_stuck (built_snoc hbuilt tok) m r'
  | .obj ms key :: stack =>
      obtain ⟨k, rfl, hk⟩ := hopen ms key (List.mem_cons_self ..)
      rw [deliver, if_neg hk]
      refine ih ⟨.objNext, i, _⟩ _ toks ?_ hbuilt hlen
      refine ⟨_, _, stack, [], rfl, hopen.tail, ?_⟩
      simp [complete, waiting, Go.Value.Frame.append, goMembers, goNames]
  | .arr items :: stack =>
      rw [deliver]
      refine ih ⟨.arrNext, i, _⟩ _ toks ?_ hbuilt hlen
      refine ⟨_, stack, rfl, hopen.tail, ?_⟩
      simp [complete, waiting, Go.Value.Frame.append]

/-- A scalar where a value is expected. -/
theorem scalar_agree {n : Nat} (ih : InStep n) {s : Str} {c : Char} {i r : Str} {v : Json Str}
    {stack : List Frame} {b : Builder} {toks : List Token} (hexp : Expecting stack s b)
    (hbuilt : built toks = .ok b) (hs : ws s = c :: i) (hrem : Remains (c :: i) r)
    (hheads : Heads c (.scalar (tree v))) (hlen : (utf8 s).length < n + 1)
    (hscan : scanToken (lead c) (utf8 (c :: i)) = .ok (.scalar (tree v), utf8 r)) :
    Agree (deliver r v stack) (run (n + 1) toks s) := by
  rw [run_token hs hscan]
  refine deliver_agree ih hexp.opened ?_ ?_
  · rw [built_snoc hbuilt, hexp.step c i _ hs hheads, valueToken_eq, hexp.parents]
  · have hle := ws_bytes_le s
    rw [hs] at hle
    have hlt := hrem.length
    omega

/-! ## Between values -/

theorem expecting_item {items : List (Json Str)} {stack : List Frame} (h : Open stack) (s : Str) :
    Expecting (.arr items :: stack) s ⟨.arr (items.map tree) .val :: stack.map waiting, none⟩ where
  parents := rfl
  step _ _ _ _ _ := rfl
  stop := rfl
  opened := h.arr

theorem expecting_member {ms : Json.Members Str} {k : Str} {stack : List Frame} (h : Open stack)
    (hk : k ∉ ms.map Prod.fst) (s : Str) : Expecting (.obj ms (some k) :: stack) s
      ⟨.obj (goMembers ms) (goNames ms ++ [utf8 k]) .value (utf8 k) :: stack.map waiting, none⟩ where
  parents := rfl
  step _ _ _ _ _ := rfl
  stop := rfl
  opened := h.obj hk

theorem pop_arr (i : Str) (items : List (Json Str)) (stack : List Frame) :
    pop i (.arr items :: stack) = deliver i (.arr items) stack := rfl

theorem pop_obj (i : Str) (ms : Json.Members Str) (key : Option Str) (stack : List Frame) :
    pop i (.obj ms key :: stack) = deliver i (.obj ms) stack := rfl

theorem heads_comma {c : Char} (h : Heads c .comma) : c = ',' := by
  cases h
  rfl

theorem heads_colon {c : Char} (h : Heads c .colon) : c = ':' := by
  cases h
  rfl

theorem heads_arrClose {c : Char} (h : Heads c .arrClose) : c = ']' := by
  cases h
  rfl

theorem heads_objClose {c : Char} (h : Heads c .objClose) : c = '\x7d' := by
  cases h
  rfl

theorem heads_scalar {c : Char} {v : Json Bytes} (h : Heads c (.scalar v)) :
    c ≠ '\x7d' ∧ c ≠ ']' ∧ c ≠ ',' ∧ c ≠ ':' := by
  cases h with
  | str => decide
  | other _ _ hc _ =>
      simp only [List.mem_cons, not_or] at hc
      exact ⟨hc.2.1, hc.2.2.2.1, hc.2.2.2.2.1, hc.2.2.2.2.2.1⟩

theorem heads_str {c : Char} {s : Bytes} (h : Heads c (.scalar (.str s))) : c = '"' := by
  cases h with
  | str => rfl
  | other _ _ _ hv => exact absurd rfl (hv s)

/-- The phase `_ARR_NEXT`. -/
theorem arrNext_agree {n : Nat} (ih : InStep n) {s : Str} {items : List (Json Str)}
    {stack : List Frame} {toks : List Token} (hopen : Open stack)
    (hbuilt : built toks = .ok ⟨.arr (items.map tree) .commaOrClose :: stack.map waiting, none⟩)
    (hlen : (utf8 s).length < n + 1) :
    Agree (arrNextStep s (.arr items :: stack)) (run (n + 1) toks s) := by
  rw [arrNextStep]
  cases hws : ws s with
  | nil => exact refuse_agree ⟨_, rfl⟩ hbuilt rfl fun c i tok hs => by simp [hws] at hs
  | cons c i =>
      obtain ⟨-, -, -, hclose, hcomma, -⟩ := scanToken_punctuation i
      have hi := rest_bytes_lt hws hlen
      dsimp only
      by_cases h1 : c = ','
      · subst h1
        rw [if_pos rfl, run_token hws hcomma]
        refine ih ⟨.value, i, _⟩ _ _ (expecting_item hopen i) ?_ hi
        rw [built_snoc hbuilt]
        rfl
      rw [if_neg h1]
      by_cases h2 : c = ']'
      · subst h2
        rw [if_pos rfl, run_token hws hclose, pop_arr]
        refine deliver_agree ih hopen ?_ hi
        rw [built_snoc hbuilt, tree_arr]
        rfl
      rw [if_neg h2]
      refine refuse_agree ⟨_, rfl⟩ hbuilt rfl fun d j tok hs hheads => ?_
      obtain ⟨rfl, rfl⟩ := List.cons.inj (hws.symm.trans hs)
      cases tok with
      | comma => exact absurd (heads_comma hheads) h1
      | arrClose => exact absurd (heads_arrClose hheads) h2
      | objOpen => rfl
      | objClose => rfl
      | arrOpen => rfl
      | colon => rfl
      | scalar v => rfl

/-- The phase `_COLON`. -/
theorem colon_agree {n : Nat} (ih : InStep n) {s : Str} {ms : Json.Members Str} {k : Str}
    {stack : List Frame} {toks : List Token} (hopen : Open stack) (hk : k ∉ ms.map Prod.fst)
    (hbuilt : built toks = .ok
      ⟨.obj (goMembers ms) (goNames ms ++ [utf8 k]) .colon (utf8 k) :: stack.map waiting, none⟩)
    (hlen : (utf8 s).length < n + 1) :
    Agree (colonStep s (.obj ms (some k) :: stack)) (run (n + 1) toks s) := by
  rw [colonStep]
  cases hws : ws s with
  | nil => exact refuse_agree ⟨_, rfl⟩ hbuilt rfl fun c i tok hs => by simp [hws] at hs
  | cons c i =>
      obtain ⟨-, -, -, -, -, hcolon⟩ := scanToken_punctuation i
      have hi := rest_bytes_lt hws hlen
      rw [List.head?_cons, List.drop_one, List.tail_cons]
      by_cases h1 : c = ':'
      · subst h1
        rw [if_pos rfl, run_token hws hcolon]
        refine ih ⟨.value, i, _⟩ _ _ (expecting_member hopen hk i) ?_ hi
        rw [built_snoc hbuilt]
        rfl
      rw [if_neg fun h => h1 (Option.some.inj h)]
      refine refuse_agree ⟨_, rfl⟩ hbuilt rfl fun d j tok hs hheads => ?_
      obtain ⟨rfl, rfl⟩ := List.cons.inj (hws.symm.trans hs)
      cases tok with
      | colon => exact absurd (heads_colon hheads) h1
      | comma => rfl
      | arrClose => rfl
      | objOpen => rfl
      | objClose => rfl
      | arrOpen => rfl
      | scalar v => rfl

/-- Where Go expects a name there is none: neither a string nor, where it may
close the object, a `}`. -/
theorem noKey_agree {n : Nat} {x : Py (State ⊕ Json Str)} {s : Str} (ms : Json.Members Str)
    {ph : ObjPhase} {pend : Bytes} {stack : List Go.Value.Frame} {toks : List Token}
    (hx : ∃ e, x = .error e) (hph : ph = .keyOrClose ∨ ph = .key)
    (hbuilt : built toks = .ok ⟨.obj (goMembers ms) (goNames ms) ph pend :: stack, none⟩)
    (hquote : (ws s).head? ≠ some '"') (hclose : ph = .keyOrClose → (ws s).head? ≠ some '\x7d') :
    Agree x (run (n + 1) toks s) := by
  refine refuse_agree hx hbuilt rfl fun c i tok hs hheads => ?_
  rw [hs] at hquote hclose
  have hstep : buildStep ⟨.obj (goMembers ms) (goNames ms) ph pend :: stack, none⟩ tok =
      keyToken tok (goMembers ms) (goNames ms) ph stack := by
    rcases hph with rfl | rfl <;> rfl
  rw [hstep]
  cases tok with
  | objClose =>
      refine if_neg fun h => hclose h ?_
      rw [heads_objClose hheads]
      rfl
  | scalar v =>
      cases v with
      | str s =>
          rw [heads_str hheads] at hquote
          exact absurd rfl hquote
      | null => rfl
      | bool _ => rfl
      | num _ => rfl
      | arr _ => rfl
      | obj _ => rfl
  | comma => rfl
  | colon => rfl
  | objOpen => rfl
  | arrOpen => rfl
  | arrClose => rfl

/-- The phase `_OBJ_NEXT`. -/
theorem objNext_agree {n : Nat} (ih : InStep n) {s : Str} {ms : Json.Members Str}
    {key : Option Str} {pend : Bytes} {stack : List Frame} {toks : List Token} (hopen : Open stack)
    (hbuilt : built toks = .ok
      ⟨.obj (goMembers ms) (goNames ms) .commaOrClose pend :: stack.map waiting, none⟩)
    (hlen : (utf8 s).length < n + 1) :
    Agree (objNextStep s (.obj ms key :: stack)) (run (n + 1) toks s) := by
  rw [objNextStep]
  cases hws : ws s with
  | nil => exact refuse_agree ⟨_, rfl⟩ hbuilt rfl fun c i tok hs => by simp [hws] at hs
  | cons c i =>
      obtain ⟨-, hclose, -, -, hcomma, -⟩ := scanToken_punctuation i
      have hi := rest_bytes_lt hws hlen
      dsimp only
      by_cases h1 : c = ','
      · subst h1
        obtain ⟨m, rfl⟩ : ∃ m, n = m + 1 := ⟨n - 1, by omega⟩
        have hbuilt' : built (toks ++ [.comma]) = .ok
            ⟨.obj (goMembers ms) (goNames ms) .key pend :: stack.map waiting, none⟩ := by
          rw [built_snoc hbuilt]
          rfl
        rw [if_pos rfl, run_token hws hcomma]
        by_cases hq : (ws i).head? = some '"'
        · rw [if_pos hq, ← run_ws]
          refine ih ⟨.key, ws i, _⟩ _ _ ?_ hbuilt' (Nat.lt_of_le_of_lt (ws_bytes_le i) hi)
          exact ⟨ms, key, stack, .key, pend, rfl, hopen, rfl, .inr rfl, hq⟩
        · rw [if_neg hq]
          exact noKey_agree _ ⟨_, rfl⟩ (.inr rfl) hbuilt' hq fun h => by cases h
      rw [if_neg h1]
      by_cases h2 : c = '\x7d'
      · subst h2
        rw [if_pos rfl, run_token hws hclose, pop_obj]
        refine deliver_agree ih hopen ?_ hi
        rw [built_snoc hbuilt, tree_obj]
        rfl
      rw [if_neg h2]
      refine refuse_agree ⟨_, rfl⟩ hbuilt rfl fun d j tok hs hheads => ?_
      obtain ⟨rfl, rfl⟩ := List.cons.inj (hws.symm.trans hs)
      cases tok with
      | comma => exact absurd (heads_comma hheads) h1
      | objClose => exact absurd (heads_objClose hheads) h2
      | arrClose => rfl
      | objOpen => rfl
      | arrOpen => rfl
      | colon => rfl
      | scalar v => rfl

/-- After a name that was seen before Python still reads the value, but it never
returns. -/
theorem duplicate_lost {i : Str} {ms : Json.Members Str} {k : Str} {stack : List Frame}
    (hk : k ∈ ms.map Prod.fst) (u : Json Str) :
    ¬ Yields (.ok (.inl ⟨.colon, i, .obj ms (some k) :: stack⟩)) u := by
  rintro ⟨n, hends⟩
  obtain ⟨m, rfl, h⟩ := hends.step
  rcases colon_cases i (.obj ms (some k) :: stack) with ⟨w, j, rfl⟩ | herr
  · rw [colon_step] at h
    obtain ⟨t, rest, v, l, -, -, -, hend⟩ := (run_sound m).1 _ _ _ h
    rw [deliver_obj, if_pos hk] at hend
    exact not_ends_error hend
  · rw [herr] at h
    exact not_ends_error h

/-- The phase `_KEY`. -/
theorem key_agree {n : Nat} (ih : InStep n) {s : Str} {ms : Json.Members Str} (key : Option Str)
    {ph : ObjPhase} {pend : Bytes} {stack : List Frame} {toks : List Token} (hopen : Open stack)
    (hph : ph = .keyOrClose ∨ ph = .key)
    (hbuilt : built toks = .ok
      ⟨.obj (goMembers ms) (goNames ms) ph pend :: stack.map waiting, none⟩)
    (hlen : (utf8 ('"' :: s)).length < n + 1) :
    Agree (keyStep ('"' :: s) (.obj ms key :: stack)) (run (n + 1) toks ('"' :: s)) := by
  have hws : ws ('"' :: s) = '"' :: s := ws_cons (by decide) s
  have hscan : scanToken (lead '"') (utf8 ('"' :: s)) = Go.Value.parseString (utf8 s) >>= fun out =>
      .ok (.scalar (.str out.1), out.2) := by
    rw [scanToken_lead, drop_one_cons (by decide)]
    rfl
  rw [keyStep, List.drop_one, List.tail_cons]
  rcases string_mirrors s with ⟨⟨k, i⟩, hpy, hgo⟩ | ⟨e, e', hpy, hgo⟩
  · rw [hgo] at hscan
    rw [hpy, run_token hws hscan]
    have hstep : built (toks ++ [.scalar (.str (utf8 k))]) =
        if utf8 k ∈ goNames ms then Go.fail .duplicate
        else .ok ⟨.obj (goMembers ms) (goNames ms ++ [utf8 k]) .colon (utf8 k) ::
          stack.map waiting, none⟩ := by
      rw [built_snoc hbuilt]
      rcases hph with rfl | rfl <;> rfl
    by_cases hk : k ∈ ms.map Prod.fst
    · rw [if_pos (mem_goNames.mpr hk)] at hstep
      exact .inr ⟨duplicate_lost hk, run_stuck hstep n i⟩
    · rw [if_neg (mt mem_goNames.mp hk)] at hstep
      refine ih ⟨.colon, i, _⟩ _ _ ⟨ms, k, stack, rfl, hopen, hk, rfl⟩ hstep ?_
      have hlt := ((string_remains hpy).cons '"').length
      dsimp only
      omega
  · rw [hgo] at hscan
    rw [hpy]
    exact .fail ⟨_, rfl⟩ (run_error hws hscan)

/-- An object is opened. -/
theorem openObj_agree {n : Nat} (ih : ∀ m ≤ n, InStep m) {i : Str} {stack : List Frame}
    {toks : List Token} (hopen : Open stack)
    (hbuilt : built toks = .ok ⟨.newObj :: stack.map waiting, none⟩) (hlen : (utf8 i).length < n) :
    Agree (if (ws i).head? = some '\x7d' then deliver ((ws i).drop 1) (.obj []) stack
      else if (ws i).head? = some '"' then .ok (.inl ⟨.key, ws i, .obj [] none :: stack⟩)
      else invalidJson) (run n toks i) := by
  obtain ⟨m, rfl⟩ : ∃ m, n = m + 1 := ⟨n - 1, by omega⟩
  by_cases h1 : (ws i).head? = some '\x7d'
  · obtain ⟨r, hr⟩ := List.head?_eq_some_iff.mp h1
    obtain ⟨-, hclose, -⟩ := scanToken_punctuation r
    rw [if_pos h1, run_token hr hclose, hr, List.drop_one, List.tail_cons]
    refine deliver_agree (ih m (Nat.le_succ m)) hopen ?_ (rest_bytes_lt hr hlen)
    rw [built_snoc hbuilt, tree_obj]
    rfl
  rw [if_neg h1]
  by_cases h2 : (ws i).head? = some '"'
  · rw [if_pos h2, ← run_ws]
    refine ih (m + 1) le_rfl ⟨.key, ws i, _⟩ _ _ ?_ hbuilt
      (Nat.lt_of_le_of_lt (ws_bytes_le i) hlen)
    exact ⟨[], none, stack, .keyOrClose, [], rfl, hopen, rfl, .inl rfl, h2⟩
  · rw [if_neg h2]
    exact noKey_agree [] ⟨_, rfl⟩ (.inl rfl) hbuilt h2 fun _ => h1

/-- An array is opened. -/
theorem openArr_agree {n : Nat} (ih : ∀ m ≤ n, InStep m) {i : Str} {stack : List Frame}
    {toks : List Token} (hopen : Open stack)
    (hbuilt : built toks = .ok ⟨.newArr :: stack.map waiting, none⟩) (hlen : (utf8 i).length < n) :
    Agree (if (ws i).head? = some ']' then deliver ((ws i).drop 1) (.arr []) stack
      else .ok (.inl ⟨.value, ws i, .arr [] :: stack⟩)) (run n toks i) := by
  obtain ⟨m, rfl⟩ : ∃ m, n = m + 1 := ⟨n - 1, by omega⟩
  by_cases h1 : (ws i).head? = some ']'
  · obtain ⟨r, hr⟩ := List.head?_eq_some_iff.mp h1
    obtain ⟨-, -, -, hclose, -⟩ := scanToken_punctuation r
    rw [if_pos h1, run_token hr hclose, hr, List.drop_one, List.tail_cons]
    refine deliver_agree (ih m (Nat.le_succ m)) hopen ?_ (rest_bytes_lt hr hlen)
    rw [built_snoc hbuilt, tree_arr]
    rfl
  · rw [if_neg h1, ← run_ws]
    refine ih (m + 1) le_rfl ⟨.value, ws i, _⟩ _ _ ?_ hbuilt
      (Nat.lt_of_le_of_lt (ws_bytes_le i) hlen)
    refine { parents := rfl, step := ?_, stop := rfl, opened := hopen.arr }
    -- a `]` in front would have closed the array
    intro c j tok hs hheads
    rw [ws_ws] at hs
    rw [hs] at h1
    cases tok with
    | arrClose =>
        rw [heads_arrClose hheads] at h1
        exact absurd rfl h1
    | comma => rfl
    | objClose => rfl
    | objOpen => rfl
    | arrOpen => rfl
    | colon => rfl
    | scalar v => rfl

/-- A literal where a value is expected. -/
theorem literal_agree {n : Nat} (ih : InStep n) {s : Str} {c : Char} {i : Str} {p : Str}
    {v : Json Str} {stack : List Frame} {b : Builder} {toks : List Token}
    (hexp : Expecting stack s b) (hbuilt : built toks = .ok b) (hs : ws s = c :: i)
    (hp : ∀ d ∈ c :: p, d.toNat < 0x80) (hheads : Heads c (.scalar (tree v)))
    (hlen : (utf8 s).length < n + 1)
    (hscan : scanToken (lead c) (utf8 (c :: i)) =
      Go.Value.scanLiteral (Go.lit (c :: p)) (tree v) (utf8 (c :: i))) :
    Agree (if i.take p.length = p then deliver (i.drop p.length) v stack else invalidJson)
      (run (n + 1) toks s) := by
  rw [scanLiteral_utf8 hp, List.length_cons, List.take_succ_cons, List.drop_succ_cons] at hscan
  by_cases h : i.take p.length = p
  · rw [h, if_pos rfl] at hscan
    rw [if_pos h]
    exact scalar_agree ih hexp hbuilt hs (remains_drop c i p.length) hheads hlen hscan
  · rw [if_neg fun heq => h (List.cons.inj heq).2] at hscan
    rw [if_neg h]
    exact .fail ⟨_, rfl⟩ (run_error hs hscan)

/-- The phase `_VALUE`. -/
theorem value_agree {n : Nat} (ih : ∀ m ≤ n, InStep m) {s : Str} {stack : List Frame} {b : Builder}
    {toks : List Token} (hexp : Expecting stack s b) (hbuilt : built toks = .ok b)
    (hlen : (utf8 s).length < n + 1) : Agree (valueStep s stack) (run (n + 1) toks s) := by
  rw [valueStep]
  cases hws : ws s with
  | nil => exact refuse_agree ⟨_, rfl⟩ hbuilt hexp.stop fun c i tok hs => by simp [hws] at hs
  | cons c i =>
      obtain ⟨hobj, -, harr, -⟩ := scanToken_punctuation i
      have hi := rest_bytes_lt hws hlen
      have hscan := scanToken_lead c (utf8 (c :: i))
      dsimp only
      by_cases h1 : c = '\x7b'
      · subst h1
        rw [if_pos rfl, run_token hws hobj]
        refine openObj_agree ih hexp.opened ?_ hi
        rw [built_snoc hbuilt, hexp.step _ i _ hws .objOpen, valueToken_eq, hexp.parents]
      rw [if_neg h1] at hscan ⊢
      by_cases h2 : c = '['
      · subst h2
        rw [if_pos rfl, run_token hws harr]
        refine openArr_agree ih hexp.opened ?_ hi
        rw [built_snoc hbuilt, hexp.step _ i _ hws .arrOpen, valueToken_eq, hexp.parents]
      rw [if_neg h2]
      -- Python raises at once; Go takes the token and its machine refuses it
      by_cases hpunct : c = '\x7d' ∨ c = ']' ∨ c = ',' ∨ c = ':'
      · refine refuse_agree ?_ hbuilt hexp.stop fun d j tok hs hheads => ?_
        · rcases hpunct with rfl | rfl | rfl | rfl <;> exact ⟨_, rfl⟩
        obtain ⟨rfl, rfl⟩ := List.cons.inj (hws.symm.trans hs)
        rw [hexp.step c i tok hws hheads, valueToken_eq]
        cases tok with
        | scalar v =>
            obtain ⟨h3, h4, h5, h6⟩ := heads_scalar hheads
            simp [h3, h4, h5, h6] at hpunct
        | objOpen => cases hheads; simp at hpunct
        | arrOpen => cases hheads; simp at hpunct
        | objClose => rfl
        | arrClose => rfl
        | comma => rfl
        | colon => rfl
      simp only [not_or] at hpunct
      rw [if_neg hpunct.1, if_neg h2, if_neg hpunct.2.1, if_neg hpunct.2.2.1,
        if_neg hpunct.2.2.2] at hscan
      by_cases h7 : c = '"'
      · subst h7
        rw [if_pos rfl, drop_one_cons (by decide)] at hscan
        rw [if_pos rfl]
        rcases string_mirrors i with ⟨⟨cs, r⟩, hpy, hgo⟩ | ⟨e, e', hpy, hgo⟩
        · rw [hgo] at hscan
          rw [hpy]
          exact scalar_agree (ih n le_rfl) hexp hbuilt hws ((string_remains hpy).cons _)
            (.str (utf8 cs)) hlen hscan
        · rw [hgo] at hscan
          rw [hpy]
          exact .fail ⟨_, rfl⟩ (run_error hws hscan)
      rw [if_neg h7] at hscan ⊢
      -- what is left to try starts with a letter, a sign or a digit
      have hheads : ∀ v : Json Bytes, (∀ s, v ≠ .str s) → Heads c (.scalar v) :=
        fun v hv => .other c v (by simp [h1, h2, h7, hpunct]) hv
      by_cases h8 : c = 't'
      · subst h8
        rw [if_pos rfl] at hscan ⊢
        exact literal_agree (p := ['r', 'u', 'e']) (ih n le_rfl) hexp hbuilt hws (by decide)
          (hheads _ fun s => by simp [tree, Json.map]) hlen hscan
      rw [if_neg h8] at hscan ⊢
      by_cases h9 : c = 'f'
      · subst h9
        rw [if_pos rfl] at hscan ⊢
        exact literal_agree (p := ['a', 'l', 's', 'e']) (ih n le_rfl) hexp hbuilt hws (by decide)
          (hheads _ fun s => by simp [tree, Json.map]) hlen hscan
      rw [if_neg h9] at hscan ⊢
      by_cases h10 : c = 'n'
      · subst h10
        rw [if_pos rfl] at hscan ⊢
        exact literal_agree (p := ['u', 'l', 'l']) (ih n le_rfl) hexp hbuilt hws (by decide)
          (hheads _ fun s => by simp [tree, Json.map]) hlen hscan
      rw [if_neg h10] at hscan ⊢
      by_cases h11 : c = '-' ∨ isDigit c = true
      · rw [if_pos h11] at hscan ⊢
        rcases number_mirrors (List.cons_ne_nil c i) with ⟨⟨y, r⟩, hpy, hgo⟩ | ⟨e, e', hpy, hgo⟩
        · rw [hgo] at hscan
          rw [hpy]
          exact scalar_agree (ih n le_rfl) hexp hbuilt hws (number_remains hpy)
            (hheads _ fun s => by simp [tree, Json.map]) hlen hscan
        · rw [hgo] at hscan
          rw [hpy]
          exact .fail ⟨_, rfl⟩ (run_error hws hscan)
      · rw [if_neg h11] at hscan ⊢
        exact .fail ⟨_, rfl⟩ (run_error hws hscan)

/-- **The two machines stay in step.** -/
theorem inStep (n : Nat) : InStep n := by
  induction n using Nat.strong_induction_on with
  | _ n ih =>
      rintro ⟨phase, s, stack⟩ b toks hrel hbuilt hlen
      obtain ⟨n, rfl⟩ : ∃ m, n = m + 1 := ⟨n - 1, by omega⟩
      have hle : ∀ m ≤ n, InStep m := fun m hm => ih m (Nat.lt_succ_of_le hm)
      refine Agree.turn ?_
      cases phase with
      | value => exact value_agree hle hrel hbuilt hlen
      | key =>
          obtain ⟨ms, key, stack, ph, pend, rfl, hopen, rfl, hph, hquote⟩ := hrel
          obtain ⟨s, rfl⟩ := List.head?_eq_some_iff.mp hquote
          exact key_agree (hle n le_rfl) key hopen hph hbuilt hlen
      | colon =>
          obtain ⟨ms, k, stack, rfl, hopen, hk, rfl⟩ := hrel
          exact colon_agree (hle n le_rfl) hopen hk hbuilt hlen
      | objNext =>
          obtain ⟨ms, key, stack, pend, rfl, hopen, rfl⟩ := hrel
          exact objNext_agree (hle n le_rfl) hopen hbuilt hlen
      | arrNext =>
          obtain ⟨items, stack, rfl, hopen, rfl⟩ := hrel
          exact arrNext_agree (hle n le_rfl) hopen hbuilt hlen

/-! ## The document -/

theorem yields_iff {s : Str} (h : ws s ≠ []) (v : Json Str) :
    Yields (.ok (.inl ⟨.value, ws s, []⟩)) v ↔ parseDocument s = .ok v := by
  have hfine : Fine (s.length + 1) (.ok (.inl ⟨.value, ws s, []⟩)) :=
    ⟨nofun, Nat.lt_succ_of_le (ws_length_le s)⟩
  rw [parseDocument_eq h]
  constructor
  · rintro ⟨n, hn⟩
    have hlong := advance_mono hn (s.length + 1)
    rcases advance_returns hfine with ⟨w, hw⟩ | ⟨r, hr⟩
    · have hlong' := advance_mono hw n
      rw [Nat.add_comm, hlong] at hlong'
      rw [hw, ← Option.some.inj hlong']
      rfl
    · have hlong' := advance_mono hr n
      rw [Nat.add_comm, hlong] at hlong'
      cases Option.some.inj hlong'
  · intro hok
    rcases advance_returns hfine with ⟨w, hw⟩ | ⟨r, hr⟩
    · rw [hw] at hok
      exact ⟨_, hw.trans (congrArg some hok)⟩
    · rw [hr] at hok
      cases hok

theorem goDocument_eq (s : Str) :
    Go.Value.parseDocument (utf8 s) = run ((utf8 s).length + 1) [] s := by
  rw [Go.Value.parseDocument, run, Go.Value.tokenize]
  rcases tokenizeLoop_cases ((utf8 s).length + 1) [] s with ⟨more, h⟩ | ⟨e, h⟩
  · rw [h, Except.ok_bind, Except.ok_bind]
    dsimp only
    cases Go.Value.buildValue ([] ++ more) <;> rfl
  · rw [h]
    rfl

/-- **The documents are read alike**, noncharacters outside strings aside. -/
theorem document_agree {s : Str} (h : ws s ≠ []) :
    (∃ v, parseDocument s = .ok v ∧ Go.Value.parseDocument (utf8 (ws s)) = .ok (tree v)) ∨
      (∀ v, parseDocument s ≠ .ok v) ∧
        ∃ e, Go.Value.parseDocument (utf8 (ws s)) = .error (.err e) := by
  have hexp : Expecting [] (ws s) ⟨[], none⟩ :=
    { parents := rfl, step := fun _ _ _ _ _ => rfl, stop := rfl, opened := fun _ _ hm => by cases hm }
  have hagree := inStep _ ⟨.value, ws s, []⟩ ⟨[], none⟩ [] hexp rfl (Nat.lt_succ_self _)
  rw [goDocument_eq]
  rcases hagree with ⟨v, hv, hrun⟩ | ⟨hno, e, hrun⟩
  · exact .inl ⟨v, (yields_iff h v).mp hv, hrun⟩
  · exact .inr ⟨fun v hv => hno v ((yields_iff h v).mpr hv), e, hrun⟩

/-- The noncharacters that Python rejects at once are in no document. -/
theorem parseUtf8_document (s : Str) (v : Json Str) :
    parseUtf8 (utf8 s) = .ok v ↔ parseDocument s = .ok v := by
  rw [parseUtf8_utf8]
  constructor
  · intro h
    split at h
    · cases h
    · exact h
  · intro h
    obtain ⟨w, t, w', rfl, hread⟩ := parseDocument_sound h
    have hclean : Clean (document w t w') := by
      rw [document, clean_append, clean_append]
      exact ⟨⟨(ws_ascii w).clean, phrase_clean t (read_eq_some.mp hread).1⟩, (ws_ascii w').clean⟩
    rw [any_noncharacter hclean]
    exact h

/-- A byte order mark starts no document. -/
theorem bom_rejected {s : Str} (h : (utf8 s).take 3 = [0xEF, 0xBB, 0xBF]) (v : Json Str) :
    parseDocument s ≠ .ok v := by
  intro hok
  obtain ⟨bs, hbs⟩ : ∃ bs, utf8 s = 0xEF :: bs := by
    cases hs : utf8 s with
    | nil =>
        rw [hs] at h
        cases h
    | cons b bs =>
        rw [hs, List.take_succ_cons] at h
        exact ⟨bs, by rw [(List.cons.inj h).1]⟩
  have hws : ws s = s := utf8_inj (by rw [← skipWS_utf8, hbs]; rfl)
  have hne : ws s ≠ [] := by
    rintro hnil
    rw [← hws, hnil] at hbs
    cases hbs
  rcases document_agree hne with ⟨u, -, hgo⟩ | ⟨hno, -⟩
  · rw [hws, hbs] at hgo
    cases hgo
  · exact hno v hok

/-- Neither parser has a result. -/
theorem both_refuse {data : Bytes} (hpy : ∀ ms, parseObject data ≠ .ok ms)
    (hgo : ∃ e, Go.Value.parseIJSON data = .error (.err e)) :
    ∃ r e, parseObject data = .error (.jsonInputError r) ∧
      Go.Value.parseIJSON data = .error (.err e) := by
  obtain ⟨e, he⟩ := hgo
  rcases parseObject_returns data with ⟨ms, hms⟩ | ⟨r, hr⟩
  · exact absurd hms (hpy ms)
  · exact ⟨r, e, hr, he⟩

/-- `utf8.Valid` on an encoded text. -/
theorem utf8_valid (s : Str) : ¬ (ByteArray.mk (utf8 s).toArray).utf8Decode?.isNone = true := by
  have h := decodeUtf8_utf8 s
  rw [decodeUtf8, Option.map_eq_some_iff] at h
  obtain ⟨arr, harr, -⟩ := h
  rw [harr]
  exact fun h => by cases h

/-- `ParseIJSON` on an encoded text is `parseDocument` and the test for an object. -/
theorem parseIJSON_cases {s : Str} (hbom : (utf8 s).take 3 ≠ [0xEF, 0xBB, 0xBF]) (hws : ws s ≠ []) :
    (∀ ms, Go.Value.parseDocument (utf8 (ws s)) = .ok (.obj ms) →
        Go.Value.parseIJSON (utf8 s) = .ok (.obj ms)) ∧
      (∀ v, Go.Value.parseDocument (utf8 (ws s)) = .ok v → (∀ ms, v ≠ .obj ms) →
        Go.Value.parseIJSON (utf8 s) = Go.fail .notObject) ∧
      ∀ e, Go.Value.parseDocument (utf8 (ws s)) = .error e →
        Go.Value.parseIJSON (utf8 s) = .error e := by
  have hne : utf8 (ws s) ≠ [] := fun h => hws (utf8_inj h)
  rw [Go.Value.parseIJSON, Except.raiseIf, Except.raiseIf, Except.raiseIf, if_neg hbom,
    if_neg (utf8_valid s), skipWS_utf8, if_neg hne]
  refine ⟨fun ms h => by rw [h]; rfl, fun v h hv => ?_, fun e h => by rw [h]; rfl⟩
  rw [h]
  cases v with
  | obj ms => exact absurd rfl (hv ms)
  | _ => rfl

/-- The two parsers return the same object, or both refuse. -/
theorem parsers_cases (data : Bytes) :
    (∃ ms, parseObject data = .ok ms ∧ Go.Value.parseIJSON data = .ok (tree (.obj ms))) ∨
      ∃ r e, parseObject data = .error (.jsonInputError r) ∧
        Go.Value.parseIJSON data = .error (.err e) := by
  cases hdec : decodeUtf8 data with
  | none =>
      -- not UTF-8; a byte order mark in front is looked for first
      refine .inr (both_refuse (fun ms h => ?_) ?_)
      · obtain ⟨w, t, w', hdata, -⟩ := parseUtf8_sound (parseObject_eq_ok.mp h)
        rw [hdata, decodeUtf8_utf8] at hdec
        cases hdec
      · have hvalid : (ByteArray.mk data.toArray).utf8Decode?.isNone = true := by
          rw [Option.isNone_iff_eq_none]
          exact Option.map_eq_none_iff.mp hdec
        by_cases hbom : data.take 3 = [0xEF, 0xBB, 0xBF]
        · exact ⟨.invalidJSON, by rw [Go.Value.parseIJSON, Except.raiseIf, if_pos hbom]; rfl⟩
        · exact ⟨.invalidUTF8, by
            rw [Go.Value.parseIJSON, Except.raiseIf, Except.raiseIf, if_neg hbom, if_pos hvalid]; rfl⟩
  | some s =>
      obtain rfl := decodeUtf8_eq_some.mp hdec
      have hpy : ∀ ms, parseObject (utf8 s) = .ok ms ↔ parseDocument s = .ok (.obj ms) :=
        fun ms => parseObject_eq_ok.trans (parseUtf8_document s _)
      by_cases hbom : (utf8 s).take 3 = [0xEF, 0xBB, 0xBF]
      · refine .inr (both_refuse (fun ms h => bom_rejected hbom _ ((hpy ms).mp h)) ?_)
        exact ⟨.invalidJSON, by rw [Go.Value.parseIJSON, Except.raiseIf, if_pos hbom]; rfl⟩
      by_cases hws : ws s = []
      · refine .inr (both_refuse (fun ms h => ?_) ?_)
        · have hdoc := (hpy ms).mp h
          rw [parseDocument, if_pos hws] at hdoc
          cases hdoc
        · refine ⟨.invalidJSON, ?_⟩
          rw [Go.Value.parseIJSON, Except.raiseIf, Except.raiseIf, Except.raiseIf, if_neg hbom,
            if_neg (utf8_valid s), skipWS_utf8, hws]
          rfl
      obtain ⟨hobject, hother, herror⟩ := parseIJSON_cases hbom hws
      rcases document_agree hws with ⟨v, hdoc, hrun⟩ | ⟨hno, e, hrun⟩
      · by_cases hv : ∃ ms, v = .obj ms
        · obtain ⟨ms, rfl⟩ := hv
          refine .inl ⟨ms, (hpy ms).mpr hdoc, ?_⟩
          rw [tree_obj] at hrun ⊢
          exact hobject _ hrun
        · refine .inr (both_refuse (fun ms h => ?_) ⟨_, hother _ hrun fun ms h => ?_⟩)
          · exact hv ⟨ms, Except.ok.inj (hdoc.symm.trans ((hpy ms).mp h))⟩
          · cases v with
            | obj ms => exact hv ⟨ms, rfl⟩
            | _ => cases h
      · exact .inr (both_refuse (fun ms h => hno _ ((hpy ms).mp h)) ⟨e, herror _ hrun⟩)

/-- The strings of an encoded value decode to those it was made of. -/
theorem tree_decode (v : Json Str) : (tree v).map (fun bs => (decodeUtf8 bs).getD []) = v := by
  have hstr : ∀ s, (decodeUtf8 (utf8 s)).getD [] = s := by
    intro s
    rw [decodeUtf8_utf8, Option.getD_some]
  induction v using Json.induct with
  | hstr s => exact congrArg Json.str (hstr s)
  | harr vs ih =>
      have hvs := List.map_congr_left ih
      rw [List.map_id'] at hvs
      rw [tree_arr, Json.map, Json.mapList_eq, List.map_map]
      exact congrArg Json.arr hvs
  | hobj ms ih =>
      have hms : ∀ m ∈ ms, ((decodeUtf8 (utf8 m.1)).getD [],
          (tree m.2).map fun bs => (decodeUtf8 bs).getD []) = m := by
        intro m hm
        rw [hstr, ih m hm]
      rw [tree_obj, goMembers, Json.map, Json.mapMembers_eq, List.map_map]
      exact congrArg Json.obj ((List.map_congr_left hms).trans (List.map_id' ms))
  | _ => rfl

/-- A value is determined by its encoding. -/
theorem tree_inj {v w : Json Str} (h : tree v = tree w) : v = w := by
  rw [← tree_decode v, h, tree_decode]

/-- **The two front ends accept the same byte strings** and read the same value
from them: `ParseIJSON` succeeds exactly where `parse_object` does, with the same
object, whose strings are its strings encoded and whose numbers are its numbers.
Both always end. Otherwise the one raises `JsonInputError`, which is not what its
model raises when turns run out, and the other returns an error and does not
panic; the two loops of the Go scanner, which the source does not bound, have
exactly one result each, the one of their bounded models. -/
theorem parseIJSON_exact (data : Bytes) :
    (∀ v, Go.Value.parseIJSON data = .ok v ↔
        ∃ ms, parseObject data = .ok ms ∧ v = tree (.obj ms)) ∧
    (∀ ms, parseObject data = .ok ms ↔ Go.Value.parseIJSON data = .ok (tree (.obj ms))) ∧
    ((∃ ms, parseObject data = .ok ms) ∨ ∃ r, parseObject data = .error (.jsonInputError r)) ∧
    ((∃ v, Go.Value.parseIJSON data = .ok v) ∨
      ∃ e, Go.Value.parseIJSON data = .error (.err e)) ∧
    (∀ bs x, FuelLoop.Runs Go.Value.tokenizeTurn ([], bs) x ↔ x = Go.Value.tokenize bs) ∧
    ∀ bs x, FuelLoop.Runs Go.Value.stringTurn ([], bs) x ↔ x = Go.Value.parseString bs := by
  have hends := And.intro Go.Value.tokenize_runs Go.Value.parseString_runs
  rcases parsers_cases data with ⟨ms, hpy, hgo⟩ | ⟨r, e, hpy, hgo⟩
  · refine ⟨fun v => ?_, fun ms' => ?_, .inl ⟨ms, hpy⟩, .inl ⟨_, hgo⟩, hends⟩
    · rw [hpy, hgo]
      constructor
      · intro h
        exact ⟨ms, rfl, (Except.ok.inj h).symm⟩
      · rintro ⟨ms', h, rfl⟩
        rw [Except.ok.inj h]
    · rw [hpy, hgo]
      constructor
      · intro h
        rw [Except.ok.inj h]
      · intro h
        rw [Json.obj.inj (tree_inj (Except.ok.inj h))]
  · refine ⟨fun v => ?_, fun ms => ?_, .inr ⟨r, hpy⟩, .inr ⟨e, hgo⟩, hends⟩
    · rw [hpy, hgo]
      constructor
      · intro h
        cases h
      · rintro ⟨ms, h, -⟩
        cases h
    · rw [hpy, hgo]
      constructor <;> intro h <;> cases h

/-- **One input language, one canonical form.** On every byte string the Go
parser and the Python parser return the same object, which their canonicalisers
write as the same bytes, or one raises `JsonInputError` and the other returns an
error: never a panic. -/
theorem parseIJSON_parseObject (data : Bytes) :
    (∃ ms, parseObject data = .ok ms ∧ Go.Value.parseIJSON data = .ok (tree (.obj ms)) ∧
        Python.Jcs.canonicalizeBytes (.obj ms) = .ok (Rfc8785.bytes (.obj ms)) ∧
        Go.Jcs.canonicalize (tree (.obj ms)) = some (Rfc8785.bytes (.obj ms))) ∨
      ∃ r e, parseObject data = .error (.jsonInputError r) ∧
        Go.Value.parseIJSON data = .error (.err e) := by
  rcases parsers_cases data with ⟨ms, hpy, hgo⟩ | h
  · have hall : (Json.obj ms).All (fun _ => True) fun _ => True :=
      Jcs.All.imp (fun _ _ => trivial) (fun _ _ => trivial) (parseObject_ijson hpy)
    exact .inl ⟨ms, hpy, hgo, Jcs.canonicalizeBytes_eq hall, Jcs.goCanonicalize_eq _⟩
  · exact .inr h

end SwarmPointer.JsonInput
