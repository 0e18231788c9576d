import Mathlib.Algebra.BigOperators.Group.List.Basic
import SwarmPointer.Jcs.Rfc8785
import SwarmPointer.Lib.FuelLoop

/-!
# The marker-stack serialiser

`canonicalize` in Python and `jcs` in TypeScript are one loop over two
representations of text: pop an item; a marker is written out, a container
pushes its closing marker and, in reverse, its children with commas and
name markers between them. The loop is written once over a `Dialect`; the
result here is that it writes the recursive text whatever the dialect, as
long as the dialect's strings, numbers and name order are those of the
definition.

The number of turns is read off the value (`turns`): one for each item that is
ever pushed. `serialize` gives the loop that many, and the run lemma shows that
they are enough.
-/

namespace SwarmPointer.Jcs

open Json

/-- What the two serialisers do not share: the characters of their texts,
the text of a string and of a number, and the order of names. `missing` is
the failure of a look-up that cannot happen. -/
structure Dialect (S α ε : Type) where
  ascii : Char → α
  quote : S → List α
  number : Binary64 → Except ε (List α)
  nameLe : S → S → Bool
  missing : ε

/-- An entry of the explicit stack. -/
inductive Item (S : Type) where
  | popArr
  | popObj
  | comma
  | key (k : S)
  | value (v : Json S)

section Loop
variable {S α ε : Type} [DecidableEq S] (D : Dialect S α ε)

/-- One turn of `for idx in range(len(item) - 1, -1, -1)`: push the entries of
a child, then a comma unless it is the first. -/
def pushRow {X : Type} (entries : X → List (Item S)) : X × Nat → List (Item S) → List (Item S)
  | (x, idx), stack =>
      if idx ≠ 0 then .comma :: (entries x ++ stack) else entries x ++ stack

def pushItems (vs : List (Json S)) (stack : List (Item S)) : List (Item S) :=
  vs.zipIdx.foldr (pushRow fun v => [.value v]) stack

/-- `item[k]` with its name. -/
def row (ms : Members S) (k : S) : Except ε (S × Json S) :=
  match ms.lookup k with
  | some v => .ok (k, v)
  | none => .error D.missing

/-- The same loop over the sorted names of an object. -/
def pushMembers (ms : Members S) (keys : List S) (stack : List (Item S)) :
    Except ε (List (Item S)) := do
  let rows ← keys.mapM (row D ms)
  return rows.zipIdx.foldr (pushRow fun m => [.key m.1, .value m.2]) stack

def sortedKeys (ms : Members S) : List S :=
  (ms.map Prod.fst).insertionSort fun a b => D.nameLe a b = true

/-- `while stack`: one turn for each popped item. -/
def loop : Nat → List (Item S) → List α → Option (Except ε (List α))
  | 0, _, _ => none
  | _ + 1, [], out => some (.ok out)
  | n + 1, .popArr :: stack, out => loop n stack (out ++ [D.ascii ']'])
  | n + 1, .popObj :: stack, out => loop n stack (out ++ [D.ascii '}'])
  | n + 1, .comma :: stack, out => loop n stack (out ++ [D.ascii ','])
  | n + 1, .key k :: stack, out => loop n stack (out ++ (D.quote k ++ [D.ascii ':']))
  | n + 1, .value .null :: stack, out => loop n stack (out ++ "null".toList.map D.ascii)
  | n + 1, .value (.bool true) :: stack, out => loop n stack (out ++ "true".toList.map D.ascii)
  | n + 1, .value (.bool false) :: stack, out => loop n stack (out ++ "false".toList.map D.ascii)
  | n + 1, .value (.num x) :: stack, out =>
      match D.number x with
      | .error e => some (.error e)
      | .ok t => loop n stack (out ++ t)
  | n + 1, .value (.str s) :: stack, out => loop n stack (out ++ D.quote s)
  | n + 1, .value (.arr vs) :: stack, out =>
      loop n (pushItems vs (.popArr :: stack)) (out ++ [D.ascii '['])
  | n + 1, .value (.obj ms) :: stack, out =>
      match pushMembers D ms (sortedKeys D ms) (.popObj :: stack) with
      | .error e => some (.error e)
      | .ok stack => loop n stack (out ++ [D.ascii '{'])

end Loop

/-! ## The number of turns -/

mutual

/-- Turns of the loop that a value takes. -/
def turns {S : Type} : Json S → Nat
  | .arr vs => turnsList vs + 2
  | .obj ms => turnsMembers ms + 2
  | _ => 1

def turnsList {S : Type} : List (Json S) → Nat
  | [] => 0
  | v :: vs => turns v + 1 + turnsList vs

def turnsMembers {S : Type} : Members S → Nat
  | [] => 0
  | (_, v) :: ms => turns v + 2 + turnsMembers ms

end

/-- The loop on one value, with turns enough for it. -/
def serialize {S α ε : Type} [DecidableEq S] (D : Dialect S α ε) (v : Json S) :
    Option (Except ε (List α)) :=
  loop D (turns v + 1) [.value v] []

theorem turnsList_eq {S : Type} (vs : List (Json S)) :
    turnsList vs = (vs.map fun v => turns v + 1).sum := by
  induction vs with
  | nil => rfl
  | cons v vs ih => rw [turnsList, ih, List.map_cons, List.sum_cons]

theorem turnsMembers_eq {S : Type} (ms : Members S) :
    turnsMembers ms = (ms.map fun m => turns m.2 + 2).sum := by
  induction ms with
  | nil => rfl
  | cons m ms ih => rw [turnsMembers, ih, List.map_cons, List.sum_cons]

/-! ## The loop writes the recursive text -/

section Correct
variable {S α ε : Type}

/-- A dialect that agrees with the recursive definition through an encoding
`enc` of strings and `emit` of text. -/
structure Dialect.Faithful (D : Dialect S α ε) (enc : Str → S) (emit : Str → List α)
    (num : Binary64 → Prop) : Prop where
  inj : Function.Injective enc
  emit_append : ∀ s t, emit (s ++ t) = emit s ++ emit t
  emit_ascii : ∀ c : Char, c.toNat < 0x80 → emit [c] = [D.ascii c]
  quote : ∀ s, D.quote (enc s) = emit (Rfc8785.quote s)
  number : ∀ x, num x → D.number x = .ok (emit (Decimal.ecmaString x))
  nameLe : ∀ a b, D.nameLe (enc a) (enc b) = true ↔ Rfc8785.units a ≤ Rfc8785.units b

variable {D : Dialect S α ε} {enc : Str → S} {emit : Str → List α} {num : Binary64 → Prop}

theorem Dialect.Faithful.emit_nil (hD : D.Faithful enc emit num) : emit [] = [] := by
  have h := hD.emit_append [] []
  simpa using h

theorem sortedKeys_map (hD : D.Faithful enc emit num) (ms : Members Str) :
    sortedKeys D (mapMembers enc ms) = (Rfc8785.sortByName ms).map fun m => enc m.1 := by
  rw [sortedKeys, mapMembers_eq, List.map_map]
  exact (List.map_insertionSort Rfc8785.nameLe (fun a b => D.nameLe a b = true)
    (fun m => enc m.1) ms fun a _ b _ => (hD.nameLe a.1 b.1).symm).symm

theorem turns_map (enc : Str → S) (v : Json Str) : turns (map enc v) = turns v := by
  induction v using Json.induct with
  | harr vs ih =>
      rw [map, turns, turns, turnsList_eq, turnsList_eq, mapList_eq, List.map_map]
      congr 2
      exact List.map_congr_left fun v hv => by rw [Function.comp, ih v hv]
  | hobj ms ih =>
      rw [map, turns, turns, turnsMembers_eq, turnsMembers_eq, mapMembers_eq, List.map_map]
      congr 2
      exact List.map_congr_left fun m hm => by rw [Function.comp, ih m hm]
  | _ => rfl

theorem emit_literal (hD : D.Faithful enc emit num) {s : Str} (h : ∀ c ∈ s, c.toNat < 0x80) :
    emit s = s.map D.ascii := by
  induction s with
  | nil => exact hD.emit_nil
  | cons c s ih =>
      have hsplit := hD.emit_append [c] s
      rw [List.singleton_append] at hsplit
      rw [hsplit, hD.emit_ascii c (h c (List.mem_cons_self ..)),
        ih fun d hd => h d (List.mem_cons_of_mem _ hd)]
      rfl

variable [DecidableEq S]

/-- At most `n` turns lead from one stack and output to another. -/
abbrev Leads (D : Dialect S α ε) (n : Nat) (stack : List (Item S)) (out : List α)
    (stack' : List (Item S)) (out' : List α) : Prop :=
  FuelLoop.Reaches (fun n (s : List (Item S) × List α) => loop D n s.1 s.2) n (stack, out)
    (stack', out')

theorem intercalate_cons (sep : List Char) (t : Str) (ts : List Str) :
    sep.intercalate (t :: ts) = t ++ ts.flatMap fun t => sep ++ t := by
  induction ts generalizing t with
  | nil => simp [List.intercalate]
  | cons u ts ih =>
      have hstep : sep.intercalate (t :: u :: ts) = t ++ (sep ++ sep.intercalate (u :: ts)) := by
        simp [List.intercalate]
      rw [hstep, ih, List.flatMap_cons, List.append_assoc]

theorem comma_leads (stack : List (Item S)) (out : List α) :
    Leads D 1 (.comma :: stack) out stack (out ++ [D.ascii ',']) :=
  FuelLoop.Reaches.turn fun n => by rw [loop]

/-- A comma is written before every row but the first. -/
theorem rows_tail {X : Type} {entries : X → List (Item S)} {n : X → Nat} {t : X → Str}
    (hD : D.Faithful enc emit num) {xs : List X}
    (h : ∀ x ∈ xs, ∀ stack out, Leads D (n x) (entries x ++ stack) out stack (out ++ emit (t x)))
    (i : Nat) (stack : List (Item S)) (out : List α) :
    Leads D (xs.map fun x => n x + 1).sum ((xs.zipIdx (i + 1)).foldr (pushRow entries) stack) out
      stack (out ++ emit (xs.flatMap fun x => [','] ++ t x)) := by
  induction xs generalizing i out with
  | nil => simpa [hD.emit_nil] using FuelLoop.Reaches.refl (stack, out)
  | cons x xs ih =>
      have hcomma : emit [','] = [D.ascii ','] := hD.emit_ascii ',' (by decide)
      have hxs := ih (fun y hy => h y (List.mem_cons_of_mem _ hy)) (i + 1)
      rw [List.zipIdx_cons, List.foldr_cons, pushRow, if_pos (Nat.succ_ne_zero i), List.map_cons,
        List.sum_cons, List.flatMap_cons, hD.emit_append, hD.emit_append, hcomma,
        ← List.append_assoc, ← List.append_assoc]
      exact ((comma_leads _ _).trans ((h x (List.mem_cons_self ..) _ _).trans (hxs _))).mono
        (by omega)

theorem rows {X : Type} (entries : X → List (Item S)) (n : X → Nat) (t : X → Str)
    (hD : D.Faithful enc emit num) {xs : List X}
    (h : ∀ x ∈ xs, ∀ stack out, Leads D (n x) (entries x ++ stack) out stack (out ++ emit (t x)))
    (stack : List (Item S)) (out : List α) :
    Leads D (xs.map fun x => n x + 1).sum (xs.zipIdx.foldr (pushRow entries) stack) out
      stack (out ++ emit ([','].intercalate (xs.map t))) := by
  cases xs with
  | nil => simpa [hD.emit_nil, List.intercalate] using FuelLoop.Reaches.refl (stack, out)
  | cons x xs =>
      have hxs := rows_tail hD (fun y hy => h y (List.mem_cons_of_mem _ hy)) 0 stack
      rw [List.zipIdx_cons, List.foldr_cons, pushRow, if_neg (not_not.mpr rfl), List.map_cons,
        List.sum_cons, List.map_cons, intercalate_cons, hD.emit_append, ← List.append_assoc,
        List.flatMap_map]
      exact ((h x (List.mem_cons_self ..) _ _).trans (hxs _)).mono (by omega)

theorem lookup_map (hinj : Function.Injective enc) {ms : Members Str}
    (hnodup : (ms.map Prod.fst).Nodup) {m : Str × Json Str} (hm : m ∈ ms) :
    (mapMembers enc ms).lookup (enc m.1) = some (map enc m.2) := by
  induction ms with
  | nil => cases hm
  | cons n ms ih =>
      rw [mapMembers, List.lookup_cons]
      rw [List.map_cons, List.nodup_cons] at hnodup
      rcases List.mem_cons.mp hm with rfl | hm
      · rw [beq_self_eq_true]
      · have hne : n.1 ≠ m.1 := fun h => hnodup.1 (h ▸ List.mem_map_of_mem hm)
        have hbeq : (enc m.1 == enc n.1) = false := by
          rw [beq_eq_false_iff_ne]
          exact fun h => hne (hinj h).symm
        rw [hbeq]
        exact ih hnodup.2 hm

/-- With every look-up succeeding, the members are pushed in sorted order. -/
theorem pushMembers_ok (hD : D.Faithful enc emit num) {ms : Members Str}
    (hnodup : (ms.map Prod.fst).Nodup) (stack : List (Item S)) :
    pushMembers D (mapMembers enc ms) (sortedKeys D (mapMembers enc ms)) stack =
      .ok ((Rfc8785.sortByName ms).zipIdx.foldr
        (pushRow fun m => [.key (enc m.1), .value (map enc m.2)]) stack) := by
  have hrows : ∀ xs : List (Str × Json Str), (∀ x ∈ xs, x ∈ ms) →
      (xs.map fun m => enc m.1).mapM (row D (mapMembers enc ms)) =
        .ok (xs.map fun m => (enc m.1, map enc m.2)) := by
    intro xs
    induction xs with
    | nil => intro _; rfl
    | cons x xs ih =>
        intro hsub
        have hx := lookup_map hD.inj hnodup (hsub x (List.mem_cons_self ..))
        have hrow : row D (mapMembers enc ms) (enc x.1) = .ok (enc x.1, map enc x.2) := by
          rw [row, hx]
        rw [List.map_cons, List.mapM_cons, hrow, ih fun y hy => hsub y (List.mem_cons_of_mem _ hy)]
        rfl
  have hmem : ∀ x ∈ Rfc8785.sortByName ms, x ∈ ms := fun x hx =>
    (Rfc8785.sortByName_perm ms).mem_iff.mp hx
  rw [pushMembers, sortedKeys_map hD, hrows _ hmem]
  simp only [bind, Except.bind, pure, Except.pure, List.zipIdx_map, List.foldr_map]
  rfl

/-- **One value**: popping it leads to its text written and the rest of the
stack as it was. The induction is on the value. -/
theorem value_leads (hD : D.Faithful enc emit num) {v : Json Str}
    (hv : v.All num fun _ => True) (stack : List (Item S)) (out : List α) :
    Leads D (turns v) (.value (map enc v) :: stack) out stack (out ++ emit (Rfc8785.text v)) := by
  induction v using Json.induct generalizing stack out with
  | hnull =>
      rw [Rfc8785.text, emit_literal hD (by decide)]
      exact FuelLoop.Reaches.turn fun n => by rw [map, loop]
  | hbool b =>
      cases b <;> rw [Rfc8785.text, emit_literal hD (by decide)] <;>
        exact FuelLoop.Reaches.turn fun n => by rw [map, loop]
  | hnum x =>
      refine FuelLoop.Reaches.turn fun n => ?_
      rw [map, loop, hD.number x hv, Rfc8785.text]
  | hstr s =>
      refine FuelLoop.Reaches.turn fun n => ?_
      rw [map, loop, hD.quote, Rfc8785.text]
  | harr vs ih =>
      have hopen : emit ['['] = [D.ascii '['] := hD.emit_ascii '[' (by decide)
      have hclose : emit [']'] = [D.ascii ']'] := hD.emit_ascii ']' (by decide)
      have hall := allList_iff.mp (show AllList num (fun _ => True) vs from hv)
      have hpush : pushItems (mapList enc vs) (.popArr :: stack) =
          vs.zipIdx.foldr (pushRow fun v => [.value (map enc v)]) (.popArr :: stack) := by
        rw [pushItems, mapList_eq, List.zipIdx_map, List.foldr_map]
        rfl
      -- the bracket, then the items with their commas, then the marker that closes
      have h1 : Leads D 1 (.value (map enc (.arr vs)) :: stack) out
          (vs.zipIdx.foldr (pushRow fun v => [.value (map enc v)]) (.popArr :: stack))
          (out ++ emit ['[']) :=
        FuelLoop.Reaches.turn fun n => by rw [map, loop, hpush, hopen]
      have h2 := rows (fun v => [.value (map enc v)]) turns Rfc8785.text hD
        (fun v hv' stack out => ih v hv' (hall v hv') stack out) (.popArr :: stack)
        (out ++ emit ['['])
      have h3 : ∀ out, Leads D 1 (.popArr :: stack) out stack (out ++ emit [']']) := fun out =>
        FuelLoop.Reaches.turn fun n => by rw [loop, hclose]
      have h := (h1.trans h2).trans (h3 _)
      rw [Rfc8785.text, Rfc8785.textList_eq, turns, turnsList_eq]
      have htext : emit ('[' :: [','].intercalate (vs.map Rfc8785.text) ++ [']']) =
          emit ['['] ++ emit ([','].intercalate (vs.map Rfc8785.text)) ++ emit [']'] := by
        rw [← hD.emit_append, ← hD.emit_append]
        rfl
      rw [htext, ← List.append_assoc, ← List.append_assoc]
      exact h.mono (by omega)
  | hobj ms ih =>
      have hopen : emit ['{'] = [D.ascii '{'] := hD.emit_ascii '{' (by decide)
      have hcolon : emit [':'] = [D.ascii ':'] := hD.emit_ascii ':' (by decide)
      have hclose : emit ['}'] = [D.ascii '}'] := hD.emit_ascii '}' (by decide)
      obtain ⟨hnodup, hms⟩ : (ms.map Prod.fst).Nodup ∧ AllMembers num (fun _ => True) ms := hv
      have hall := allMembers_iff.mp hms
      have hperm := Rfc8785.sortByName_perm ms
      have h1 : Leads D 1 (.value (map enc (.obj ms)) :: stack) out
          ((Rfc8785.sortByName ms).zipIdx.foldr
            (pushRow fun m => [.key (enc m.1), .value (map enc m.2)]) (.popObj :: stack))
          (out ++ emit ['{']) :=
        FuelLoop.Reaches.turn fun n => by rw [map, loop, pushMembers_ok hD hnodup, hopen]
      have hrow : ∀ m ∈ Rfc8785.sortByName ms, ∀ stack out,
          Leads D (turns m.2 + 1) ([.key (enc m.1), .value (map enc m.2)] ++ stack) out stack
            (out ++ emit (Rfc8785.member (m.1, Rfc8785.text m.2))) := by
        intro m hm stack out
        have hm' := hperm.mem_iff.mp hm
        have hkey : Leads D 1 ([.key (enc m.1), .value (map enc m.2)] ++ stack) out
            (.value (map enc m.2) :: stack) (out ++ emit (Rfc8785.quote m.1 ++ [':'])) :=
          FuelLoop.Reaches.turn fun n => by
            rw [List.cons_append, List.singleton_append, loop, hD.quote, hD.emit_append, hcolon]
        have hvalue := ih m hm' (hall m hm').2 stack (out ++ emit (Rfc8785.quote m.1 ++ [':']))
        have htext : emit (Rfc8785.member (m.1, Rfc8785.text m.2)) =
            emit (Rfc8785.quote m.1 ++ [':']) ++ emit (Rfc8785.text m.2) := by
          rw [← hD.emit_append, List.append_assoc]
          rfl
        rw [htext, ← List.append_assoc]
        exact (hkey.trans hvalue).mono (by omega)
      have h2 := rows (fun m : Str × Json Str => [.key (enc m.1), .value (map enc m.2)])
        (fun m => turns m.2 + 1) (fun m => Rfc8785.member (m.1, Rfc8785.text m.2)) hD hrow
        (.popObj :: stack) (out ++ emit ['{'])
      have h3 : ∀ out, Leads D 1 (.popObj :: stack) out stack (out ++ emit ['}']) := fun out =>
        FuelLoop.Reaches.turn fun n => by rw [loop, hclose]
      have h := (h1.trans h2).trans (h3 _)
      -- the order of the members does not change how many turns they take
      have hsum : ((Rfc8785.sortByName ms).map fun m => turns m.2 + 1 + 1).sum =
          (ms.map fun m => turns m.2 + 2).sum := (hperm.map _).sum_eq
      rw [hsum] at h
      rw [Rfc8785.text, Rfc8785.textMembers_eq, Rfc8785.sortByName_map, List.map_map, turns,
        turnsMembers_eq]
      have htext : emit ('{' :: [','].intercalate ((Rfc8785.sortByName ms).map
            (Rfc8785.member ∘ fun m => (m.1, Rfc8785.text m.2))) ++ ['}']) =
          emit ['{'] ++ emit ([','].intercalate ((Rfc8785.sortByName ms).map
            (Rfc8785.member ∘ fun m => (m.1, Rfc8785.text m.2)))) ++ emit ['}'] := by
        rw [← hD.emit_append, ← hD.emit_append]
        rfl
      rw [htext, ← List.append_assoc, ← List.append_assoc]
      exact h.mono (by omega)

/-- **The loop writes the recursive text**, in the turns `serialize` allows. -/
theorem serialize_eq (hD : D.Faithful enc emit num) {v : Json Str}
    (hv : v.All num fun _ => True) :
    serialize D (map enc v) = some (.ok (emit (Rfc8785.text v))) := by
  have h := value_leads hD hv [] []
  rw [serialize, turns_map]
  exact h.result (fun m => by rw [loop, List.nil_append]) (Nat.lt_succ_self _)

end Correct

end SwarmPointer.Jcs
