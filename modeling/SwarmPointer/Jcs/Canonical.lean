import SwarmPointer.Jcs.Numbers
import SwarmPointer.Jcs.Strings
import SwarmPointer.Lib.Shortest

/-!
# Canonical JSON — three canonicalisers, one text

Python and TypeScript are instances of the marker stack. Go keeps frames
with the index of the next child; its loop is followed from a frame that
has written some of its children to the frame popped, by induction on the
children left.

The marker stack is proved correct for any dialect; what is left for Python and
TypeScript is that their strings, numbers and orders are those of the
definition, and for TypeScript that the object it serialises lists its
properties in an order of its own (`reorder`). In Go the frame of a container
is described once for arrays and objects (`Children`).

The last section puts the three side by side on what the parsers deliver.
-/

namespace SwarmPointer.Jcs

open Json Unicode

/-- The numbers the parsers deliver: all but negative zero. -/
def NotNegZero (x : Binary64) : Prop := ¬ (x.neg = true ∧ x.mag = 0)

/-- A value whose objects have distinct names and whose numbers are not
negative zero. -/
def Parsed (v : Json Str) : Prop := v.All NotNegZero fun _ => True

/-! ## Python and TypeScript -/

theorem map_id_eq {S : Type} (v : Json S) : v.map id = v := by
  induction v using Json.induct with
  | harr vs ih =>
      rw [Json.map, mapList_eq, List.map_congr_left ih, List.map_id']
  | hobj ms ih =>
      have hms : ms.map (fun m => (id m.1, m.2.map id)) = ms.map id :=
        List.map_congr_left fun m hm => by rw [ih m hm]; rfl
      rw [Json.map, mapMembers_eq, hms, List.map_id]
  | _ => rfl

theorem python_faithful :
    Dialect.Faithful Python.Jcs.dialect id id fun _ => True where
  inj := Function.injective_id
  emit_append _ _ := rfl
  emit_ascii _ _ := rfl
  quote := escapeString_eq
  number x _ := esNumber_eq x
  nameLe := utf16be_le

theorem typescript_faithful :
    Dialect.Faithful TypeScript.Canon.dialect utf16 utf16 NotNegZero where
  inj _ _ := utf16_inj
  emit_append := utf16_append
  emit_ascii c h := (utf16_cons c []).trans (by rw [utf16Char_ascii h]; rfl)
  quote := jcsString_eq
  number x h := by
    rw [← lit_eq_utf16 (ecmaString_ascii x)]
    exact jcsNumber_eq h
  nameLe := utf16Less_le

theorem All.imp {S : Type} {p p' : Binary64 → Prop} {q q' : S → Prop} (hp : ∀ x, p x → p' x)
    (hq : ∀ s, q s → q' s) {v : Json S} (h : v.All p q) : v.All p' q' := by
  induction v using Json.induct with
  | hnum x => exact hp x h
  | hstr s => exact hq s h
  | harr vs ih =>
      have h' := allList_iff.mp (show AllList p q vs from h)
      exact allList_iff.mpr fun v hv => ih v hv (h' v hv)
  | hobj ms ih =>
      obtain ⟨hn, hm⟩ : (ms.map Prod.fst).Nodup ∧ AllMembers p q ms := h
      have h' := allMembers_iff.mp hm
      exact ⟨hn, allMembers_iff.mpr fun m hm => ⟨hq _ (h' m hm).1, ih m hm (h' m hm).2⟩⟩
  | _ => trivial

/-- Python's loop ends with the recursive text. -/
theorem python_serialize {v : Json Str} (h : v.All (fun _ => True) fun _ => True) :
    serialize Python.Jcs.dialect v = some (.ok (Rfc8785.text v)) := by
  have hs := serialize_eq python_faithful h
  rwa [map_id_eq] at hs

theorem canonicalize_eq {v : Json Str} (h : v.All (fun _ => True) fun _ => True) :
    Python.Jcs.canonicalize v = .ok (Rfc8785.text v) := by
  rw [Python.Jcs.canonicalize, python_serialize h]
  rfl

theorem canonicalizeBytes_eq {v : Json Str} (h : v.All (fun _ => True) fun _ => True) :
    Python.Jcs.canonicalizeBytes v = .ok (Rfc8785.bytes v) := by
  rw [Python.Jcs.canonicalizeBytes, canonicalize_eq h]
  rfl

/-- TypeScript's loop ends with it too. -/
theorem typescript_serialize {v : Json Str} (h : Parsed v) :
    serialize TypeScript.Canon.dialect (v.map utf16) = some (.ok (utf16 (Rfc8785.text v))) :=
  serialize_eq typescript_faithful h

mutual

/-- A value with the members of its objects in the order TypeScript's host
keeps them. -/
def reorder : Json Str → Json Str
  | .arr vs => .arr (reorderList vs)
  | .obj ms => .obj (TypeScript.ownOrder utf16 (reorderMembers ms))
  | v => v

def reorderList : List (Json Str) → List (Json Str)
  | [] => []
  | v :: vs => reorder v :: reorderList vs

def reorderMembers : Members Str → Members Str
  | [] => []
  | (k, v) :: ms => (k, reorder v) :: reorderMembers ms

end

theorem reorderList_eq (vs : List (Json Str)) : reorderList vs = vs.map reorder := by
  induction vs with
  | nil => rfl
  | cons v vs ih => rw [reorderList, ih, List.map_cons]

theorem reorderMembers_eq (ms : Members Str) :
    reorderMembers ms = ms.map fun m => (m.1, reorder m.2) := by
  induction ms with
  | nil => rfl
  | cons m ms ih => rw [reorderMembers, ih, List.map_cons]

theorem ofJson_eq (v : Json Str) : TypeScript.ofJson v = (reorder v).map utf16 := by
  induction v using Json.induct with
  | harr vs ih =>
      rw [TypeScript.ofJson, TypeScript.ofList_eq, reorder, reorderList_eq, Json.map, mapList_eq,
        List.map_map]
      exact congrArg Json.arr (List.map_congr_left ih)
  | hobj ms ih =>
      have hms : TypeScript.ofMembers ms =
          (reorderMembers ms).map fun m => (utf16 m.1, m.2.map utf16) := by
        rw [TypeScript.ofMembers_eq, reorderMembers_eq, List.map_map]
        exact List.map_congr_left fun m hm => by rw [ih m hm]; rfl
      rw [TypeScript.ofJson, hms, reorder, Json.map, mapMembers_eq]
      exact congrArg Json.obj (TypeScript.ownOrder_map id utf16 _ _)
  | _ => rfl

theorem reorder_names {ms ns : Members Str} (h : ns.Perm (reorderMembers ms)) :
    (ns.map Prod.fst).Perm (ms.map Prod.fst) := by
  have hn := h.map Prod.fst
  rw [reorderMembers_eq, List.map_map] at hn
  exact hn

theorem reorder_all {p : Binary64 → Prop} {q : Str → Prop} {v : Json Str} (h : v.All p q) :
    (reorder v).All p q := by
  induction v using Json.induct with
  | harr vs ih =>
      have h' := allList_iff.mp (show AllList p q vs from h)
      rw [reorder, reorderList_eq]
      refine allList_iff.mpr fun w hw => ?_
      obtain ⟨v, hv, rfl⟩ := List.mem_map.mp hw
      exact ih v hv (h' v hv)
  | hobj ms ih =>
      obtain ⟨hn, hm⟩ : (ms.map Prod.fst).Nodup ∧ AllMembers p q ms := h
      have h' := allMembers_iff.mp hm
      have hperm := TypeScript.ownOrder_perm utf16 (reorderMembers ms)
      refine ⟨(reorder_names hperm).nodup_iff.mpr hn, allMembers_iff.mpr fun m hm => ?_⟩
      have hm' := hperm.mem_iff.mp hm
      rw [reorderMembers_eq] at hm'
      obtain ⟨n, hn, rfl⟩ := List.mem_map.mp hm'
      exact ⟨(h' n hn).1, ih n hn (h' n hn).2⟩
  | _ => exact h

/-- The canonical text does not depend on the order of members. -/
theorem text_reorder {v : Json Str} (h : v.All (fun _ => True) fun _ => True) :
    Rfc8785.text (reorder v) = Rfc8785.text v := by
  induction v using Json.induct with
  | harr vs ih =>
      have h' := allList_iff.mp (show AllList _ _ vs from h)
      rw [reorder, reorderList_eq, Rfc8785.text, Rfc8785.text, Rfc8785.textList_eq,
        Rfc8785.textList_eq, List.map_map]
      exact congrArg (fun ts => '[' :: [','].intercalate ts ++ [']'])
        (List.map_congr_left fun v hv => ih v hv (h' v hv))
  | hobj ms ih =>
      obtain ⟨hn, hm⟩ : (ms.map Prod.fst).Nodup ∧ AllMembers _ _ ms := h
      have h' := allMembers_iff.mp hm
      have hperm := TypeScript.ownOrder_perm utf16 (reorderMembers ms)
      have htexts : Rfc8785.textMembers (reorderMembers ms) = Rfc8785.textMembers ms := by
        rw [Rfc8785.textMembers_eq, Rfc8785.textMembers_eq, reorderMembers_eq, List.map_map]
        exact List.map_congr_left fun m hm => by rw [← ih m hm (h' m hm).2]; rfl
      have hsort : Rfc8785.sortByName (Rfc8785.textMembers
            (TypeScript.ownOrder utf16 (reorderMembers ms))) =
          Rfc8785.sortByName (Rfc8785.textMembers ms) := by
        apply Rfc8785.eq_sortByName
        · refine (Rfc8785.sortByName_perm _).trans ?_
          rw [← htexts, Rfc8785.textMembers_eq, Rfc8785.textMembers_eq]
          exact hperm.map _
        · apply Rfc8785.sortByName_strict
          rw [Rfc8785.textMembers_eq, List.map_map]
          exact (reorder_names hperm).nodup_iff.mpr hn
      rw [reorder, Rfc8785.text, Rfc8785.text, hsort]
  | _ => rfl

theorem jcsBytes_eq {v : Json Str} (h : Parsed v) :
    serialize TypeScript.Canon.dialect (TypeScript.ofJson v) =
        some (.ok (utf16 (Rfc8785.text v))) ∧
      TypeScript.Canon.jcsBytes (TypeScript.ofJson v) = .ok (Rfc8785.bytes v) := by
  have hs := typescript_serialize (reorder_all h)
  rw [← ofJson_eq, text_reorder (All.imp (fun _ _ => trivial) (fun _ _ => trivial) h)] at hs
  refine ⟨hs, ?_⟩
  rw [TypeScript.Canon.jcsBytes, TypeScript.Canon.jcs, hs]
  exact congrArg Except.ok (encode_utf16 _)

/-! ## Go -/

section Frames
open Go Go.Jcs

/-- At most `n` turns of Go's loop lead from one stack and buffer to another. -/
abbrev GoLeads (n : Nat) (stack : List Frame) (buf : Bytes) (stack' : List Frame)
    (buf' : Bytes) : Prop :=
  FuelLoop.Reaches (fun n (s : List Frame × Bytes) => Go.Jcs.loop n s.1 s.2) n (stack, buf)
    (stack', buf')

/-- A container's frame as the loop sees it: `frame i` is the frame about to
write child `i`, `pre` what it writes before the child. -/
structure Children {X : Type} (frame : Nat → Frame) (xs : List X) (pre : X → Str)
    (child : X → Json Str) (close : Str) : Prop where
  next : ∀ i x, 0 < i → xs[i]? = some x → ∀ n stack buf,
    Go.Jcs.loop (n + 1) (frame i :: stack) buf =
      Go.Jcs.loop n (Frame.new ((child x).map utf8) :: frame (i + 1) :: stack)
        (buf ++ utf8 ([','] ++ pre x))
  done : ∀ i, 0 < i → xs[i]? = none → ∀ n stack buf,
    Go.Jcs.loop (n + 1) (frame i :: stack) buf = Go.Jcs.loop n stack (buf ++ utf8 close)

/-- From a frame that has written `i > 0` children to the frame popped. The
induction is on the children left. -/
theorem Children.leads {X : Type} {frame : Nat → Frame} {xs : List X} {pre : X → Str}
    {child : X → Json Str} {close : Str} (h : Children frame xs pre child close)
    (cost : X → Nat)
    (hchild : ∀ x ∈ xs, ∀ stack buf, GoLeads (cost x) (Frame.new ((child x).map utf8) :: stack) buf
      stack (buf ++ utf8 (Rfc8785.text (child x))))
    (rest : List X) (i : Nat) (hi : 0 < i) (hrest : xs.drop i = rest) (stack : List Frame)
    (buf : Bytes) :
    GoLeads ((rest.map fun x => cost x + 1).sum + 1) (frame i :: stack) buf stack
      (buf ++ utf8 ((rest.flatMap fun x => [','] ++ (pre x ++ Rfc8785.text (child x))) ++ close)) := by
  induction rest generalizing i buf with
  | nil =>
      have hnone : xs[i]? = none := List.getElem?_eq_none (List.drop_eq_nil_iff.mp hrest)
      exact FuelLoop.Reaches.turn fun n => h.done i hi hnone n stack buf
  | cons x rest ih =>
      have hx : xs[i]? = some x := by
        rw [← List.head?_drop, hrest, List.head?_cons]
      have hdrop : xs.drop (i + 1) = rest := by
        rw [← List.tail_drop, hrest, List.tail_cons]
      have h1 : GoLeads 1 (frame i :: stack) buf
          (Frame.new ((child x).map utf8) :: frame (i + 1) :: stack)
          (buf ++ utf8 ([','] ++ pre x)) :=
        FuelLoop.Reaches.turn fun n => h.next i x hi hx n stack buf
      have h2 := hchild x (List.mem_of_getElem? hx) (frame (i + 1) :: stack)
        (buf ++ utf8 ([','] ++ pre x))
      have h3 := ih (i + 1) (Nat.succ_pos i) hdrop
        (buf ++ utf8 ([','] ++ pre x) ++ utf8 (Rfc8785.text (child x)))
      have hall := (h1.trans h2).trans h3
      have hbuf : buf ++ utf8 ([','] ++ pre x) ++ utf8 (Rfc8785.text (child x)) ++
            utf8 ((rest.flatMap fun x => [','] ++ (pre x ++ Rfc8785.text (child x))) ++ close) =
          buf ++ utf8 (((x :: rest).flatMap fun x =>
            [','] ++ (pre x ++ Rfc8785.text (child x))) ++ close) := by
        simp only [← utf8_append, List.append_assoc, List.flatMap_cons]
      rw [hbuf] at hall
      refine hall.mono ?_
      rw [List.map_cons, List.sum_cons]
      omega

/-- A container: opened, its children written, popped. -/
theorem Children.container {X : Type} {frame : Nat → Frame} {xs : List X} {pre : X → Str}
    {child : X → Json Str} {close : Str} (opening : Str) (h : Children frame xs pre child close)
    (cost : X → Nat)
    (hchild : ∀ x ∈ xs, ∀ stack buf, GoLeads (cost x) (Frame.new ((child x).map utf8) :: stack) buf
      stack (buf ++ utf8 (Rfc8785.text (child x))))
    (hfirst : ∀ x, xs[0]? = some x → ∀ n stack buf, Go.Jcs.loop (n + 1) (frame 0 :: stack) buf =
      Go.Jcs.loop n (Frame.new ((child x).map utf8) :: frame 1 :: stack)
        (buf ++ utf8 (opening ++ pre x)))
    (hempty : xs = [] → ∀ n stack buf, Go.Jcs.loop (n + 1) (frame 0 :: stack) buf =
      Go.Jcs.loop n stack (buf ++ utf8 (opening ++ close)))
    (stack : List Frame) (buf : Bytes) :
    GoLeads ((xs.map fun x => cost x + 1).sum + 1) (frame 0 :: stack) buf stack
      (buf ++ utf8 (opening ++ [','].intercalate
        (xs.map fun x => pre x ++ Rfc8785.text (child x)) ++ close)) := by
  cases xs with
  | nil => exact FuelLoop.Reaches.turn fun n => by simpa using hempty rfl n stack buf
  | cons x xs =>
      have h1 : GoLeads 1 (frame 0 :: stack) buf
          (Frame.new ((child x).map utf8) :: frame 1 :: stack) (buf ++ utf8 (opening ++ pre x)) :=
        FuelLoop.Reaches.turn fun n => hfirst x rfl n stack buf
      have h2 := hchild x (List.mem_cons_self ..) (frame 1 :: stack) (buf ++ utf8 (opening ++ pre x))
      have h3 := h.leads cost hchild xs 1 Nat.one_pos rfl stack
        (buf ++ utf8 (opening ++ pre x) ++ utf8 (Rfc8785.text (child x)))
      have hall := (h1.trans h2).trans h3
      have hbuf : buf ++ utf8 (opening ++ pre x) ++ utf8 (Rfc8785.text (child x)) ++
            utf8 ((xs.flatMap fun x => [','] ++ (pre x ++ Rfc8785.text (child x))) ++ close) =
          buf ++ utf8 (opening ++ [','].intercalate
            ((x :: xs).map fun x => pre x ++ Rfc8785.text (child x)) ++ close) := by
        rw [List.map_cons, intercalate_cons, List.flatMap_map]
        simp only [← utf8_append, List.append_assoc]
      rw [hbuf] at hall
      refine hall.mono ?_
      rw [List.map_cons, List.sum_cons]
      omega

theorem goTurnsList_eq (vs : List (Json Bytes)) :
    Go.Jcs.turnsList vs = (vs.map fun v => Go.Jcs.turns v + 1).sum := by
  induction vs with
  | nil => rfl
  | cons v vs ih => rw [Go.Jcs.turnsList, ih, List.map_cons, List.sum_cons]

theorem goTurnsMembers_eq (ms : Members Bytes) :
    Go.Jcs.turnsMembers ms = (ms.map fun m => Go.Jcs.turns m.2 + 1).sum := by
  induction ms with
  | nil => rfl
  | cons m ms ih => rw [Go.Jcs.turnsMembers, ih, List.map_cons, List.sum_cons]

theorem sortMembers_map (ms : Members Str) :
    Go.Jcs.sortMembers (mapMembers utf8 ms) =
      (Rfc8785.sortByName ms).map fun m => (utf8 m.1, m.2.map utf8) := by
  rw [Go.Jcs.sortMembers, mapMembers_eq]
  refine (List.map_insertionSort Rfc8785.nameLe
    (fun a b : Bytes × Json Bytes => Go.Jcs.utf16Less b.1 a.1 = false) _ ms ?_).symm
  intro a _ b _
  rw [Rfc8785.nameLe, ← not_lt, ← goLess_iff, Bool.not_eq_true]

/-- The frame of an array after `i` of its elements. -/
def arrayFrame (vs : List (Json Str)) (i : Nat) : Frame :=
  ⟨.arr (mapList utf8 vs), decide (0 < i), [], i⟩

/-- The frame of an object after `i` of its members. -/
def objectFrame (ms : Members Str) (i : Nat) : Frame :=
  ⟨.obj (mapMembers utf8 ms), decide (0 < i),
    if 0 < i then Go.Jcs.sortMembers (mapMembers utf8 ms) else [], i⟩

theorem getElem?_elements (vs : List (Json Str)) (i : Nat) :
    (mapList utf8 vs)[i]? = vs[i]?.map fun v => v.map utf8 := by
  rw [mapList_eq, List.getElem?_map]

theorem getElem?_members (ms : Members Str) (i : Nat) :
    (Go.Jcs.sortMembers (mapMembers utf8 ms))[i]? =
      (Rfc8785.sortByName ms)[i]?.map fun m => (utf8 m.1, m.2.map utf8) := by
  rw [sortMembers_map, List.getElem?_map]

theorem children_array (vs : List (Json Str)) :
    Children (arrayFrame vs) vs (fun _ => []) id [']'] := by
  have hcomma : lit [','] = utf8 [','] := lit_eq_utf8 (by decide)
  have hclose : lit [']'] = utf8 [']'] := lit_eq_utf8 (by decide)
  constructor
  · intro i v hi hv n stack buf
    simp [arrayFrame, Go.Jcs.loop, getElem?_elements, hv, hi, hcomma]
  · intro i hi hv n stack buf
    simp [arrayFrame, Go.Jcs.loop, getElem?_elements, hv, hi, hclose]

theorem children_object (ms : Members Str) :
    Children (objectFrame ms) (Rfc8785.sortByName ms) (fun m => Rfc8785.quote m.1 ++ [':'])
      Prod.snd ['}'] := by
  have hcomma : lit [','] = utf8 [','] := lit_eq_utf8 (by decide)
  have hcolon : lit [':'] = utf8 [':'] := lit_eq_utf8 (by decide)
  have hclose : lit ['}'] = utf8 ['}'] := lit_eq_utf8 (by decide)
  constructor
  · intro i m hi hm n stack buf
    rw [utf8_append, utf8_append, ← hcomma, ← hcolon, ← writeJSONString_eq]
    simp [objectFrame, Go.Jcs.loop, getElem?_members, hm, hi]
  · intro i hi hm n stack buf
    simp [objectFrame, Go.Jcs.loop, getElem?_members, hm, hi, hclose]

/-- A value is popped with its text written. -/
def Written (v : Json Str) : Prop := ∀ stack buf,
  GoLeads (Go.Jcs.turns (v.map utf8)) (Frame.new (v.map utf8) :: stack) buf stack
    (buf ++ utf8 (Rfc8785.text v))

theorem written_array {vs : List (Json Str)} (ih : ∀ v ∈ vs, Written v) : Written (.arr vs) := by
  intro stack buf
  have hopen : lit ['['] = utf8 ['['] := lit_eq_utf8 (by decide)
  have hclose : lit [']'] = utf8 [']'] := lit_eq_utf8 (by decide)
  have h := (children_array vs).container ['['] (fun v => Go.Jcs.turns (v.map utf8)) ih
    (by
      intro v hv n stack buf
      simp [arrayFrame, Go.Jcs.loop, getElem?_elements, hv, hopen])
    (by
      rintro rfl n stack buf
      rw [utf8_append, ← hopen, ← hclose]
      simp [arrayFrame, Go.Jcs.loop, mapList])
    stack buf
  have hcost : ((mapList utf8 vs).map fun v => Go.Jcs.turns v + 1).sum =
      (vs.map fun v => Go.Jcs.turns (v.map utf8) + 1).sum := by
    rw [mapList_eq, List.map_map]
    rfl
  rw [Rfc8785.text, Rfc8785.textList_eq, Json.map, Go.Jcs.turns, goTurnsList_eq, hcost]
  exact h

theorem written_object {ms : Members Str} (ih : ∀ m ∈ ms, Written m.2) : Written (.obj ms) := by
  intro stack buf
  have hopen : lit ['{'] = utf8 ['{'] := lit_eq_utf8 (by decide)
  have hcolon : lit [':'] = utf8 [':'] := lit_eq_utf8 (by decide)
  have hclose : lit ['}'] = utf8 ['}'] := lit_eq_utf8 (by decide)
  have hperm := Rfc8785.sortByName_perm ms
  have h := (children_object ms).container ['{'] (fun m => Go.Jcs.turns (m.2.map utf8))
    (fun m hm => ih m (hperm.mem_iff.mp hm))
    (by
      intro m hm n stack buf
      rw [utf8_append, utf8_append, ← hopen, ← hcolon, ← writeJSONString_eq]
      simp [objectFrame, Go.Jcs.loop, getElem?_members, hm])
    (by
      intro hnil n stack buf
      rw [utf8_append, ← hopen, ← hclose]
      simp [objectFrame, Go.Jcs.loop, getElem?_members, hnil])
    stack buf
  have hcost : ((mapMembers utf8 ms).map fun m => Go.Jcs.turns m.2 + 1).sum =
      ((Rfc8785.sortByName ms).map fun m => Go.Jcs.turns (m.2.map utf8) + 1).sum := by
    rw [(hperm.map _).sum_eq, mapMembers_eq, List.map_map]
    rfl
  have htext : (Rfc8785.sortByName ms).map (fun m => Rfc8785.quote m.1 ++ [':'] ++
        Rfc8785.text m.2) =
      (Rfc8785.sortByName (Rfc8785.textMembers ms)).map Rfc8785.member := by
    rw [Rfc8785.textMembers_eq, Rfc8785.sortByName_map, List.map_map]
    exact List.map_congr_left fun m _ => List.append_assoc _ _ _
  rw [htext] at h
  rw [Rfc8785.text, Json.map, Go.Jcs.turns, goTurnsMembers_eq, hcost]
  exact h

/-- **Every value is written.** The induction is on the value. -/
theorem written (v : Json Str) : Written v := by
  induction v using Json.induct with
  | hnull =>
      intro stack buf
      exact FuelLoop.Reaches.turn fun n => by
        rw [Rfc8785.text, ← lit_eq_utf8 (by decide)]
        rfl
  | hbool b =>
      intro stack buf
      cases b <;> exact FuelLoop.Reaches.turn fun n => by
        rw [Rfc8785.text, ← lit_eq_utf8 (by decide)]
        rfl
  | hnum x =>
      intro stack buf
      refine FuelLoop.Reaches.turn fun n => ?_
      rw [Rfc8785.text, ← lit_eq_utf8 (ecmaString_ascii x), ← formatNumber_eq]
      rfl
  | hstr s =>
      intro stack buf
      refine FuelLoop.Reaches.turn fun n => ?_
      rw [Rfc8785.text, ← writeJSONString_eq]
      rfl
  | harr vs ih => exact written_array ih
  | hobj ms ih => exact written_object ih

/-- Go's loop ends with the recursive text. -/
theorem goCanonicalize_eq (v : Json Str) :
    Go.Jcs.canonicalize (v.map utf8) = some (Rfc8785.bytes v) := by
  rw [Go.Jcs.canonicalize]
  exact (written v [] []).result (fun m => rfl) (Nat.lt_succ_self _)

end Frames

/-! ## The number texts -/

/-- **Python and Go print the same number text**, the layout of the digits of
the shortest decimal that rounds back: no decimal with fewer digits does, and
none with as many is closer. -/
theorem number_texts (x : Binary64) :
    Python.Jcs.esNumber x = .ok (Decimal.ecmaString x) ∧
    Go.Jcs.formatNumber x = utf8 (Decimal.ecmaString x) ∧
    (x.mag ≠ 0 → Decimal.IsShortest x.mag (Decimal.shortest x.mag)) :=
  ⟨esNumber_eq x, (formatNumber_eq x).trans (lit_eq_utf8 (ecmaString_ascii x)),
    fun h => Decimal.shortest_isShortest x.rep (Nat.pos_of_ne_zero h)⟩

/-! ## The three together -/

/-- What RFC 8785 asks of the listing of an object's members: a permutation
of them in strictly increasing order of the code units of their names. -/
theorem members_listed {ms : Members Str} (h : (ms.map Prod.fst).Nodup) :
    (Rfc8785.sortByName ms).Perm ms ∧
      (Rfc8785.sortByName ms).Pairwise fun a b => Rfc8785.units a.1 < Rfc8785.units b.1 :=
  ⟨Rfc8785.sortByName_perm ms, Rfc8785.sortByName_strict h⟩

/-- **The three canonicalisers terminate with the bytes of the recursive
definition**, on every value the parsers can deliver; the definition lists
the members of every object in strictly increasing order. -/
theorem canonicalisers_agree (v : Json Str) (h : Parsed v) :
    (serialize Python.Jcs.dialect v = some (.ok (Rfc8785.text v)) ∧
      Python.Jcs.canonicalizeBytes v = .ok (Rfc8785.bytes v)) ∧
    Go.Jcs.canonicalize (v.map utf8) = some (Rfc8785.bytes v) ∧
    (serialize TypeScript.Canon.dialect (TypeScript.ofJson v) =
        some (.ok (utf16 (Rfc8785.text v))) ∧
      TypeScript.Canon.jcsBytes (TypeScript.ofJson v) = .ok (Rfc8785.bytes v)) ∧
    ∀ ms : Members Str, (ms.map Prod.fst).Nodup → (Rfc8785.sortByName ms).Perm ms ∧
      (Rfc8785.sortByName ms).Pairwise fun a b => Rfc8785.units a.1 < Rfc8785.units b.1 := by
  have hall : v.All (fun _ => True) fun _ => True :=
    All.imp (fun _ _ => trivial) (fun _ _ => trivial) h
  exact ⟨⟨python_serialize hall, canonicalizeBytes_eq hall⟩, goCanonicalize_eq v, jcsBytes_eq h,
    fun _ hms => members_listed hms⟩

/-- `{"b": 1, "a": [null]}`, whose members are listed the other way round. -/
theorem canonicalisers_agree_two :
    Go.Jcs.canonicalize ((Json.obj [(['b'], .num (Binary64.ofNat53 1 (by decide))),
      (['a'], .arr [.null])] : Json Str).map utf8) =
    some (Rfc8785.bytes (.obj [(['b'], .num (Binary64.ofNat53 1 (by decide))),
      (['a'], .arr [.null])])) := by
  have h : Parsed (.obj [(['b'], .num (Binary64.ofNat53 1 (by decide))), (['a'], .arr [.null])]) :=
    by simp [Parsed, Json.All, Json.AllMembers, Json.AllList, NotNegZero, Binary64.ofNat53]
  exact (canonicalisers_agree _ h).2.1

end SwarmPointer.Jcs
