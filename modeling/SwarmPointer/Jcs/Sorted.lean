import Mathlib.Data.List.Perm.Basic
import SwarmPointer.Jcs.Rfc8785

/-!
# Canonical JSON — values with sorted members

The members of every object listed by name. Two values are the same up to
the order of members exactly when their sorted forms are equal, and the
canonical text is that of the sorted form.

`sorted` is what parsing a canonical text gives back, so it is the bridge
between the two directions: the canonical text of a value and of its sorted
form are one text, and a function that does not see the order of members has
one value on both.
-/

namespace SwarmPointer.Jcs

open Json Rfc8785

mutual

/-- The value with the members of every object sorted by name. -/
def sorted : Json Str → Json Str
  | .arr vs => .arr (sortedList vs)
  | .obj ms => .obj (sortByName (sortedMembers ms))
  | v => v

def sortedList : List (Json Str) → List (Json Str)
  | [] => []
  | v :: vs => sorted v :: sortedList vs

def sortedMembers : Members Str → Members Str
  | [] => []
  | (k, v) :: ms => (k, sorted v) :: sortedMembers ms

end

theorem sortedList_eq (vs : List (Json Str)) : sortedList vs = vs.map sorted := by
  induction vs with
  | nil => rfl
  | cons v vs ih => rw [sortedList, ih, List.map_cons]

theorem sortedMembers_eq (ms : Members Str) :
    sortedMembers ms = ms.map fun m => (m.1, sorted m.2) := by
  induction ms with
  | nil => rfl
  | cons m ms ih => rw [sortedMembers, ih, List.map_cons]

theorem sortedMembers_names (ms : Members Str) :
    (sortedMembers ms).map Prod.fst = ms.map Prod.fst := by
  rw [sortedMembers_eq, List.map_map]
  rfl

/-- Every object has distinct names. -/
abbrev Distinct (v : Json Str) : Prop := v.All (fun _ => True) fun _ => True

theorem sorted_all {p : Binary64 → Prop} {q : Str → Prop} {v : Json Str} (h : v.All p q) :
    (sorted v).All p q := by
  induction v using Json.induct with
  | harr vs ih =>
      have h' := allList_iff.mp (show AllList p q vs from h)
      rw [sorted, sortedList_eq]
      refine allList_iff.mpr fun w hw => ?_
      obtain ⟨v, hv, rfl⟩ := List.mem_map.mp hw
      exact ih v hv (h' v hv)
  | hobj ms ih =>
      obtain ⟨hn, hm⟩ : (ms.map Prod.fst).Nodup ∧ AllMembers p q ms := h
      have h' := allMembers_iff.mp hm
      have hperm := sortByName_perm (sortedMembers ms)
      have hnames := hperm.map Prod.fst
      rw [sortedMembers_names] at hnames
      refine ⟨hnames.nodup_iff.mpr hn, allMembers_iff.mpr fun m hm => ?_⟩
      have hm' := hperm.mem_iff.mp hm
      rw [sortedMembers_eq] at hm'
      obtain ⟨n, hn, rfl⟩ := List.mem_map.mp hm'
      exact ⟨(h' n hn).1, ih n hn (h' n hn).2⟩
  | _ => exact h

/-- Sorting permutes members. -/
theorem same_sorted (v : Json Str) : v.Same (sorted v) := by
  induction v using Json.induct with
  | harr vs ih =>
      rw [sorted, sortedList_eq]
      refine ⟨_, rfl, sameList_iff.mpr ?_⟩
      rw [List.forall₂_map_right_iff, List.forall₂_same]
      exact ih
  | hobj ms ih =>
      rw [sorted, sortedMembers_eq]
      refine ⟨_, _, rfl, (sortByName_perm _).symm, sameMembers_iff.mpr ?_⟩
      rw [List.forall₂_map_right_iff, List.forall₂_same]
      exact fun m hm => ⟨rfl, ih m hm⟩
  | _ => rfl

theorem sortByName_congr {V : Type} {ms ns : List (Str × V)} (hperm : ms.Perm ns)
    (h : (ms.map Prod.fst).Nodup) : sortByName ms = sortByName ns :=
  eq_sortByName ((sortByName_perm ms).trans hperm) (sortByName_strict h)

/-- Lists related entry by entry by having the same image. -/
theorem forall₂_iff_map {α β : Type} {R : α → α → Prop} {f : α → β} {vs ws : List α}
    (h : ∀ v ∈ vs, ∀ w, R v w ↔ f v = f w) : List.Forall₂ R vs ws ↔ vs.map f = ws.map f := by
  induction vs generalizing ws with
  | nil => rw [List.forall₂_nil_left_iff, List.map_nil, List.nil_eq, List.map_eq_nil_iff]
  | cons v vs ih =>
      have ih' : ∀ ws, List.Forall₂ R vs ws ↔ vs.map f = ws.map f := fun _ =>
        ih fun v hv => h v (List.mem_cons_of_mem _ hv)
      cases ws with
      | nil => simp
      | cons w ws =>
          rw [List.forall₂_cons, List.map_cons, List.map_cons, List.cons.injEq, ih',
            h v (List.mem_cons_self ..)]

/-- Permuting one side of equal images is permuting the images. -/
theorem exists_perm_map {α β : Type} {f : α → β} {as : List β} {l : List α} :
    (∃ l' : List α, l'.Perm l ∧ as = l'.map f) ↔ as.Perm (l.map f) := by
  have h := congrFun (congrFun (List.eq_map_comp_perm f) as) l
  rw [← h]
  exact exists_congr fun l' => and_comm

/-- **Same up to order exactly when equal once sorted.** -/
theorem same_iff {v w : Json Str} (h : Distinct v) : v.Same w ↔ sorted v = sorted w := by
  induction v using Json.induct generalizing w with
  | harr vs ih =>
      have h' := allList_iff.mp (show AllList _ _ vs from h)
      have hlist : ∀ ws, SameList vs ws ↔ vs.map sorted = ws.map sorted := fun _ =>
        sameList_iff.trans (forall₂_iff_map fun v hv w => ih v hv (h' v hv))
      constructor
      · rintro ⟨ws, rfl, hs⟩
        rw [sorted, sorted, sortedList_eq, sortedList_eq, (hlist ws).mp hs]
      · intro hs
        cases w with
        | arr ws =>
            rw [sorted, sorted, sortedList_eq, sortedList_eq, Json.arr.injEq] at hs
            exact ⟨ws, rfl, (hlist ws).mpr hs⟩
        | _ => simp [sorted] at hs
  | hobj ms ih =>
      obtain ⟨hn, hm⟩ : (ms.map Prod.fst).Nodup ∧ AllMembers _ _ ms := h
      have h' := allMembers_iff.mp hm
      have hmem : ∀ m ∈ ms, ∀ n : Str × Json Str,
          (m.1 = n.1 ∧ m.2.Same n.2) ↔ (m.1, sorted m.2) = (n.1, sorted n.2) := by
        intro m hm n
        rw [Prod.mk.injEq, ih m hm (h' m hm).2]
      have hperm : ∀ ns : Members Str, (∃ ns' : Members Str, ns'.Perm ns ∧ SameMembers ms ns') ↔
          (sortedMembers ms).Perm (sortedMembers ns) := by
        intro ns
        rw [sortedMembers_eq, sortedMembers_eq, ← exists_perm_map]
        refine exists_congr fun ns' => and_congr_right fun _ => ?_
        rw [sameMembers_iff]
        exact forall₂_iff_map hmem
      constructor
      · rintro ⟨ns, ns', rfl, hp, hs⟩
        rw [sorted, sorted, sortByName_congr ((hperm ns).mp ⟨ns', hp, hs⟩)]
        rwa [sortedMembers_names]
      · intro hs
        cases w with
        | obj ns =>
            rw [sorted, sorted, Json.obj.injEq] at hs
            have hp := (sortByName_perm (sortedMembers ms)).symm.trans
              (hs ▸ sortByName_perm (sortedMembers ns))
            obtain ⟨ns', hp', hs'⟩ := (hperm ns).mpr hp
            exact ⟨ns, ns', rfl, hp', hs'⟩
        | _ => simp [sorted] at hs
  | hnull => cases w <;> simp [Same, sorted]
  | hbool b => cases w <;> simp [Same, sorted, eq_comm]
  | hnum x => cases w <;> simp [Same, sorted, eq_comm]
  | hstr s => cases w <;> simp [Same, sorted, eq_comm]

/-- The canonical text is that of the sorted form. -/
theorem text_sorted {v : Json Str} (h : Distinct v) : text (sorted v) = text v := by
  induction v using Json.induct with
  | harr vs ih =>
      have h' := allList_iff.mp (show AllList _ _ vs from h)
      rw [sorted, sortedList_eq, text, text, textList_eq, textList_eq, List.map_map]
      exact congrArg (fun ts => '[' :: [','].intercalate ts ++ [']'])
        (List.map_congr_left fun v hv => ih v hv (h' v hv))
  | hobj ms ih =>
      obtain ⟨hn, hm⟩ : (ms.map Prod.fst).Nodup ∧ AllMembers _ _ ms := h
      have h' := allMembers_iff.mp hm
      have htexts : textMembers (sortedMembers ms) = textMembers ms := by
        rw [textMembers_eq, textMembers_eq, sortedMembers_eq, List.map_map]
        exact List.map_congr_left fun m hm => by rw [← ih m hm (h' m hm).2]; rfl
      have hsort : sortByName (textMembers (sortByName (sortedMembers ms))) =
          sortByName (textMembers ms) := by
        refine (sortByName_congr ?_ ?_).symm
        · rw [← htexts, textMembers_eq, textMembers_eq]
          exact (sortByName_perm _).symm.map _
        · rw [textMembers_eq, List.map_map]
          exact hn
      rw [sorted, text, text, hsort]
  | _ => rfl

/-- The order in which members are listed does not matter. -/
theorem text_perm {ms ns : Members Str} (hperm : ms.Perm ns) (h : (ms.map Prod.fst).Nodup) :
    text (.obj ms) = text (.obj ns) := by
  have hnames : ((ms.map fun m => (m.1, text m.2)).map Prod.fst).Nodup := by rwa [List.map_map]
  rw [text, text, textMembers_eq, textMembers_eq, sortByName_congr (hperm.map _) hnames]

/-- The text of an object whose members are listed in order. -/
theorem text_members (ms : Members Str) (h : (ms.map fun m => units m.1).Pairwise (· < ·)) :
    text (.obj ms) =
      '{' :: [','].intercalate (ms.map fun m => member (m.1, text m.2)) ++ ['}'] := by
  have hsort : sortByName ms = ms :=
    (eq_sortByName (List.Perm.refl _) (List.pairwise_map.mp h)).symm
  rw [text, textMembers_eq, sortByName_map, hsort, List.map_map]
  rfl

/-- An object whose members are listed in order, at every depth. -/
theorem sorted_listed {ms : Members Str} (h : (ms.map fun m => units m.1).Pairwise (· < ·))
    (hms : ∀ m ∈ ms, sorted m.2 = m.2) : sorted (.obj ms) = .obj ms := by
  have hvalues : sortedMembers ms = ms := by
    rw [sortedMembers_eq, List.map_congr_left fun m hm => congrArg (Prod.mk m.1) (hms m hm)]
    exact List.map_id _
  rw [sorted, hvalues]
  exact congrArg Json.obj (eq_sortByName (List.Perm.refl _) (List.pairwise_map.mp h)).symm

end SwarmPointer.Jcs
