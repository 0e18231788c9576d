import Mathlib.Logic.Relation
import SwarmPointer.Python.Server

/-!
# Relay — the tables over a run

What one transaction can do to the tables, and what holds of them in every
state that requests lead to. A handler touches the tables only in the one
transaction of `add`, so a run of concurrent handlers is the list of their
transactions in commit order.

`adds_cases` is the one place where the transaction is taken apart: whatever
fails, either nothing changes or one row and its advertisement appear. The
invariant `Inv` is derived from that, over runs with arbitrary entries (`Run`);
which entries there can be is said by the requests (`Posts`, `Reachable`), and
what they look like by the modules about admission.
-/

namespace SwarmPointer.Relay

open Python Python.Protocol Python.Server Python.Store

/-! ## One transaction -/

/-- The tables with one more assertion. -/
def insert (row : Row) (db : Db) : Db where
  assertions := db.assertions ++ [row]
  advertised_channels :=
    if row.type = "channel".toList then (insertChannel row.id row.id db).2.advertised_channels
    else db.advertised_channels

theorem execute_runs {t : Transaction} {s : Statement} {f : Db → Nat × Db} {db : Db}
    (h : t.fails s = false) : execute t s f db = .ok (f db) :=
  if_neg (Bool.eq_false_iff.mp h)

theorem insertAssertion_known {row : Row} {db : Db} (h : ∃ r ∈ db.assertions, r.id = row.id) :
    insertAssertion row db = (0, db) :=
  if_pos h

theorem insertAssertion_new {row : Row} {db : Db} (h : ∀ r ∈ db.assertions, r.id ≠ row.id) :
    insertAssertion row db = (1, { db with assertions := db.assertions ++ [row] }) :=
  if_neg fun ⟨r, hr, heq⟩ => h r hr heq

theorem insertChannel_assertions (c i : Str) (db : Db) :
    (insertChannel c i db).2.assertions = db.assertions := by
  rw [insertChannel]
  split <;> rfl

theorem insertChannel_advertised {c i : Str} {db db' : Db}
    (h : db.advertised_channels = db'.advertised_channels) :
    (insertChannel c i db).2.advertised_channels = (insertChannel c i db').2.advertised_channels := by
  rw [insertChannel, insertChannel, h]
  split
  · exact h
  · rfl

/-- The body of the transaction, statement by statement. -/
theorem addBody_eq (t : Transaction) (e : Entry) (db : Db) :
    addBody t e db = (do
      let r ← execute t .insertAssertion (insertAssertion ⟨e, t.seq⟩) db
      if r.1 = 0 then .ok (false, r.2)
      else if e.type = "channel".toList then do
        let r' ← execute t .insertChannel (insertChannel e.id e.id) r.2
        .ok (true, r'.2)
      else .ok (true, r.2)) := by
  rw [addBody]
  change (execute t .insertAssertion (insertAssertion ⟨e, t.seq⟩) db >>= _) = _
  refine Except.bind_congr_ok rfl fun r _ => ?_
  obtain ⟨rowcount, db'⟩ := r
  change (if rowcount = 0 then _ else _ : Txn Bool) db' = _
  by_cases h0 : rowcount = 0
  · rw [if_pos h0, if_pos h0]
    rfl
  rw [if_neg h0, if_neg h0]
  by_cases hc : e.type = "channel".toList
  · rw [if_pos hc, if_pos hc]
    rfl
  · rw [if_neg hc, if_neg hc]
    rfl

/-- A body that returns is either the one of a known identifier or inserts. -/
theorem addBody_ok {t : Transaction} {e : Entry} {db db' : Db} {b : Bool}
    (h : addBody t e db = .ok (b, db')) :
    (∃ r ∈ db.assertions, r.id = e.id) ∧ b = false ∧ db' = db ∨
    (∀ r ∈ db.assertions, r.id ≠ e.id) ∧ b = true ∧ db' = insert ⟨e, t.seq⟩ db := by
  rw [addBody_eq] at h
  obtain ⟨r, hr, h⟩ := Except.bind_eq_ok_iff.mp h
  have hrun : r = insertAssertion ⟨e, t.seq⟩ db := by
    rw [execute] at hr
    split at hr
    · cases hr
    · exact (Except.ok.inj hr).symm
  subst hrun
  by_cases hknown : ∃ r ∈ db.assertions, r.id = e.id
  · rw [insertAssertion_known hknown, if_pos rfl] at h
    obtain ⟨rfl, rfl⟩ := Prod.mk.inj (Except.ok.inj h)
    exact .inl ⟨hknown, rfl, rfl⟩
  · have hnew : ∀ r ∈ db.assertions, r.id ≠ e.id := fun r hr heq => hknown ⟨r, hr, heq⟩
    have hinsert : insertAssertion ⟨e, t.seq⟩ db =
        (1, { db with assertions := db.assertions ++ [⟨e, t.seq⟩] }) := insertAssertion_new hnew
    rw [hinsert, if_neg Nat.one_ne_zero] at h
    refine .inr ⟨hnew, ?_⟩
    split at h
    · rename_i hchannel
      obtain ⟨r', hr', h⟩ := Except.bind_eq_ok_iff.mp h
      rw [execute] at hr'
      split at hr'
      · cases hr'
      · obtain rfl := Except.ok.inj hr'
        obtain ⟨rfl, rfl⟩ := Prod.mk.inj (Except.ok.inj h)
        refine ⟨rfl, ?_⟩
        rw [insert, if_pos hchannel]
        exact congrArg₂ Db.mk (insertChannel_assertions _ _ _) (insertChannel_advertised rfl)
    · rename_i hchannel
      obtain ⟨rfl, rfl⟩ := Prod.mk.inj (Except.ok.inj h)
      refine ⟨rfl, ?_⟩
      rw [insert, if_neg hchannel]

/-- **What `add` can do**: fail and change nothing, find the identifier and
change nothing, or insert the row. -/
theorem add_cases (t : Transaction) (e : Entry) (db : Db) :
    (∃ x, add t e db = (.error x, db)) ∨
    (∃ r ∈ db.assertions, r.id = e.id) ∧ add t e db = (.ok false, db) ∨
    (∀ r ∈ db.assertions, r.id ≠ e.id) ∧ add t e db = (.ok true, insert ⟨e, t.seq⟩ db) := by
  rw [add]
  split
  · exact .inl ⟨_, rfl⟩
  rw [withConn]
  split
  · exact .inl ⟨_, rfl⟩
  rename_i b db' hbody
  split
  · exact .inl ⟨_, rfl⟩
  rcases addBody_ok hbody with ⟨hknown, rfl, rfl⟩ | ⟨hnew, rfl, rfl⟩
  · exact .inr (.inl ⟨hknown, rfl⟩)
  · exact .inr (.inr ⟨hnew, rfl⟩)

/-- A transaction none of whose statements fails returns. -/
theorem add_returns {t : Transaction} (h : ∀ s, t.fails s = false) (e : Entry) (db : Db) :
    ∃ b, (add t e db).1 = .ok b := by
  have hbody : ∃ r, addBody t e db = .ok r := by
    rw [addBody_eq, execute_runs (h _), Except.ok_bind]
    split
    · exact ⟨_, rfl⟩
    split
    · rw [execute_runs (h _), Except.ok_bind]
      exact ⟨_, rfl⟩
    · exact ⟨_, rfl⟩
  obtain ⟨r, hr⟩ := hbody
  rw [add, h, withConn, hr, h]
  exact ⟨r.1, rfl⟩

/-- The call inserts an entry with a new identifier. -/
theorem add_new {t : Transaction} (ht : ∀ s, t.fails s = false) {e : Entry} {db : Db}
    (hnew : ∀ r ∈ db.assertions, r.id ≠ e.id) : add t e db = (.ok true, insert ⟨e, t.seq⟩ db) := by
  obtain ⟨b, hb⟩ := add_returns ht e db
  rcases add_cases t e db with ⟨x, h⟩ | ⟨⟨r, hr, heq⟩, -⟩ | ⟨-, h⟩
  · rw [h] at hb
    cases hb
  · exact absurd heq (hnew r hr)
  · exact h

/-- It leaves a known identifier alone. -/
theorem add_known {t : Transaction} (ht : ∀ s, t.fails s = false) {e : Entry} {db : Db}
    (hknown : ∃ r ∈ db.assertions, r.id = e.id) : add t e db = (.ok false, db) := by
  obtain ⟨b, hb⟩ := add_returns ht e db
  rcases add_cases t e db with ⟨x, h⟩ | ⟨-, h⟩ | ⟨hnew, -⟩
  · rw [h] at hb
    cases hb
  · exact h
  · obtain ⟨r, hr, heq⟩ := hknown
    exact absurd heq (hnew r hr)

/-! ## Runs -/

/-- What AUTOINCREMENT promises of the next `seq`. -/
def Fresh (t : Transaction) (db : Db) : Prop :=
  0 < t.seq ∧ t.seq < 2 ^ 63 ∧ ∀ r ∈ db.assertions, r.seq < t.seq

/-- One call of `add` with an entry in `E`, any statement of it failing or not. -/
inductive Adds (E : Entry → Prop) : Db → Db → Prop
  | add {t : Transaction} {e : Entry} {db : Db} (he : E e) (ht : Fresh t db) :
      Adds E db (add t e db).2

/-- The tables after any number of calls. -/
abbrev Run (E : Entry → Prop) : Db → Db → Prop := Relation.ReflTransGen (Adds E)

variable {E : Entry → Prop}

/-- **A call changes nothing or inserts a row that was not there.** -/
theorem adds_cases {db db' : Db} (h : Adds E db db') : db' = db ∨
    ∃ row : Row, E row.toEntry ∧ (0 < row.seq ∧ row.seq < 2 ^ 63 ∧ ∀ r ∈ db.assertions, r.seq < row.seq) ∧
      (∀ r ∈ db.assertions, r.id ≠ row.id) ∧ db' = insert row db := by
  cases h with
  | @add t e _ he ht =>
      rcases add_cases t e db with ⟨x, h⟩ | ⟨-, h⟩ | ⟨hnew, h⟩
      · rw [h]
        exact .inl rfl
      · rw [h]
        exact .inl rfl
      · rw [h]
        exact .inr ⟨⟨e, t.seq⟩, he, ht, hnew, rfl⟩

/-- **Every row is an entry that was added.** -/
theorem run_rows {db db' : Db} (h : Run E db db') (hdb : ∀ r ∈ db.assertions, E r.toEntry) :
    ∀ r ∈ db'.assertions, E r.toEntry := by
  induction h with
  | refl => exact hdb
  | tail _ hs ih =>
      rcases adds_cases hs with rfl | ⟨row, he, -, -, rfl⟩
      · exact ih
      · intro r hr
        rcases List.mem_append.mp hr with hr | hr
        · exact ih r hr
        · obtain rfl := List.mem_singleton.mp hr
          exact he

/-- **Rows stay**: later tables have the earlier rows and further ones after them. -/
theorem run_prefix {db db' : Db} (h : Run E db db') : db.assertions <+: db'.assertions := by
  induction h with
  | refl => exact List.prefix_rfl
  | tail _ hs ih =>
      rcases adds_cases hs with rfl | ⟨row, -, -, -, rfl⟩
      · exact ih
      · exact ih.trans (List.prefix_append _ _)

/-! ## The invariant -/

/-- The rows of channel descriptions. -/
def descriptions (db : Db) : List Row := db.assertions.filter fun r => r.type = "channel".toList

/-- What holds of the tables between transactions. -/
structure Inv (db : Db) : Prop where
  seqs : db.assertions.Pairwise fun a b => a.seq < b.seq
  range : ∀ r ∈ db.assertions, 0 < r.seq ∧ r.seq < 2 ^ 63
  ids : (db.assertions.map fun r => r.id).Nodup
  advertised : db.advertised_channels = (descriptions db).map fun r => (r.id, r.id)

theorem inv_empty : Inv Db.empty := ⟨List.Pairwise.nil, nofun, List.nodup_nil, rfl⟩

theorem descriptions_insert (row : Row) (db : Db) : descriptions (insert row db) =
    descriptions db ++ if row.type = "channel".toList then [row] else [] := by
  rw [descriptions, insert, List.filter_append]
  refine congrArg (descriptions db ++ ·) ?_
  by_cases h : row.type = "channel".toList
  · rw [if_pos h, List.filter_singleton, h]
    rfl
  · rw [if_neg h, List.filter_singleton, decide_eq_false h]
    rfl

theorem insert_inv {row : Row} {db : Db} (h : Inv db)
    (hseq : 0 < row.seq ∧ row.seq < 2 ^ 63 ∧ ∀ r ∈ db.assertions, r.seq < row.seq)
    (hnew : ∀ r ∈ db.assertions, r.id ≠ row.id) : Inv (insert row db) where
  seqs := List.pairwise_append.mpr ⟨h.seqs, List.pairwise_singleton _ _, fun a ha b hb => by
    obtain rfl := List.mem_singleton.mp hb
    exact hseq.2.2 a ha⟩
  range := fun r hr => (List.mem_append.mp hr).elim (h.range r) fun hr => by
    obtain rfl := List.mem_singleton.mp hr
    exact ⟨hseq.1, hseq.2.1⟩
  ids := by
    rw [insert, List.map_append, List.nodup_append]
    refine ⟨h.ids, List.nodup_singleton _, fun a ha b hb => ?_⟩
    obtain ⟨r, hr, rfl⟩ := List.mem_map.mp ha
    obtain rfl := List.mem_singleton.mp hb
    exact hnew r hr
  advertised := by
    rw [descriptions_insert, List.map_append, insert]
    by_cases hc : row.type = "channel".toList
    · -- the new channel cannot be listed yet: its identifier is on no row
      have hfresh : ¬ ∃ ac ∈ db.advertised_channels, ac.1 = row.id := by
        rintro ⟨ac, hac, heq⟩
        rw [h.advertised] at hac
        obtain ⟨r, hr, rfl⟩ := List.mem_map.mp hac
        exact hnew r (List.mem_of_mem_filter hr) heq
      rw [if_pos hc, if_pos hc, insertChannel, if_neg hfresh, h.advertised]
      rfl
    · rw [if_neg hc, if_neg hc, h.advertised, List.map_nil, List.append_nil]

theorem adds_inv {db db' : Db} (h : Inv db) (hs : Adds E db db') : Inv db' := by
  rcases adds_cases hs with rfl | ⟨row, -, hseq, hnew, rfl⟩
  · exact h
  · exact insert_inv h hseq hnew

/-- **The invariant holds along every run.** -/
theorem run_inv {db db' : Db} (h : Inv db) (hr : Run E db db') : Inv db' := by
  induction hr with
  | refl => exact h
  | tail _ hs ih => exact adds_inv ih hs

/-! ## Requests -/

/-- One POST among those that `posts` describes. -/
inductive Posts (I : Imports) (posts : Config → PostRequest → Prop) : Db → Db → Prop
  | post {cfg : Config} {req : PostRequest} {t : Transaction} {db : Db} (hp : posts cfg req)
      (ht : Fresh t db) : Posts I posts db (doPost I cfg req t db).2

/-- The tables of a relay that started empty, after any number of POSTs. -/
def Reachable (I : Imports) (posts : Config → PostRequest → Prop) : Db → Prop :=
  Relation.ReflTransGen (Posts I posts) Db.empty

/-- The entries that the POSTs lead to. -/
def Admitted (I : Imports) (posts : Config → PostRequest → Prop) (e : Entry) : Prop :=
  ∃ cfg req, posts cfg req ∧ postEntry I cfg req = .ok e

variable {I : Imports} {posts : Config → PostRequest → Prop}

/-- What is reached with some requests is reached when more are allowed. -/
theorem reachable_mono {posts' : Config → PostRequest → Prop} {db : Db}
    (h : Reachable I posts db) (himp : ∀ cfg req, posts cfg req → posts' cfg req) :
    Reachable I posts' db := by
  induction h with
  | refl => exact .refl
  | tail _ hs ih =>
      cases hs with
      | post hp ht => exact ih.tail (.post (himp _ _ hp) ht)

/-- A POST leaves the tables alone or is one call of `add`. -/
theorem posts_cases {db db' : Db} (h : Posts I posts db db') :
    db' = db ∨ Adds (Admitted I posts) db db' := by
  cases h with
  | @post cfg req t _ hp ht =>
      rw [doPost]
      split
      · exact .inl rfl
      · exact .inl rfl
      rename_i e he
      have hadd : Adds (Admitted I posts) db (add t e db).2 := .add ⟨cfg, req, hp, he⟩ ht
      generalize add t e db = result at hadd
      obtain ⟨inserted | inserted, db'⟩ := result
      · exact .inr hadd
      · exact .inr hadd

/-- **A POST whose transaction does not fail** inserts the entry or reports it as known. -/
theorem doPost_new {cfg : Config} {req : PostRequest} {t : Transaction} {db : Db} {e : Entry}
    (he : postEntry I cfg req = .ok e) (ht : ∀ s, t.fails s = false)
    (hnew : ∀ r ∈ db.assertions, r.id ≠ e.id) :
    doPost I cfg req t db = (some ⟨200, .submitted e.id false⟩, insert ⟨e, t.seq⟩ db) := by
  rw [doPost, he]
  simp only [add_new ht hnew]
  rfl

theorem doPost_known {cfg : Config} {req : PostRequest} {t : Transaction} {db : Db} {e : Entry}
    (he : postEntry I cfg req = .ok e) (ht : ∀ s, t.fails s = false)
    (hknown : ∃ r ∈ db.assertions, r.id = e.id) :
    doPost I cfg req t db = (some ⟨200, .submitted e.id true⟩, db) := by
  rw [doPost, he]
  simp only [add_known ht hknown]
  rfl

theorem reachable_run {db : Db} (h : Reachable I posts db) : Run (Admitted I posts) Db.empty db := by
  induction h with
  | refl => exact .refl
  | tail _ hs ih =>
      rcases posts_cases hs with rfl | hadd
      · exact ih
      · exact ih.tail hadd

theorem reachable_inv {db : Db} (h : Reachable I posts db) : Inv db :=
  run_inv inv_empty (reachable_run h)

theorem reachable_rows {db : Db} (h : Reachable I posts db) :
    ∀ r ∈ db.assertions, Admitted I posts r.toEntry :=
  run_rows (reachable_run h) nofun

end SwarmPointer.Relay
