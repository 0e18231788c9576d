import SwarmPointer.Lib.Keyset
import SwarmPointer.Relay.Cursor
import SwarmPointer.Relay.Tables

/-!
# Relay — reading lists page by page

The three lists of the relay, and what a client gets that follows `next`
from page to page while assertions are being added: the rows of a keyset
walk over the snapshots it read.

`read` is the page as the query returns it, before it is written as JSON, and
`follow` a client that reads page after page. The page size is a parameter with
one bound: the query asks for one row more than the page, and that number has
to fit 64 bits.
-/

namespace SwarmPointer.Relay

open Python Python.Protocol Python.Server Python.Store

/-! ## The lists -/

/-- A list route. -/
inductive Listing
  | channel (hexid : Str) (h : HEX64 hexid = true)
  | object (hexid : Str) (h : HEX64 hexid = true)
  | advertised

namespace Listing

/-- The path of the list. -/
def path : Listing → Str
  | channel hexid _ => "/v1/channels/sha256/".toList ++ hexid ++ "/assertions".toList
  | object hexid _ => "/v1/objects/sha256/".toList ++ hexid ++ "/assertions".toList
  | advertised => "/v1/channels".toList

/-- The rows its query selects. -/
def rows (db : Db) : Listing → List Row
  | channel hexid _ => channelRows db hexid
  | object hexid _ => objectRows db hexid
  | advertised => advertisedRows db

/-- What the list is of. -/
def Matches : Listing → Row → Prop
  | channel hexid _, r => r.channel = some ("sha256:".toList ++ hexid)
  | object hexid _, r => r.object_hash = some ("sha256:".toList ++ hexid)
  | advertised, r => r.type = "channel".toList

instance (l : Listing) (r : Row) : Decidable (l.Matches r) := by
  cases l <;> exact inferInstanceAs (Decidable (_ = _))

/-- The items of a page as they are sent. -/
def items (rows : List Row) : Listing → Bytes
  | advertised => idList (rows.map fun r => r.id)
  | _ => blobList (rows.map fun r => r.envelope)

end Listing

/-- One page: what `do_GET` reads from the tables for a cursor. -/
def read (cfg : Config) (l : Listing) (db : Db) (cursor : Option Str) :
    Py (List Row × Option Str) := do
  page (pageSize cfg.page_size) (l.rows db) (← cursor.elim (.ok 0) decodeCursor)

/-- The pages a client gets that follows `next`, each read from the next
tables, and whether the last one had none. -/
def follow (cfg : Config) (l : Listing) : Option Str → List Db → Py (List (List Row) × Bool)
  | _, [] => .ok ([], false)
  | cursor, db :: dbs => do
      let (rows, nxt) ← read cfg l db cursor
      match nxt with
      | none => .ok ([rows], true)
      | some token => do
          let (pages, done) ← follow cfg l (some token) dbs
          .ok (rows :: pages, done)

/-! ## Routes -/

theorem hex64_no_slash {s : Str} (h : HEX64 s = true) : '/' ∉ s := by
  intro hmem
  rw [HEX64, Bool.and_eq_true] at h
  exact absurd (List.all_eq_true.mp h.2 _ hmem) (by decide)

theorem stripBy_slash {c d : Char} (hc : c ≠ '/') (hd : d ≠ '/') (s : Str) :
    stripBy (· = '/') ('/' :: c :: (s ++ [d])) = c :: (s ++ [d]) := by
  rw [stripBy, List.dropWhile_cons, if_pos (decide_eq_true rfl), List.dropWhile_cons,
    if_neg (by simpa using hc), ← List.cons_append, List.reverse_append, List.reverse_singleton,
    List.singleton_append, List.dropWhile_cons, if_neg (by simpa using hd), List.reverse_cons,
    List.reverse_reverse]

/-- The parts of the path of a list of assertions. -/
theorem pathParts_list (kind : Str) (hkind : '/' ∉ kind) {hexid : Str} (h : HEX64 hexid = true) :
    pathParts ("/v1/".toList ++ kind ++ "/sha256/".toList ++ hexid ++ "/assertions".toList) =
      ["v1".toList, kind, "sha256".toList, hexid, "assertions".toList] := by
  have hstrip : stripBy (· = '/') ("/v1/".toList ++ kind ++ "/sha256/".toList ++ hexid ++
      "/assertions".toList) =
      "v1".toList ++ '/' :: (kind ++ '/' :: ("sha256".toList ++ '/' :: (hexid ++
        '/' :: "assertions".toList))) := by
    have hends := stripBy_slash (c := 'v') (d := 's') (by decide) (by decide)
      ('1' :: '/' :: (kind ++ "/sha256/".toList ++ hexid ++ "/assertion".toList))
    simpa [List.append_assoc] using hends
  have split : ∀ {s t : Str}, '/' ∉ s → (s ++ '/' :: t).splitOn '/' = s :: t.splitOn '/' := by
    intro s t hs
    rw [List.splitOn_append_cons_of_beq s t (beq_self_eq_true '/'), List.splitOn_eq_singleton hs]
    rfl
  rw [pathParts, hstrip, split (by decide), split hkind, split (by decide),
    split (hex64_no_slash h), List.splitOn_eq_singleton (by decide)]

/-- The path of a list of assertions is none of the fixed routes. -/
theorem route_list (cfg : Config) (db : Db) {kind hexid : Str} (hkind : '/' ∉ kind)
    (h : HEX64 hexid = true) (k : Nat) :
    route cfg db ("/v1/".toList ++ kind ++ "/sha256/".toList ++ hexid ++ "/assertions".toList) k =
      routeParts (pageSize cfg.page_size) db
        ["v1".toList, kind, "sha256".toList, hexid, "assertions".toList] k := by
  have hlen : 64 < ("/v1/".toList ++ kind ++ "/sha256/".toList ++ hexid ++
      "/assertions".toList).length := by
    rw [HEX64, Bool.and_eq_true, decide_eq_true_eq] at h
    rw [List.length_append, List.length_append, h.1]
    exact Nat.lt_of_lt_of_le (by decide : 64 < 64 + 1) (by simp)
  rw [route, if_neg, if_neg, pathParts_list kind hkind h]
  · intro heq
    rw [heq] at hlen
    exact absurd hlen (by decide)
  · intro heq
    rw [heq] at hlen
    exact absurd hlen (by decide)

theorem assertionRoute_list (kind hexid last : Str) :
    assertionRoute ["v1".toList, kind, "sha256".toList, hexid, last] = none := by
  rw [assertionRoute]
  split <;> rfl

theorem listRoute_list (kind hexid : Str) :
    listRoute kind ["v1".toList, kind, "sha256".toList, hexid, "assertions".toList] = some hexid := by
  rw [listRoute, List.take, List.take, List.take, List.take, if_pos rfl]
  exact if_pos rfl

theorem listRoute_other {kind kind' : Str} (h : kind' ≠ kind) (hexid : Str) :
    listRoute kind ["v1".toList, kind', "sha256".toList, hexid, "assertions".toList] = none := by
  rw [listRoute, if_neg]
  intro heq
  rw [List.take, List.take, List.cons.injEq, List.cons.injEq] at heq
  exact h heq.2.1

/-- **The two lists of assertions.** -/
theorem route_channel {cfg : Config} {db : Db} {hexid : Str} (h : HEX64 hexid = true) (k : Nat) :
    route cfg db (Listing.path (.channel hexid h)) k =
      getList (channelAssertions (pageSize cfg.page_size) db hexid k) hexid := by
  have hpath := route_list cfg db (show '/' ∉ "channels".toList by decide) h k
  rw [routeParts, assertionRoute_list, listRoute_list] at hpath
  exact hpath

theorem route_object {cfg : Config} {db : Db} {hexid : Str} (h : HEX64 hexid = true) (k : Nat) :
    route cfg db (Listing.path (.object hexid h)) k =
      getList (objectAssertions (pageSize cfg.page_size) db hexid k) hexid := by
  have hpath := route_list cfg db (show '/' ∉ "objects".toList by decide) h k
  rw [routeParts, assertionRoute_list, listRoute_other (by decide), listRoute_list] at hpath
  exact hpath

theorem route_advertised (cfg : Config) (db : Db) (k : Nat) :
    route cfg db (Listing.path .advertised) k =
      getChannels (advertisedChannels (pageSize cfg.page_size) db k) := by
  have hne : Listing.path .advertised ≠ "/.well-known/spp".toList := by decide
  rw [route, if_neg hne]
  exact if_pos rfl

theorem getChannels_of {query : Py (List Str × Option Str)} {ids : List Str} {nxt : Option Str}
    (hq : query = .ok (ids, nxt)) : getChannels query = .ok (ok (listBody (idList ids) nxt)) := by
  rw [getChannels, hq]
  rfl

theorem getList_of {query : Py (List Bytes × Option Str)} {hexid : Str} (h : HEX64 hexid = true)
    {blobs : List Bytes} {nxt : Option Str} (hq : query = .ok (blobs, nxt)) :
    getList query hexid = .ok (ok (listBody (blobList blobs) nxt)) := by
  rw [getList, if_pos h, hq]
  rfl

/-- **The reply to a list request is the page that `read` returns.** -/
theorem doGet_list {cfg : Config} {l : Listing} {db : Db} {cursor : Option Str} {rows : List Row}
    {nxt : Option Str} (h : read cfg l db cursor = .ok (rows, nxt)) :
    doGet cfg db l.path cursor = some (ok (listBody (l.items rows) nxt)) := by
  obtain ⟨k, hk, h⟩ := Except.bind_eq_ok_iff.mp h
  have hroute : route cfg db l.path k = .ok (ok (listBody (l.items rows) nxt)) := by
    cases l with
    | channel hexid hhex =>
        have hrows : channelAssertions (pageSize cfg.page_size) db hexid k =
            .ok (rows.map fun r => r.envelope, nxt) :=
          Except.bind_eq_ok_iff.mpr ⟨_, h, rfl⟩
        exact (route_channel hhex k).trans (getList_of hhex hrows)
    | object hexid hhex =>
        have hrows : objectAssertions (pageSize cfg.page_size) db hexid k =
            .ok (rows.map fun r => r.envelope, nxt) :=
          Except.bind_eq_ok_iff.mpr ⟨_, h, rfl⟩
        exact (route_object hhex k).trans (getList_of hhex hrows)
    | advertised =>
        have hrows : advertisedChannels (pageSize cfg.page_size) db k =
            .ok (rows.map fun r => r.id, nxt) :=
          Except.bind_eq_ok_iff.mpr ⟨_, h, rfl⟩
        exact (route_advertised cfg db k).trans (getChannels_of hrows)
  rw [doGet, hk]
  simp only [hroute]
  rfl

/-! ## Rows -/

theorem filter_id {rows : List Row} (h : (rows.map fun r => r.id).Nodup) {r : Row} (hr : r ∈ rows) :
    (rows.filter fun a => a.id = r.id) = [r] := by
  induction rows with
  | nil => cases hr
  | cons a rows ih =>
      rw [List.map_cons, List.nodup_cons] at h
      rcases List.mem_cons.mp hr with rfl | hr
      · rw [List.filter_cons_of_pos (by simp)]
        refine congrArg (r :: ·) (List.filter_eq_nil_iff.mpr fun b hb => ?_)
        rw [decide_eq_true_eq]
        intro heq
        exact h.1 (List.mem_map.mpr ⟨b, hb, heq⟩)
      · have hne : a.id ≠ r.id := fun heq => h.1 (List.mem_map.mpr ⟨r, hr, heq.symm⟩)
        rw [List.filter_cons_of_neg (by simpa using hne), ih h.2 hr]

/-- The join lists the channel descriptions. -/
theorem advertisedRows_eq {db : Db} (h : Inv db) : advertisedRows db = descriptions db := by
  have join : ∀ rs : List Row, (∀ r ∈ rs, r ∈ db.assertions) →
      (rs.map fun r => (r.id, r.id)).flatMap
        (fun ac : Str × Str => db.assertions.filter fun a => a.id = ac.2) = rs := by
    intro rs hrs
    induction rs with
    | nil => rfl
    | cons r rs ih =>
        rw [List.map_cons, List.flatMap_cons, filter_id h.ids (hrs r (List.mem_cons_self ..)),
          ih fun r hr => hrs r (List.mem_cons_of_mem _ hr)]
        rfl
  rw [advertisedRows, h.advertised]
  exact join _ fun r hr => List.mem_of_mem_filter hr

theorem Listing.rows_eq (l : Listing) {db : Db} (h : Inv db) :
    l.rows db = db.assertions.filter fun r => l.Matches r := by
  cases l with
  | channel hexid _ => rfl
  | object hexid _ => rfl
  | advertised => exact advertisedRows_eq h

/-- Rows under their keys. -/
def keyed (rows : List Row) : List (Nat × Row) := rows.map fun r => (r.seq, r)

theorem keyed_sorted {rows : List Row} (h : rows.Pairwise fun a b => a.seq < b.seq) :
    Keyset.Sorted (keyed rows) :=
  List.pairwise_map.mpr h

theorem after_keyed (k : Nat) (rows : List Row) :
    Keyset.after k (keyed rows) = keyed (rows.filter fun r => k < r.seq) := by
  rw [Keyset.after, keyed, List.filter_map]
  rfl

theorem rows_sorted (l : Listing) {db : Db} (h : Inv db) :
    (l.rows db).Pairwise fun a b => a.seq < b.seq := by
  rw [l.rows_eq h]
  exact h.seqs.filter _

theorem mem_rows {l : Listing} {db : Db} (h : Inv db) {r : Row} (hr : r ∈ l.rows db) :
    r ∈ db.assertions := by
  rw [l.rows_eq h] at hr
  exact List.mem_of_mem_filter hr

/-- **A page is a keyset page.** -/
theorem page_eq {size : PageSize} (hsize : size.1 + 1 < 2 ^ 63) {rows : List Row}
    (hrows : rows.Pairwise fun a b => a.seq < b.seq) {k : Nat} (hk : k < 2 ^ 63) :
    page size rows k = .ok ((Keyset.page size k (keyed rows)).1.map Prod.snd,
      (Keyset.page size k (keyed rows)).2.map encodeCursor) := by
  have hsorted : ((rows.filter fun r => k < r.seq).insertionSort fun a b => a.seq ≤ b.seq) =
      rows.filter fun r => k < r.seq :=
    List.Pairwise.insertionSort_eq ((hrows.filter _).imp le_of_lt)
  have hsnd : ∀ rs : List Row, (keyed rs).map Prod.snd = rs := fun rs => by
    rw [keyed, List.map_map]
    exact List.map_id rs
  have htake : ∀ (n : Nat) (rs : List Row), (keyed rs).take n = keyed (rs.take n) := fun n rs =>
    List.map_take.symm
  have hselect : select size rows k =
      .ok ((rows.filter fun r => k < r.seq).take (size.1 + 1)) := by
    rw [select, parameter, if_pos hk, parameter, if_pos hsize, Except.ok_bind, Except.ok_bind,
      hsorted]
  have hlast : ∀ rs : List Row, ((keyed rs).getLast?.map Prod.fst).map encodeCursor =
      rs.getLast?.map fun r => encodeCursor r.seq := fun rs => by
    rw [keyed, List.getLast?_map, Option.map_map, Option.map_map]
    rfl
  rw [page, hselect, Except.ok_bind, Keyset.page, after_keyed, htake]
  generalize (rows.filter fun r => k < r.seq).take (size.1 + 1) = sel
  have hlen : (keyed sel).length = sel.length := List.length_map _
  rw [paginate, htake, hsnd, hlen, apply_ite (Option.map encodeCursor), hlast]
  rfl

/-! ## Following `next` -/

/-- What a traversal sees of its list. -/
def snapshots (l : Listing) (dbs : List Db) : List (List (Nat × Row)) :=
  dbs.map fun db => keyed (l.rows db)

theorem read_eq {cfg : Config} (hsize : (pageSize cfg.page_size).1 + 1 < 2 ^ 63) (l : Listing)
    {db : Db} (h : Inv db) {cursor : Option Str} {k : Nat}
    (hcursor : cursor.elim (.ok 0) decodeCursor = .ok k) (hk : k < 2 ^ 63) :
    read cfg l db cursor =
      .ok ((Keyset.page (pageSize cfg.page_size) k (keyed (l.rows db))).1.map Prod.snd,
        (Keyset.page (pageSize cfg.page_size) k (keyed (l.rows db))).2.map encodeCursor) := by
  rw [read, hcursor]
  exact page_eq hsize (rows_sorted l h) hk

/-- **Following `next` is a keyset walk.** -/
theorem follow_walk {cfg : Config} (hsize : (pageSize cfg.page_size).1 + 1 < 2 ^ 63) (l : Listing)
    {dbs : List Db} (h : ∀ db ∈ dbs, Inv db) {cursor : Option Str} {k : Nat}
    (hcursor : cursor.elim (.ok 0) decodeCursor = .ok k) (hk : k < 2 ^ 63) :
    follow cfg l cursor dbs =
      .ok ((Keyset.walk (pageSize cfg.page_size) k (snapshots l dbs)).1.map (List.map Prod.snd),
        (Keyset.walk (pageSize cfg.page_size) k (snapshots l dbs)).2) := by
  induction dbs generalizing cursor k with
  | nil => rfl
  | cons db dbs ih =>
      have hdb := h db (List.mem_cons_self ..)
      rw [follow, read_eq hsize l hdb hcursor hk, Except.ok_bind, snapshots, List.map_cons,
        Keyset.walk]
      cases hnext : (Keyset.page (pageSize cfg.page_size) k (keyed (l.rows db))).2 with
      | none => rfl
      | some j =>
          -- the next cursor is the key of a row, so it fits and decodes
          obtain ⟨-, hlast⟩ := Keyset.page_more hnext
          obtain ⟨-, r, hr, rfl⟩ := Keyset.last_key hlast
          obtain ⟨row, hrow, rfl⟩ := List.mem_map.mp
            (Keyset.mem_after.mp (List.mem_of_mem_take hr)).1
          have hj : row.seq < 2 ^ 63 := (hdb.range row (mem_rows hdb hrow)).2
          have hcursor' : (some (encodeCursor row.seq)).elim (.ok 0) decodeCursor = .ok row.seq :=
            decodeCursor_encodeCursor hj
          rw [Option.map_some]
          simp only
          rw [ih (fun db' hdb' => h db' (List.mem_cons_of_mem _ hdb')) hcursor' hj]
          rfl

theorem grows_rows {E : Entry → Prop} (l : Listing) {db db' : Db} (h : Inv db)
    (hr : Run E db db') : Keyset.Grows (keyed (l.rows db)) (keyed (l.rows db')) := by
  have h' := run_inv h hr
  refine ⟨keyed_sorted (rows_sorted l h'), ?_⟩
  obtain ⟨new, hnew⟩ := run_prefix hr
  rw [l.rows_eq h, l.rows_eq h', ← hnew, List.filter_append, keyed, keyed, List.map_append]
  exact List.prefix_append _ _

theorem chain_inv {E : Entry → Prop} {db : Db} {dbs : List Db} (h : Inv db)
    (hc : (db :: dbs).IsChain (Run E)) : ∀ db' ∈ db :: dbs, Inv db' := by
  induction dbs generalizing db with
  | nil =>
      intro db' hdb'
      obtain rfl := List.mem_singleton.mp hdb'
      exact h
  | cons d dbs ih =>
      have hstep : Run E db d := List.rel_of_isChain_cons_cons hc
      intro db' hdb'
      rcases List.mem_cons.mp hdb' with rfl | hdb'
      · exact h
      · exact ih (run_inv h hstep) (List.isChain_of_isChain_cons hc) db' hdb'

theorem snapshots_chain {E : Entry → Prop} (l : Listing) {db : Db} {dbs : List Db} (h : Inv db)
    (hc : (db :: dbs).IsChain (Run E)) : Keyset.Snapshots (snapshots l (db :: dbs)) := by
  have hinv := chain_inv h hc
  constructor
  · intro rows hrows
    obtain ⟨d, hd, rfl⟩ := List.mem_map.mp hrows
    exact keyed_sorted (rows_sorted l (hinv d hd))
  · rw [snapshots, List.isChain_map]
    refine hc.imp_of_mem_imp fun a b ha _ hab => ?_
    exact grows_rows l (hinv a ha) hab

/-- The rows of the pages of a walk. -/
theorem flatten_snd (pages : List (List (Nat × Row))) :
    (pages.map (List.map Prod.snd)).flatten = pages.flatten.map Prod.snd :=
  List.map_flatten.symm

/-- The rows a walk lists are under their own `seq` and come from a snapshot. -/
theorem mem_walk {l : Listing} {size k : Nat} {dbs : List Db} {x : Nat × Row}
    (hx : x ∈ (Keyset.walk size k (snapshots l dbs)).1.flatten) :
    x.1 = x.2.seq ∧ ∃ db ∈ dbs, x.2 ∈ l.rows db := by
  induction dbs generalizing k with
  | nil => cases hx
  | cons db dbs ih =>
      have hpage : x ∈ (Keyset.page size k (keyed (l.rows db))).1 →
          x.1 = x.2.seq ∧ ∃ d ∈ db :: dbs, x.2 ∈ l.rows d := by
        intro hx
        rw [Keyset.page_rows] at hx
        obtain ⟨row, hrow, rfl⟩ := List.mem_map.mp (Keyset.mem_after.mp (List.mem_of_mem_take hx)).1
        exact ⟨rfl, db, List.mem_cons_self .., hrow⟩
      rw [snapshots, List.map_cons, Keyset.walk] at hx
      split at hx
      · rw [List.flatten_singleton] at hx
        exact hpage hx
      · rw [List.flatten_cons, List.mem_append] at hx
        rcases hx with hx | hx
        · exact hpage hx
        · obtain ⟨hkey, d, hd, hrow⟩ := ih hx
          exact ⟨hkey, d, List.mem_cons_of_mem _ hd, hrow⟩

theorem cursor_start : (none : Option Str).elim (.ok 0 : Py Nat) decodeCursor = .ok 0 := rfl

/-- A page that was read was asked for with a limit that fits. -/
theorem read_size {cfg : Config} {l : Listing} {db : Db} {cursor : Option Str}
    {result : List Row × Option Str} (h : read cfg l db cursor = .ok result) :
    (pageSize cfg.page_size).1 + 1 < 2 ^ 63 := by
  obtain ⟨_, _, hpage⟩ := Except.bind_eq_ok_iff.mp h
  obtain ⟨_, hselect, _⟩ := Except.bind_eq_ok_iff.mp hpage
  obtain ⟨_, _, hselect⟩ := Except.bind_eq_ok_iff.mp hselect
  obtain ⟨_, hlimit, _⟩ := Except.bind_eq_ok_iff.mp hselect
  rw [parameter] at hlimit
  split at hlimit
  · rename_i hlt
    exact hlt
  · cases hlimit

/-- **A page without `next` leaves no row out**: every matching row after its
cursor is on it. -/
theorem read_last {cfg : Config} {l : Listing} {db : Db} (h : Inv db) {cursor : Option Str}
    {rows : List Row} {k : Nat} (hcursor : cursor.elim (.ok 0) decodeCursor = .ok k)
    (hread : read cfg l db cursor = .ok (rows, none)) :
    ∀ r ∈ db.assertions, l.Matches r → k < r.seq → r ∈ rows := by
  intro r hr hm hlt
  have hk : k < 2 ^ 63 := hlt.trans (h.range r hr).2
  rw [read_eq (read_size hread) l h hcursor hk] at hread
  obtain ⟨hrows, hnext⟩ := Prod.mk.inj (Except.ok.inj hread)
  rw [Option.map_eq_none_iff] at hnext
  rw [← hrows, Keyset.page_last (pageSize cfg.page_size).2 hnext]
  have hmem : r ∈ l.rows db := by
    rw [l.rows_eq h, List.mem_filter]
    exact ⟨hr, decide_eq_true hm⟩
  exact List.mem_map.mpr ⟨(r.seq, r), Keyset.mem_after.mpr
    ⟨List.mem_map.mpr ⟨r, hmem, rfl⟩, hlt⟩, rfl⟩

/-- Without additions a traversal that ends lists the matching rows. -/
theorem follow_static {cfg : Config} {l : Listing} {db : Db} (h : Inv db) {n : Nat}
    {pages : List (List Row)}
    (hfollow : follow cfg l none (List.replicate n db) = .ok (pages, true)) :
    pages.flatten = db.assertions.filter fun r => l.Matches r := by
  cases n with
  | zero => cases (Prod.mk.inj (Except.ok.inj hfollow)).2
  | succ n =>
      have hsize : (pageSize cfg.page_size).1 + 1 < 2 ^ 63 := by
        rw [List.replicate_succ, follow] at hfollow
        obtain ⟨_, hread, -⟩ := Except.bind_eq_ok_iff.mp hfollow
        exact read_size hread
      have hinv : ∀ d ∈ List.replicate (n + 1) db, Inv d := fun d hd => by
        rw [List.eq_of_mem_replicate hd]
        exact h
      rw [follow_walk hsize l hinv cursor_start (by decide), snapshots,
        List.map_replicate] at hfollow
      obtain ⟨rfl, hdone⟩ := Prod.mk.inj (Except.ok.inj hfollow)
      have hall : (l.rows db).filter (fun r => 0 < r.seq) = l.rows db :=
        List.filter_eq_self.mpr fun r hr => decide_eq_true (h.range r (mem_rows h hr)).1
      rw [flatten_snd, Keyset.walk_exact (pageSize cfg.page_size).2
        (keyed_sorted (rows_sorted l h)) hdone, after_keyed, hall, keyed, List.map_map, ← l.rows_eq h]
      exact List.map_id _

/-- Without additions a traversal ends. -/
theorem follow_ends {cfg : Config} (hsize : (pageSize cfg.page_size).1 + 1 < 2 ^ 63) (l : Listing)
    {db : Db} (h : Inv db) :
    ∃ n pages, follow cfg l none (List.replicate n db) = .ok (pages, true) := by
  have hinv : ∀ d ∈ List.replicate ((l.rows db).length + 1) db, Inv d := fun d hd => by
    rw [List.eq_of_mem_replicate hd]
    exact h
  have hlen : (Keyset.after 0 (keyed (l.rows db))).length < (l.rows db).length + 1 := by
    rw [after_keyed, keyed, List.length_map]
    exact Nat.lt_succ_of_le (List.length_filter_le _ _)
  have hend := Keyset.walk_ends (pageSize cfg.page_size).2 (keyed_sorted (rows_sorted l h)) hlen
  have hwalk := follow_walk hsize l hinv cursor_start (by decide)
  rw [snapshots, List.map_replicate, hend] at hwalk
  exact ⟨_, _, hwalk⟩

/-- **Cursor traversal loses and repeats nothing.** Pages are read from
tables that calls of `add` lie between. They list matching rows in strictly
increasing order of `seq`, and when the traversal ends every matching row
that was there at its beginning exactly once. A page without `next` leaves
out no row after its cursor, and with no calls in between a traversal ends.
Every page is the reply of the handler. -/
theorem traversal {cfg : Config} (hsize : (pageSize cfg.page_size).1 + 1 < 2 ^ 63) (l : Listing)
    {db : Db} {dbs : List Db} (hdb : Run (fun _ => True) Db.empty db)
    (hdbs : (db :: dbs).IsChain (Run fun _ => True)) :
    (∃ pages done, follow cfg l none (db :: dbs) = .ok (pages, done) ∧
      (pages.flatten.Pairwise fun a b => a.seq < b.seq) ∧
      (∀ r ∈ pages.flatten, l.Matches r ∧ ∃ d ∈ db :: dbs, r ∈ d.assertions) ∧
      (done = true → ∀ r ∈ db.assertions, l.Matches r → pages.flatten.count r = 1)) ∧
    (∀ d ∈ db :: dbs, ∀ cursor k rows, cursor.elim (.ok 0) decodeCursor = .ok k →
      read cfg l d cursor = .ok (rows, none) →
        ∀ r ∈ d.assertions, l.Matches r → k < r.seq → r ∈ rows) ∧
    (∃ n pages, follow cfg l none (List.replicate n db) = .ok (pages, true)) ∧
    ∀ d cursor rows nxt, read cfg l d cursor = .ok (rows, nxt) →
      doGet cfg d l.path cursor = some (ok (listBody (l.items rows) nxt)) := by
  have h : Inv db := run_inv inv_empty hdb
  have hinv := chain_inv h hdbs
  have hsnaps := snapshots_chain l h hdbs
  refine ⟨?_, fun d hd cursor k rows hcursor hread => read_last (hinv d hd) hcursor hread,
    follow_ends hsize l h, fun d cursor rows nxt hread => doGet_list hread⟩
  have hsorted : ((Keyset.walk (pageSize cfg.page_size) 0 (snapshots l (db :: dbs))).1.map
      (List.map Prod.snd)).flatten.Pairwise fun a b => a.seq < b.seq := by
    rw [flatten_snd, List.pairwise_map]
    refine (Keyset.walk_sorted hsnaps).1.imp_of_mem fun {a b} ha hb hab => ?_
    rw [← (mem_walk ha).1, ← (mem_walk hb).1]
    exact hab
  refine ⟨_, _, follow_walk hsize l hinv cursor_start (by decide), hsorted, ?_, ?_⟩
  · intro r hr
    rw [flatten_snd] at hr
    obtain ⟨x, hx, rfl⟩ := List.mem_map.mp hr
    obtain ⟨-, d, hd, hrow⟩ := mem_walk hx
    rw [l.rows_eq (hinv d hd), List.mem_filter] at hrow
    exact ⟨of_decide_eq_true hrow.2, d, hd, hrow.1⟩
  · intro hdone r hr hm
    have hnodup := hsorted.imp (S := (· ≠ ·)) fun {a b} hab heq => by
      rw [heq] at hab
      exact lt_irrefl _ hab
    refine List.count_eq_one_of_mem hnodup ?_
    have hmem : r ∈ l.rows db := by
      rw [l.rows_eq h, List.mem_filter]
      exact ⟨hr, decide_eq_true hm⟩
    rw [flatten_snd]
    exact List.mem_map.mpr ⟨(r.seq, r), Keyset.walk_complete (pageSize cfg.page_size).2 hsnaps hdone _
      (List.mem_map.mpr ⟨r, hmem, rfl⟩) (h.range r hr).1, rfl⟩

/-- The page is asked for with one row more than it shows, which with the
largest integer of SQLite does not fit. -/
theorem no_traversal_of_max_page : (openConfig (2 ^ 63 - 1)).page_size = 2 ^ 63 - 1 ∧
    ¬ ∃ n pages, follow (openConfig (2 ^ 63 - 1)) .advertised none (List.replicate n Db.empty) =
      .ok (pages, true) := by
  refine ⟨rfl, ?_⟩
  rintro ⟨n, pages, h⟩
  cases n with
  | zero => cases (Prod.mk.inj (Except.ok.inj h)).2
  | succ n =>
      rw [List.replicate_succ, follow] at h
      obtain ⟨_, hread, -⟩ := Except.bind_eq_ok_iff.mp h
      exact absurd (read_size hread) (by decide)

/-- A channel description with a given identifier, added under a given `seq`. -/
def addChannel (seq : Nat) (id : Str) (db : Db) : Db :=
  (add ⟨seq, fun _ => false⟩ ⟨id, [], "channel".toList, [], some id, none⟩ db).2

/-- A second channel is added while a client reads the first page. -/
theorem traversal_two : ∃ pages done, follow (openConfig 1) .advertised none
    [addChannel 1 ['a'] Db.empty, addChannel 5 ['b'] (addChannel 1 ['a'] Db.empty)] =
      .ok (pages, done) ∧ pages.flatten.Pairwise fun a b => a.seq < b.seq := by
  have hfirst : Run (fun _ => True) Db.empty (addChannel 1 ['a'] Db.empty) :=
    .single (.add trivial ⟨by decide, by decide, nofun⟩)
  have hsecond : Run (fun _ => True) (addChannel 1 ['a'] Db.empty)
      (addChannel 5 ['b'] (addChannel 1 ['a'] Db.empty)) :=
    .single (.add trivial ⟨by decide, by decide, by decide⟩)
  have hsize : (pageSize (openConfig 1).page_size).1 + 1 < 2 ^ 63 := by decide
  have hchain : [addChannel 1 ['a'] Db.empty,
      addChannel 5 ['b'] (addChannel 1 ['a'] Db.empty)].IsChain (Run fun _ => True) :=
    List.isChain_cons_cons.mpr ⟨hsecond, List.isChain_singleton _⟩
  obtain ⟨⟨pages, done, h, hsorted, -⟩, -⟩ := traversal hsize .advertised hfirst hchain
  exact ⟨pages, done, h, hsorted⟩

end SwarmPointer.Relay
