import SwarmPointer.Relay.Traversal

/-!
# Relay — every cursor query is answered

`do_GET` answers 400 when `decode_cursor` raises `BadCursor`, and otherwise
hands the integer to the query. `decode_cursor` refuses negative integers but
puts no upper bound, while the query takes `seq > ?` and `LIMIT ?` as 64-bit
parameters; an `OverflowError` there is caught by nothing and the connection
is dropped. So a list request is answered except when the cursor denotes an
integer that does not fit (`answered_iff`), and there are such cursors
(`overflowing_unanswered`).
-/

namespace SwarmPointer.Relay

open Except Python Python.Protocol Python.Server Python.Store

theorem urlsafeB64decode_cases (padded : Str) :
    (∃ m, urlsafeB64decode padded = .error (.badCursor m)) ∨
      ∃ raw, urlsafeB64decode padded = .ok raw := by
  rw [urlsafeB64decode]
  split
  · exact .inr ⟨_, rfl⟩
  · exact .inl ⟨_, rfl⟩

theorem cursorInt_cases (raw : Bytes) :
    (∃ m, cursorInt raw = .error (.badCursor m)) ∨ ∃ z, cursorInt raw = .ok z := by
  rw [cursorInt]
  split
  · exact .inr ⟨_, rfl⟩
  · exact .inl ⟨_, rfl⟩

/-- `BadCursor` is the only exception of `decode_cursor`. -/
theorem decodeCursor_cases (token : Str) :
    (∃ m, decodeCursor token = .error (.badCursor m)) ∨ ∃ n, decodeCursor token = .ok n := by
  rw [decodeCursor]
  split
  next =>
    rcases urlsafeB64decode_cases (Base64.pad token) with ⟨m, hraw⟩ | ⟨raw, hraw⟩
    · exact .inl ⟨m, by rw [hraw, error_bind]⟩
    rcases cursorInt_cases raw with ⟨m, hint⟩ | ⟨z, hint⟩
    · exact .inl ⟨m, by rw [hraw, ok_bind, hint, error_bind]⟩
    rw [hraw, ok_bind, hint, ok_bind]
    split
    · exact .inl ⟨_, rfl⟩
    · exact .inr ⟨_, rfl⟩
  next => exact .inl ⟨_, rfl⟩

/-! ## The reply -/

/-- The reply to a list request with a cursor: 400 when the cursor is refused,
otherwise the page of the query. -/
inductive Answered (cfg : Config) (db : Db) (l : Listing) (token : Str) : Prop
  | refused {message : Str} (hcursor : decodeCursor token = .error (.badCursor message))
      (hreply : doGet cfg db l.path (some token) =
        some ⟨400, .error "bad_cursor".toList message⟩)
  | page {n : Nat} {rows : List Row} {nxt : Option Str} (hcursor : decodeCursor token = .ok n)
      (hquery : page (pageSize cfg.page_size) (l.rows db) n = .ok (rows, nxt))
      (hreply : doGet cfg db l.path (some token) = some (Server.ok (listBody (l.items rows) nxt)))

theorem parameter_eq_ok {n m : Nat} : parameter n = .ok m ↔ n < 2 ^ 63 ∧ n = m := by
  rw [parameter]
  split <;> simp_all

/-- The query runs exactly when both of its parameters fit. -/
theorem page_runs {size : PageSize} {rows : List Row} {k : Nat} :
    (∃ result, page size rows k = .ok result) ↔ k < 2 ^ 63 ∧ size.1 + 1 < 2 ^ 63 := by
  constructor
  · rintro ⟨result, h⟩
    obtain ⟨sel, hselect, -⟩ := bind_eq_ok_iff.mp h
    obtain ⟨after, hafter, hselect⟩ := bind_eq_ok_iff.mp hselect
    obtain ⟨limit, hlimit, -⟩ := bind_eq_ok_iff.mp hselect
    exact ⟨(parameter_eq_ok.mp hafter).1, (parameter_eq_ok.mp hlimit).1⟩
  · rintro ⟨hk, hsize⟩
    have hafter : parameter k = .ok k := if_pos hk
    have hlimit : parameter (size.1 + 1) = .ok (size.1 + 1) := if_pos hsize
    rw [page, select, hafter, hlimit]
    exact ⟨_, rfl⟩

/-- **Every cursor query is answered exactly when the integer its cursor
denotes, and one row more than the page size, fit in 64 bits.** -/
theorem answered_iff (cfg : Config) (db : Db) (l : Listing) (token : Str) :
    Answered cfg db l token ↔
      ∀ n, Denotes token n → n < 2 ^ 63 ∧ (pageSize cfg.page_size).1 + 1 < 2 ^ 63 := by
  constructor
  · intro h n hn
    have hdec := decodeCursor_eq_ok.mpr hn
    cases h with
    | refused hcursor => exact nomatch hdec.symm.trans hcursor
    | page hcursor hquery =>
        obtain rfl := Except.ok.inj (hdec.symm.trans hcursor)
        exact page_runs.mp ⟨_, hquery⟩
  · intro h
    rcases decodeCursor_cases token with ⟨m, hm⟩ | ⟨n, hn⟩
    · refine .refused hm ?_
      have helim : (some token).elim (.ok 0 : Py Nat) decodeCursor = .error (.badCursor m) := hm
      rw [doGet, helim]
    · obtain ⟨⟨rows, nxt⟩, hquery⟩ := page_runs.mpr (h n (decodeCursor_eq_ok.mp hn))
      refine .page hn hquery (doGet_list (bind_eq_ok_iff.mpr ⟨n, hn, hquery⟩))

/-- The cursor of the first integer that does not fit. -/
def overflowing : Str := encodeCursor (2 ^ 63)

theorem overflowing_decoded : decodeCursor overflowing = .ok (2 ^ 63) := by
  decide +kernel

/-- **A cursor of 2^63 gets no reply.** -/
theorem overflowing_unanswered : doGet (openConfig 32) Db.empty "/v1/channels".toList
    (some overflowing) = none ∧ ¬ Answered (openConfig 32) Db.empty .advertised overflowing := by
  have hdec : (some overflowing).elim (.ok 0 : Py Nat) decodeCursor = .ok (2 ^ 63) :=
    overflowing_decoded
  have hroute : route (openConfig 32) Db.empty (Listing.path .advertised) (2 ^ 63) =
      .error .overflowError := by
    rw [route_advertised]
    rfl
  have hnone : doGet (openConfig 32) Db.empty (Listing.path .advertised) (some overflowing) =
      none := by
    rw [doGet, hdec]
    simp only [hroute]
    rfl
  refine ⟨hnone, fun h => ?_⟩
  cases h with
  | refused _ hreply => cases hnone.symm.trans hreply
  | page _ _ hreply => cases hnone.symm.trans hreply

end SwarmPointer.Relay
