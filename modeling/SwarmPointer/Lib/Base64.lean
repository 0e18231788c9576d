import Mathlib.Data.List.Nodup
import Mathlib.Tactic.Ring

/-!
# Base64 with the URL-safe alphabet

Three bytes are four digits of six bits; a last group of one or two bytes is
padded. Decoding drops the bits of a last group that make no byte.

The functions work on groups of four digits, as decoders do. The last section
says what they compute without any groups: the digits are one run of bits, six
each, the bytes are the same run cut into eights, and what is left over is
shorter than a digit (`decode_pad_iff`).
-/

namespace Base64

/-- The digit of a six-bit value. -/
def digit (n : Nat) : Char :=
  if n < 26 then Char.ofNat (65 + n)
  else if n < 52 then Char.ofNat (71 + n)
  else if n < 62 then Char.ofNat (n - 4)
  else if n = 62 then '-'
  else '_'

/-- The six-bit value of a digit. -/
def digitVal (c : Char) : Option Nat :=
  if 'A' ≤ c ∧ c ≤ 'Z' then some (c.toNat - 65)
  else if 'a' ≤ c ∧ c ≤ 'z' then some (c.toNat - 71)
  else if '0' ≤ c ∧ c ≤ '9' then some (c.toNat + 4)
  else if c = '-' then some 62
  else if c = '_' then some 63
  else none

/-- The digits of a byte string, padded. -/
def encode : List UInt8 → List Char
  | [] => []
  | [a] => [digit (a.toNat / 4), digit (a.toNat % 4 * 16), '=', '=']
  | [a, b] =>
      [digit (a.toNat / 4), digit (a.toNat % 4 * 16 + b.toNat / 16), digit (b.toNat % 16 * 4), '=']
  | a :: b :: c :: rest =>
      digit (a.toNat / 4) :: digit (a.toNat % 4 * 16 + b.toNat / 16) ::
        digit (b.toNat % 16 * 4 + c.toNat / 64) :: digit (c.toNat % 64) :: encode rest

/-- The bytes of two, three and four digits. -/
def bytes2 (x y : Nat) : List UInt8 := [UInt8.ofNat (x * 4 + y / 16)]

def bytes3 (x y z : Nat) : List UInt8 := bytes2 x y ++ [UInt8.ofNat (y % 16 * 16 + z / 4)]

def bytes4 (x y z w : Nat) : List UInt8 := bytes3 x y z ++ [UInt8.ofNat (z % 4 * 64 + w)]

/-- The bytes of padded digits. -/
def decode : List Char → Option (List UInt8)
  | [] => some []
  | a :: b :: c :: d :: rest =>
      match digitVal a, digitVal b, digitVal c, digitVal d with
      | some x, some y, some z, some w => (decode rest).map (bytes4 x y z w ++ ·)
      | some x, some y, some z, none =>
          if d = '=' ∧ rest = [] then some (bytes3 x y z) else none
      | some x, some y, none, none =>
          if c = '=' ∧ d = '=' ∧ rest = [] then some (bytes2 x y) else none
      | _, _, _, _ => none
  | _ => none

theorem digitVal_digit {n : Nat} (h : n < 64) : digitVal (digit n) = some n := by
  have key : ∀ n < 64, digitVal (digit n) = some n := by decide
  exact key n h

theorem digitVal_pad : digitVal '=' = none := by decide

theorem bytes2_digits (a : UInt8) : bytes2 (a.toNat / 4) (a.toNat % 4 * 16) = [a] := by
  have hval : a.toNat / 4 * 4 + a.toNat % 4 * 16 / 16 = a.toNat := by omega
  rw [bytes2, hval, UInt8.ofNat_toNat]

theorem bytes3_digits (a b : UInt8) :
    bytes3 (a.toNat / 4) (a.toNat % 4 * 16 + b.toNat / 16) (b.toNat % 16 * 4) = [a, b] := by
  have hb := b.toNat_lt
  have ha : a.toNat / 4 * 4 + (a.toNat % 4 * 16 + b.toNat / 16) / 16 = a.toNat := by omega
  have hb' : (a.toNat % 4 * 16 + b.toNat / 16) % 16 * 16 + b.toNat % 16 * 4 / 4 = b.toNat := by
    omega
  rw [bytes3, bytes2, ha, hb', UInt8.ofNat_toNat, UInt8.ofNat_toNat]
  rfl

theorem bytes4_digits (a b c : UInt8) :
    bytes4 (a.toNat / 4) (a.toNat % 4 * 16 + b.toNat / 16) (b.toNat % 16 * 4 + c.toNat / 64)
      (c.toNat % 64) = [a, b, c] := by
  have hb := b.toNat_lt
  have hc := c.toNat_lt
  have ha : a.toNat / 4 * 4 + (a.toNat % 4 * 16 + b.toNat / 16) / 16 = a.toNat := by omega
  have hb' : (a.toNat % 4 * 16 + b.toNat / 16) % 16 * 16 +
      (b.toNat % 16 * 4 + c.toNat / 64) / 4 = b.toNat := by omega
  have hc' : (b.toNat % 16 * 4 + c.toNat / 64) % 4 * 64 + c.toNat % 64 = c.toNat := by omega
  rw [bytes4, bytes3, bytes2, ha, hb', hc', UInt8.ofNat_toNat, UInt8.ofNat_toNat,
    UInt8.ofNat_toNat]
  rfl

/-- **Decoding undoes encoding.** -/
theorem decode_encode (bs : List UInt8) : decode (encode bs) = some bs := by
  induction bs using encode.induct with
  | case1 => rfl
  | case2 a =>
      have ha := a.toNat_lt
      rw [encode, decode, digitVal_digit (by omega), digitVal_digit (by omega), digitVal_pad]
      simp only [and_self, if_true, bytes2_digits]
  | case3 a b =>
      have ha := a.toNat_lt
      have hb := b.toNat_lt
      rw [encode, decode, digitVal_digit (by omega), digitVal_digit (by omega),
        digitVal_digit (by omega), digitVal_pad]
      simp only [and_self, if_true, bytes3_digits]
  | case4 a b c rest ih =>
      have ha := a.toNat_lt
      have hb := b.toNat_lt
      have hc := c.toNat_lt
      rw [encode, decode, digitVal_digit (by omega), digitVal_digit (by omega),
        digitVal_digit (by omega), digitVal_digit (by omega), ih]
      simp only [bytes4_digits, Option.map_some]
      rfl

/-! ## Without the padding -/

/-- The digits alone. -/
def strip (s : List Char) : List Char := (s.reverse.dropWhile (· == '=')).reverse

/-- As much padding as makes groups of four. -/
def pad (s : List Char) : List Char := s ++ List.replicate ((4 - s.length % 4) % 4) '='

/-- Encoded text is digits and then padding up to a group of four; no group
has a single digit. -/
theorem encode_spec (bs : List UInt8) : ∃ ds : List Char, (∀ c ∈ ds, (digitVal c).isSome = true) ∧
    encode bs = pad ds ∧ (bs ≠ [] → ds ≠ []) ∧ ds.length % 4 ≠ 1 := by
  have some_digit : ∀ {n : Nat}, n < 64 → (digitVal (digit n)).isSome = true := fun h => by
    rw [digitVal_digit h]
    rfl
  induction bs using encode.induct with
  | case1 => exact ⟨[], nofun, rfl, fun h => absurd rfl h, by decide⟩
  | case2 a =>
      have ha := a.toNat_lt
      refine ⟨[_, _], ?_, by rw [encode]; rfl, fun _ => List.cons_ne_nil _ _, nofun⟩
      simp only [List.mem_cons, List.not_mem_nil, or_false, forall_eq_or_imp, forall_eq]
      exact ⟨some_digit (by omega), some_digit (by omega)⟩
  | case3 a b =>
      have ha := a.toNat_lt
      have hb := b.toNat_lt
      refine ⟨[_, _, _], ?_, by rw [encode]; rfl, fun _ => List.cons_ne_nil _ _, nofun⟩
      simp only [List.mem_cons, List.not_mem_nil, or_false, forall_eq_or_imp, forall_eq]
      exact ⟨some_digit (by omega), some_digit (by omega), some_digit (by omega)⟩
  | case4 a b c rest ih =>
      have ha := a.toNat_lt
      have hb := b.toNat_lt
      have hc := c.toNat_lt
      obtain ⟨ds, hds, henc, -, hsingle⟩ := ih
      have hlen : ∀ x y z w : Char, ((x :: y :: z :: w :: ds).length % 4) = ds.length % 4 := by
        intro x y z w
        simp only [List.length_cons]
        omega
      refine ⟨digit (a.toNat / 4) :: digit (a.toNat % 4 * 16 + b.toNat / 16) ::
        digit (b.toNat % 16 * 4 + c.toNat / 64) :: digit (c.toNat % 64) :: ds, ?_, ?_,
        fun _ => List.cons_ne_nil _ _, by rwa [hlen]⟩
      · simp only [List.mem_cons, forall_eq_or_imp]
        exact ⟨some_digit (by omega), some_digit (by omega), some_digit (by omega),
          some_digit (by omega), hds⟩
      · rw [encode, henc, pad, pad, hlen]
        rfl

theorem strip_pad {ds : List Char} (hds : ∀ c ∈ ds, (digitVal c).isSome = true) :
    strip (pad ds) = ds := by
  have hpad : ∀ n, ((List.replicate n '=').reverse ++ ds.reverse).dropWhile (· == '=') =
      ds.reverse := by
    intro n
    rw [List.reverse_replicate, List.dropWhile_append, List.dropWhile_replicate]
    simp only [beq_self_eq_true, if_true, List.isEmpty_nil]
    cases hrev : ds.reverse with
    | nil => rfl
    | cons c cs =>
        have hc : (digitVal c).isSome = true :=
          hds c (List.mem_reverse.mp (hrev ▸ List.mem_cons_self ..))
        have hne : (c == '=') = false := by
          rw [beq_eq_false_iff_ne]
          rintro rfl
          rw [digitVal_pad] at hc
          cases hc
        rw [List.dropWhile_cons, hne]
        rfl
  rw [strip, pad, List.reverse_append, hpad, List.reverse_reverse]

/-- Stripping and padding again give the encoded text back. -/
theorem strip_encode (bs : List UInt8) : (∀ c ∈ strip (encode bs), (digitVal c).isSome = true) ∧
    pad (strip (encode bs)) = encode bs ∧ (bs ≠ [] → strip (encode bs) ≠ []) := by
  obtain ⟨ds, hds, henc, hne, -⟩ := encode_spec bs
  rw [henc, strip_pad hds]
  exact ⟨hds, rfl, hne⟩

/-! ## One run of bits -/

/-- The digits in the order of their values. -/
def alphabet : List Char :=
  "ABCDEFGHIJKLMNOPQRSTUVWXYZabcdefghijklmnopqrstuvwxyz0123456789-_".toList

/-- The lowest `k` bits of `n`, the highest first. -/
def bits : Nat → Nat → List Bool
  | 0, _ => []
  | k + 1, n => n.testBit k :: bits k n

/-- The bits of digits, six for the place of each in the alphabet. -/
def digitBits (ds : List Char) : List Bool := ds.flatMap fun c => bits 6 (alphabet.idxOf c)

def byteBits (bs : List UInt8) : List Bool := bs.flatMap fun b => bits 8 b.toNat

@[simp] theorem length_bits (k n : Nat) : (bits k n).length = k := by
  induction k with
  | zero => rfl
  | succ k ih => rw [bits, List.length_cons, ih]

theorem length_digitBits (ds : List Char) : (digitBits ds).length = 6 * ds.length := by
  induction ds with
  | nil => rfl
  | cons c ds ih =>
      rw [digitBits, List.flatMap_cons, List.length_append, length_bits, List.length_cons]
      show 6 + (digitBits ds).length = _
      omega

theorem length_byteBits (bs : List UInt8) : (byteBits bs).length = 8 * bs.length := by
  induction bs with
  | nil => rfl
  | cons b bs ih =>
      rw [byteBits, List.flatMap_cons, List.length_append, length_bits, List.length_cons]
      show 8 + (byteBits bs).length = _
      omega

theorem bits_congr {k m n : Nat} (h : ∀ i < k, m.testBit i = n.testBit i) : bits k m = bits k n := by
  induction k with
  | zero => rfl
  | succ k ih => rw [bits, bits, h k (by omega), ih fun i hi => h i (by omega)]

/-- The bits of two numbers side by side. -/
theorem bits_add (j : Nat) {k y : Nat} (x : Nat) (hy : y < 2 ^ k) :
    bits (j + k) (2 ^ k * x + y) = bits j x ++ bits k y := by
  induction j with
  | zero =>
      rw [Nat.zero_add]
      refine bits_congr fun i hi => ?_
      rw [Nat.testBit_two_pow_mul_add x hy, if_pos hi]
  | succ j ih =>
      have hbit : (2 ^ k * x + y).testBit (j + k) = x.testBit j := by
        rw [Nat.testBit_two_pow_mul_add x hy, if_neg (by omega), Nat.add_sub_cancel]
      rw [Nat.succ_add, bits, bits, ih, hbit, List.cons_append]

/-- The bits of a number are those of its upper and its lower part. -/
theorem bits_split (j k n : Nat) : bits (j + k) n = bits j (n / 2 ^ k) ++ bits k (n % 2 ^ k) := by
  rw [← bits_add j (n / 2 ^ k) (Nat.mod_lt n (Nat.two_pow_pos k)), Nat.div_add_mod]

theorem bits_inj {k m n : Nat} (hm : m < 2 ^ k) (hn : n < 2 ^ k) (h : bits k m = bits k n) :
    m = n := by
  have same : ∀ {k : Nat}, bits k m = bits k n → ∀ i < k, m.testBit i = n.testBit i := by
    intro k h
    induction k with
    | zero => nofun
    | succ k ih =>
        obtain ⟨hbit, hrest⟩ := List.cons.inj h
        intro i hi
        rcases Nat.lt_succ_iff_lt_or_eq.mp hi with hi | rfl
        · exact ih hrest i hi
        · exact hbit
  refine Nat.eq_of_testBit_eq fun i => ?_
  by_cases hi : i < k
  · exact same h i hi
  · have hpow : 2 ^ k ≤ 2 ^ i := Nat.pow_le_pow_right (by decide) (by omega)
    rw [Nat.testBit_lt_two_pow (Nat.lt_of_lt_of_le hm hpow),
      Nat.testBit_lt_two_pow (Nat.lt_of_lt_of_le hn hpow)]

theorem byteBits_inj {bs cs : List UInt8} {r t : List Bool} (hlen : bs.length = cs.length)
    (h : byteBits bs ++ r = byteBits cs ++ t) : bs = cs := by
  induction bs generalizing cs with
  | nil => exact (List.length_eq_zero_iff.mp hlen.symm).symm
  | cons b bs ih =>
      cases cs with
      | nil => cases hlen
      | cons c cs =>
          rw [byteBits, byteBits, List.flatMap_cons, List.flatMap_cons, List.append_assoc,
            List.append_assoc] at h
          obtain ⟨hhead, htail⟩ := List.append_inj h (by rw [length_bits, length_bits])
          have hb : b.toNat = c.toNat := bits_inj b.toNat_lt c.toNat_lt hhead
          rw [UInt8.toNat_inj.mp hb, ih (Nat.succ.inj hlen) htail]

/-! ### The groups -/

theorem alphabet_digits : alphabet = (List.range 64).map digit := by decide

theorem idxOf_digit {n : Nat} (h : n < 64) : alphabet.idxOf (digit n) = n := by
  have hnodup : ((List.range 64).map digit).Nodup := by
    refine (List.nodup_map_iff_inj_on List.nodup_range).mpr fun a ha b hb hab => ?_
    rw [List.mem_range] at ha hb
    exact Option.some.inj (by rw [← digitVal_digit ha, hab, digitVal_digit hb])
  have hlen : n < ((List.range 64).map digit).length := by simpa using h
  have hget : ((List.range 64).map digit)[n] = digit n := by simp
  rw [alphabet_digits, ← hget, hnodup.idxOf_getElem]

/-- A digit's value is its place in the alphabet. -/
theorem digitVal_eq_some {c : Char} {v : Nat} (h : digitVal c = some v) :
    v < 64 ∧ alphabet.idxOf c = v := by
  suffices hc : v < 64 ∧ digit v = c by
    refine ⟨hc.1, ?_⟩
    rw [← hc.2, idxOf_digit hc.1]
  have hval : ∀ a b : Char, a ≤ b ↔ a.toNat ≤ b.toNat := fun _ _ => UInt32.le_iff_toNat_le
  have back : ∀ n, n = c.toNat → Char.ofNat n = c := by
    rintro n rfl
    exact Char.ofNat_toNat c
  rw [digitVal] at h
  simp only [hval] at h
  split at h
  next hupper =>
    obtain ⟨hlo, hhi⟩ : 65 ≤ c.toNat ∧ c.toNat ≤ 90 := hupper
    obtain rfl := Option.some.inj h
    refine ⟨by omega, ?_⟩
    rw [digit, if_pos (by omega), back _ (by omega)]
  split at h
  next hlower =>
    obtain ⟨hlo, hhi⟩ : 97 ≤ c.toNat ∧ c.toNat ≤ 122 := hlower
    obtain rfl := Option.some.inj h
    refine ⟨by omega, ?_⟩
    rw [digit, if_neg (by omega), if_pos (by omega), back _ (by omega)]
  split at h
  next hdigit =>
    obtain ⟨hlo, hhi⟩ : 48 ≤ c.toNat ∧ c.toNat ≤ 57 := hdigit
    obtain rfl := Option.some.inj h
    refine ⟨by omega, ?_⟩
    rw [digit, if_neg (by omega), if_neg (by omega), if_pos (by omega), back _ (by omega)]
  split at h
  next hdash =>
    obtain rfl := Option.some.inj h
    exact ⟨by decide, hdash.symm⟩
  split at h
  next hunder =>
    obtain rfl := Option.some.inj h
    exact ⟨by decide, hunder.symm⟩
  · cases h

theorem byteBits_bytes2 {x y : Nat} (hx : x < 64) (hy : y < 64) :
    bits 6 x ++ bits 6 y = byteBits (bytes2 x y) ++ bits 4 (y % 16) := by
  have hval : (UInt8.ofNat (x * 4 + y / 16)).toNat = 2 ^ 2 * x + y / 16 := by
    rw [UInt8.toNat_ofNat']
    omega
  have hbyte : byteBits (bytes2 x y) = bits 6 x ++ bits 2 (y / 16) := by
    rw [byteBits, bytes2, List.flatMap_singleton, hval]
    exact bits_add 6 (k := 2) x (by omega)
  rw [hbyte, List.append_assoc]
  exact congrArg _ (bits_split 2 4 y)

theorem byteBits_bytes3 {x y z : Nat} (hx : x < 64) (hy : y < 64) (hz : z < 64) :
    bits 6 x ++ bits 6 y ++ bits 6 z = byteBits (bytes3 x y z) ++ bits 2 (z % 4) := by
  have hval : (UInt8.ofNat (y % 16 * 16 + z / 4)).toNat = 2 ^ 4 * (y % 16) + z / 4 := by
    rw [UInt8.toNat_ofNat']
    omega
  have hbyte : byteBits (bytes3 x y z) =
      byteBits (bytes2 x y) ++ (bits 4 (y % 16) ++ bits 4 (z / 4)) := by
    rw [byteBits, bytes3, List.flatMap_append, List.flatMap_singleton, hval]
    exact congrArg _ (bits_add 4 (k := 4) (y % 16) (by omega))
  rw [hbyte, byteBits_bytes2 hx hy, List.append_assoc, List.append_assoc]
  exact congrArg (fun t => _ ++ (_ ++ t)) (bits_split 4 2 z)

theorem byteBits_bytes4 {x y z w : Nat} (hx : x < 64) (hy : y < 64) (hz : z < 64) (hw : w < 64) :
    bits 6 x ++ bits 6 y ++ bits 6 z ++ bits 6 w = byteBits (bytes4 x y z w) := by
  have hval : (UInt8.ofNat (z % 4 * 64 + w)).toNat = 2 ^ 6 * (z % 4) + w := by
    rw [UInt8.toNat_ofNat']
    omega
  have hbyte : byteBits (bytes4 x y z w) =
      byteBits (bytes3 x y z) ++ (bits 2 (z % 4) ++ bits 6 w) := by
    rw [byteBits, bytes4, List.flatMap_append, List.flatMap_singleton, hval]
    exact congrArg _ (bits_add 2 (k := 6) (z % 4) hw)
  rw [hbyte, byteBits_bytes3 hx hy hz, List.append_assoc]

theorem digitBits_cons {c : Char} {v : Nat} (h : digitVal c = some v) (ds : List Char) :
    digitBits (c :: ds) = bits 6 v ++ digitBits ds := by
  rw [digitBits, List.flatMap_cons, (digitVal_eq_some h).2]
  rfl

/-- Padded digits decode to the bytes their bits begin with, unless a digit
stands alone. -/
theorem decode_pad_cases (ds : List Char) (hds : ∀ c ∈ ds, (digitVal c).isSome = true) :
    (ds.length % 4 = 1 ∧ decode (pad ds) = none) ∨
      ∃ raw rest, decode (pad ds) = some raw ∧ digitBits ds = byteBits raw ++ rest ∧
        rest.length < 6 := by
  have value : ∀ {c : Char}, (digitVal c).isSome = true → ∃ v, digitVal c = some v ∧ v < 64 :=
    fun h => by
      obtain ⟨v, hv⟩ := Option.isSome_iff_exists.mp h
      exact ⟨v, hv, (digitVal_eq_some hv).1⟩
  match ds with
  | [] => exact .inr ⟨[], [], rfl, rfl, by decide⟩
  | [a] =>
      obtain ⟨x, hx, -⟩ := value (hds a (by simp))
      refine .inl ⟨rfl, ?_⟩
      show decode [a, '=', '=', '='] = none
      rw [decode, hx, digitVal_pad]
  -- two digits carry one byte and four bits over, three digits two bytes and two
  | [a, b] =>
      obtain ⟨x, hx, hx'⟩ := value (hds a (by simp))
      obtain ⟨y, hy, hy'⟩ := value (hds b (by simp))
      refine .inr ⟨bytes2 x y, bits 4 (y % 16), ?_, ?_, ?_⟩
      · show decode [a, b, '=', '='] = _
        rw [decode, hx, hy, digitVal_pad]
        rfl
      · rw [digitBits_cons hx, digitBits_cons hy, ← byteBits_bytes2 hx' hy']
        show _ ++ (_ ++ []) = _
        rw [List.append_nil]
      · rw [length_bits]
        decide
  | [a, b, c] =>
      obtain ⟨x, hx, hx'⟩ := value (hds a (by simp))
      obtain ⟨y, hy, hy'⟩ := value (hds b (by simp))
      obtain ⟨z, hz, hz'⟩ := value (hds c (by simp))
      refine .inr ⟨bytes3 x y z, bits 2 (z % 4), ?_, ?_, ?_⟩
      · show decode [a, b, c, '='] = _
        rw [decode, hx, hy, hz, digitVal_pad]
        rfl
      · rw [digitBits_cons hx, digitBits_cons hy, digitBits_cons hz,
          ← byteBits_bytes3 hx' hy' hz', List.append_assoc]
        show _ ++ (_ ++ (_ ++ [])) = _
        rw [List.append_nil]
      · rw [length_bits]
        decide
  -- a whole group is three bytes, and the padding is that of the digits after it
  | a :: b :: c :: d :: ds =>
      obtain ⟨x, hx, hx'⟩ := value (hds a (by simp))
      obtain ⟨y, hy, hy'⟩ := value (hds b (by simp))
      obtain ⟨z, hz, hz'⟩ := value (hds c (by simp))
      obtain ⟨w, hw, hw'⟩ := value (hds d (by simp))
      have hlen : (a :: b :: c :: d :: ds).length % 4 = ds.length % 4 := by
        simp only [List.length_cons]
        omega
      have hpad : decode (pad (a :: b :: c :: d :: ds)) =
          (decode (pad ds)).map (bytes4 x y z w ++ ·) := by
        rw [pad, hlen]
        show decode (a :: b :: c :: d :: pad ds) = _
        rw [decode, hx, hy, hz, hw]
      have hbits : digitBits (a :: b :: c :: d :: ds) =
          byteBits (bytes4 x y z w) ++ digitBits ds := by
        rw [digitBits_cons hx, digitBits_cons hy, digitBits_cons hz, digitBits_cons hw,
          ← byteBits_bytes4 hx' hy' hz' hw']
        simp only [List.append_assoc]
      rw [hlen, hpad, hbits]
      rcases decode_pad_cases ds (fun e he => hds e (by simp [he])) with
        ⟨hone, hnone⟩ | ⟨raw, rest, hraw, hrest, hshort⟩
      · exact .inl ⟨hone, by rw [hnone]; rfl⟩
      · refine .inr ⟨bytes4 x y z w ++ raw, rest, by rw [hraw]; rfl, ?_, hshort⟩
        rw [hrest, ← List.append_assoc]
        exact congrArg (· ++ rest) (List.flatMap_append ..).symm

/-- **What padded digits decode to**: the bytes their bits are cut into, the
bits left over being fewer than a digit's. -/
theorem decode_pad_iff {ds : List Char} (hds : ∀ c ∈ ds, (digitVal c).isSome = true)
    {raw : List UInt8} : decode (pad ds) = some raw ↔
      ∃ rest, digitBits ds = byteBits raw ++ rest ∧ rest.length < 6 := by
  have lengths : ∀ {bs : List UInt8} {rest : List Bool}, digitBits ds = byteBits bs ++ rest →
      6 * ds.length = 8 * bs.length + rest.length := fun h => by
    rw [← length_digitBits, h, List.length_append, length_byteBits]
  constructor
  · intro hraw
    rcases decode_pad_cases ds hds with ⟨-, hnone⟩ | ⟨raw', rest, hraw', hbits, hshort⟩
    · cases hnone.symm.trans hraw
    · obtain rfl := Option.some.inj (hraw'.symm.trans hraw)
      exact ⟨rest, hbits, hshort⟩
  · rintro ⟨rest, hbits, hshort⟩
    have hlen := lengths hbits
    rcases decode_pad_cases ds hds with ⟨hone, -⟩ | ⟨raw', rest', hraw', hbits', hshort'⟩
    · omega
    · have hlen' := lengths hbits'
      rw [hraw', byteBits_inj (by omega) (hbits'.symm.trans hbits)]

theorem strip_encode_length (bs : List UInt8) : (strip (encode bs)).length % 4 ≠ 1 := by
  obtain ⟨ds, hds, henc, -, hsingle⟩ := encode_spec bs
  rwa [henc, strip_pad hds]

end Base64
