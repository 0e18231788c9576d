import Mathlib.Algebra.Group.TypeTags.Basic
import Mathlib.Data.Nat.Size
import Mathlib.Data.ZMod.Basic
import Mathlib.NumberTheory.LucasPrimality

/-!
# The binary method

Double-and-add over an arbitrary binary operation, with the one rule the
rest of the development uses: the loop computes the `n`-fold sum of its
base in any additive monoid the operation is related to. Modular
exponentiation is the instance at multiplication modulo `m`, and Lucas's
primality test is restated over it so that the kernel can evaluate a
certificate.

All recursion is structural (an explicit number of bits), so the loop
reduces in the kernel.
-/

namespace BinaryMethod

/-! ## The loop -/

/-- `while s: if s & 1: r = op(r, q); q = op(q, q); s >>= 1`, for at most
`bits` turns. -/
def loop {α : Type*} (op : α → α → α) : Nat → α → α → Nat → α
  | 0, r, _, _ => r
  | bits + 1, r, q, s =>
      if s = 0 then r
      else loop op bits (if s % 2 = 1 then op r q else r) (op q q) (s / 2)

/-- The whole loop: one turn for every bit of `s`. -/
def run {α : Type*} (op : α → α → α) (r q : α) (s : Nat) : α :=
  loop op (s.log2 + 1) r q s

section Rule
variable {α M : Type*} [AddMonoid M] {op : α → α → α} {Rel : α → M → Prop}

/-- **The rule of the loop**: if `op` is related to addition, the loop is
related to `x + s • y`. The induction is on the number of bits. -/
theorem loop_rel (hop : ∀ a b x y, Rel a x → Rel b y → Rel (op a b) (x + y)) :
    ∀ (bits : Nat) (r q : α) (s : Nat) (x y : M), s < 2 ^ bits →
      Rel r x → Rel q y → Rel (loop op bits r q s) (x + s • y) := by
  intro bits
  induction bits with
  | zero =>
      intro r q s x y hs hr _
      have hs0 : s = 0 := by simpa using hs
      subst hs0
      simpa [loop] using hr
  | succ bits ih =>
      intro r q s x y hs hr hq
      rw [loop]
      split
      · rename_i h0
        subst h0
        simpa using hr
      · have hlt : s / 2 < 2 ^ bits := by
          rw [Nat.pow_succ] at hs
          omega
        have hqq : Rel (op q q) (2 • y) := by
          rw [two_nsmul]
          exact hop q q y y hq hq
        have hdiv : s = s % 2 + (s / 2) * 2 := by omega
        split
        · rename_i hodd
          have h := ih (op r q) (op q q) (s / 2) (x + y) (2 • y) hlt (hop r q x y hr hq) hqq
          have hsum : x + y + (s / 2) • 2 • y = x + s • y := by
            conv_rhs => rw [hdiv, hodd, add_nsmul, one_nsmul, mul_nsmul']
            rw [add_assoc]
          rwa [hsum] at h
        · rename_i heven
          have h := ih r (op q q) (s / 2) x (2 • y) hlt hr hqq
          have hzero : s % 2 = 0 := by omega
          have hsum : x + (s / 2) • 2 • y = x + s • y := by
            conv_rhs => rw [hdiv, hzero, zero_add, mul_nsmul']
          rwa [hsum] at h

theorem run_rel (op : α → α → α) (Rel : α → M → Prop)
    (hop : ∀ a b x y, Rel a x → Rel b y → Rel (op a b) (x + y)) {r q : α} {x y : M}
    (hr : Rel r x) (hq : Rel q y) (s : Nat) :
    Rel (run op r q s) (x + s • y) :=
  loop_rel hop (s.log2 + 1) r q s x y Nat.lt_log2_self hr hq

end Rule

/-! ## From the top bit -/

/-- `for i := bits - 1; i >= 0; i--`: double, and add `p` where bit `i` of `n`
is set. -/
def fromTop {α : Type*} (double : α → α) (add : α → α → α) (p : α) (n : Nat) : Nat → α → α
  | 0, r => r
  | i + 1, r =>
      let r := double r
      fromTop double add p n i (if n.testBit i then add r p else r)

/-- The low bits with the next one. -/
theorem mod_two_pow_succ (n i : Nat) :
    n % 2 ^ (i + 1) = (if n.testBit i then 2 ^ i else 0) + n % 2 ^ i := by
  rw [Nat.mod_pow_succ, Nat.testBit_eq_decide_div_mod_eq, add_comm]
  rcases Nat.mod_two_eq_zero_or_one (n / 2 ^ i) with h | h
  · simp [h]
  · simp [h]

section Rule
variable {α M : Type*} [AddMonoid M] {double : α → α} {add : α → α → α} {Rel : α → M → Prop}

/-- **The rule of the loop from the top**: what has been read so far counts
`2 ^ i` times. The induction is on the number of bits left. -/
theorem fromTop_rel (hdouble : ∀ a x, Rel a x → Rel (double a) (x + x))
    (hadd : ∀ a b x y, Rel a x → Rel b y → Rel (add a b) (x + y)) {p : α} {y : M}
    (hp : Rel p y) (n : Nat) : ∀ (i : Nat) (r : α) (k : Nat), Rel r (k • y) →
      Rel (fromTop double add p n i r) ((k * 2 ^ i + n % 2 ^ i) • y) := by
  intro i
  induction i with
  | zero =>
      intro r k hr
      simpa [fromTop, Nat.mod_one] using hr
  | succ i ih =>
      intro r k hr
      have htwice : Rel (double r) ((k + k) • y) := by
        rw [add_nsmul]
        exact hdouble r _ hr
      rw [fromTop, mod_two_pow_succ]
      by_cases hbit : n.testBit i = true
      · rw [if_pos hbit, if_pos hbit]
        have hmore : Rel (add (double r) p) ((k + k + 1) • y) := by
          rw [succ_nsmul]
          exact hadd _ _ _ _ htwice hp
        have hsum : k * 2 ^ (i + 1) + (2 ^ i + n % 2 ^ i) = (k + k + 1) * 2 ^ i + n % 2 ^ i := by
          ring
        rw [hsum]
        exact ih _ _ hmore
      · rw [if_neg hbit, if_neg hbit]
        have hsum : k * 2 ^ (i + 1) + (0 + n % 2 ^ i) = (k + k) * 2 ^ i + n % 2 ^ i := by
          ring
        rw [hsum]
        exact ih _ _ htwice

/-- Over all the bits of `n`. -/
theorem fromTop_size (Rel : α → M → Prop) (hdouble : ∀ a x, Rel a x → Rel (double a) (x + x))
    (hadd : ∀ a b x y, Rel a x → Rel b y → Rel (add a b) (x + y)) {p zero : α} {y : M}
    (hp : Rel p y) (hzero : Rel zero 0) (n : Nat) :
    Rel (fromTop double add p n n.size zero) (n • y) := by
  have h := fromTop_rel hdouble hadd hp n n.size zero 0 (by rwa [zero_nsmul])
  rwa [zero_mul, zero_add, Nat.mod_eq_of_lt (Nat.lt_size_self n)] at h

end Rule

/-! ## Modular exponentiation -/

/-- `a ^ n % m` by square and multiply. -/
def powMod (a n m : Nat) : Nat :=
  run (fun x y => x * y % m) (1 % m) (a % m) n

theorem powMod_cast (a n m : Nat) : ((powMod a n m : Nat) : ZMod m) = (a : ZMod m) ^ n := by
  have h := run_rel (M := Additive (ZMod m)) (fun x y => x * y % m)
    (fun k z => ((k : Nat) : ZMod m) = z.toMul)
    (by intro k l x y hk hl; simp [hk, hl])
    (r := 1 % m) (q := a % m) (x := 0) (y := Additive.ofMul (a : ZMod m))
    (by simp) (by simp) n
  simpa [powMod] using h

theorem powMod_lt {m : Nat} (hm : 0 < m) (a n : Nat) : powMod a n m < m := by
  have key : ∀ bits r q s, r < m → loop (fun x y => x * y % m) bits r q s < m := by
    intro bits
    induction bits with
    | zero => intro r q s hr; exact hr
    | succ bits ih =>
        intro r q s hr
        rw [loop]
        split
        · exact hr
        · apply ih
          split
          · exact Nat.mod_lt _ hm
          · exact hr
  exact key _ _ _ _ (Nat.mod_lt _ hm)

/-! ## Lucas certificates -/

/-- Lucas's test in a form the kernel evaluates: `fs` lists the primes of
`p - 1` with their exponents and `a` is the witness. -/
theorem prime_of_lucas {p : Nat} (a : Nat) (fs : List (Nat × Nat)) (hp : 2 ≤ p)
    (hf : ∀ f ∈ fs, f.1.Prime)
    (hprod : (fs.map fun f => f.1 ^ f.2).prod = p - 1)
    (hone : powMod a (p - 1) p = 1)
    (hne : ∀ f ∈ fs, powMod a ((p - 1) / f.1) p ≠ 1) : p.Prime := by
  have hunit : ∀ n, ((a : ZMod p) ^ n = 1) ↔ powMod a n p = 1 := by
    intro n
    rw [← powMod_cast, ← Nat.cast_one, ZMod.natCast_eq_natCast_iff',
      Nat.mod_eq_of_lt (powMod_lt (by omega) a n), Nat.mod_eq_of_lt (by omega : 1 < p)]
  refine lucas_primality p a ((hunit _).mpr hone) ?_
  intro q hq hdvd
  rw [← hprod] at hdvd
  obtain ⟨x, hx, hqx⟩ := (Prime.dvd_prod_iff hq.prime).mp hdvd
  obtain ⟨f, hmem, rfl⟩ := List.mem_map.mp hx
  have hqf : q = f.1 := (Nat.prime_dvd_prime_iff_eq hq (hf f hmem)).mp (hq.dvd_of_dvd_pow hqx)
  subst hqf
  exact fun h => hne f hmem ((hunit _).mp h)

/-- What Lucas's test needs to know of a number: a witness, and the number's
predecessor in factors. -/
structure Certificate where
  number : Nat
  witness : Nat
  factors : List (Nat × Nat)

/-- Lucas's test over a list of known primes. -/
def Certificate.holds (known : List Nat) (c : Certificate) : Bool :=
  decide (2 ≤ c.number)
    && c.factors.all (fun f => known.contains f.1)
    && decide ((c.factors.map fun f => f.1 ^ f.2).prod = c.number - 1)
    && decide (powMod c.witness (c.number - 1) c.number = 1)
    && c.factors.all fun f => decide (powMod c.witness ((c.number - 1) / f.1) c.number ≠ 1)

theorem Certificate.prime {known : List Nat} {c : Certificate} (hk : ∀ q ∈ known, q.Prime)
    (h : c.holds known = true) : c.number.Prime := by
  simp only [Certificate.holds, Bool.and_eq_true, decide_eq_true_eq, List.all_eq_true,
    List.contains_iff_mem] at h
  obtain ⟨⟨⟨⟨htwo, hfactors⟩, hprod⟩, hone⟩, hne⟩ := h
  exact prime_of_lucas c.witness c.factors htwo (fun f hf => hk _ (hfactors f hf)) hprod hone hne

/-- Certificates checked one after another: each may rest on those before it. -/
def chain (known : List Nat) : List Certificate → Bool
  | [] => true
  | c :: cs => c.holds known && chain (c.number :: known) cs

/-- **A chain of certificates proves its numbers prime.** The induction is on
the chain, the known primes growing. -/
theorem chain_prime : ∀ {cs : List Certificate} {known : List Nat}, (∀ q ∈ known, q.Prime) →
    chain known cs = true → ∀ c ∈ cs, c.number.Prime := by
  intro cs
  induction cs with
  | nil =>
      intro known _ _ c hc
      exact absurd hc List.not_mem_nil
  | cons head tail ih =>
      intro known hk h c hc
      rw [chain, Bool.and_eq_true] at h
      have hhead := Certificate.prime hk h.1
      rcases List.mem_cons.mp hc with rfl | hc
      · exact hhead
      · refine ih ?_ h.2 c hc
        intro q hq
        rcases List.mem_cons.mp hq with rfl | hq
        · exact hhead
        · exact hk q hq

end BinaryMethod
