import Mathlib.Data.List.Prime
import Mathlib.NumberTheory.LucasPrimality

/-!
# Certificates of primes

A number is prime when an element has the order of the whole group (`lucas_primality`). The
certificate of a large prime is such an element and the prime factors of the number before it, with
their multiplicity; powers are computed by squaring, so that a certificate can be evaluated.

Main result: `prime_of_certificate`.
-/

namespace MoMiner.PrimeCertificate

/-- The power `a ^ n` modulo `m`, for exponents of `bits` bits. -/
def powMod (m : ℕ) : ℕ → ℕ → ℕ → ℕ
  | 0, _, _ => 1 % m
  | bits + 1, a, n =>
    if n % 2 = 0 then powMod m bits (a * a % m) (n / 2)
    else a * powMod m bits (a * a % m) (n / 2) % m

theorem powMod_eq {m bits a n : ℕ} (hn : n < 2 ^ bits) : powMod m bits a n = a ^ n % m := by
  induction bits generalizing a n with
  | zero =>
    obtain rfl : n = 0 := Nat.lt_one_iff.mp hn
    rfl
  | succ bits ih =>
    have hhalf : powMod m bits (a * a % m) (n / 2) = a ^ (2 * (n / 2)) % m := by
      rw [ih (by omega), ← Nat.pow_mod, Nat.pow_mul, Nat.pow_two]
    rw [powMod, hhalf]
    split_ifs with heven
    · rw [Nat.mul_div_cancel' (Nat.dvd_of_mod_eq_zero heven)]
    · have hodd : n = 2 * (n / 2) + 1 := by omega
      conv_rhs => rw [hodd, Nat.pow_succ']
      rw [Nat.mul_mod_mod]

/-- What is checked of the element `a` and the factors of `p - 1`. -/
def check (bits p a : ℕ) (factors : List ℕ) : Bool :=
  1 < p && p ≤ 2 ^ bits && factors.prod == p - 1 && powMod p bits a (p - 1) == 1 &&
    factors.all fun q => powMod p bits a ((p - 1) / q) != 1

theorem pow_eq_one_iff {p : ℕ} (hp : 1 < p) (a n : ℕ) :
    (a : ZMod p) ^ n = 1 ↔ a ^ n % p = 1 := by
  rw [← Nat.cast_pow, ← Nat.cast_one, ZMod.natCast_eq_natCast_iff', Nat.mod_eq_of_lt hp]

/-- **A certified number is prime.** The large factors have certificates of their own. -/
theorem prime_of_certificate {p : ℕ} (bits a : ℕ) (small large : List ℕ)
    (hsmall : ∀ q ∈ small, q.Prime) (hlarge : ∀ q ∈ large, q.Prime)
    (h : check bits p a (small ++ large) = true) : p.Prime := by
  simp only [check, Bool.and_eq_true, decide_eq_true_iff, beq_iff_eq, bne_iff_ne,
    List.all_eq_true] at h
  obtain ⟨⟨⟨⟨hp, hbits⟩, hprod⟩, hpow⟩, hparts⟩ := h
  have hexact : ∀ n ≤ p - 1, powMod p bits a n = a ^ n % p := fun n hn => powMod_eq (by omega)
  refine lucas_primality p a ?_ fun q hq hdvd => ?_
  · rwa [pow_eq_one_iff hp, ← hexact _ le_rfl]
  · rw [← hprod, hq.prime.dvd_prod_iff] at hdvd
    obtain ⟨r, hr, hqr⟩ := hdvd
    have hprime : r.Prime := (List.mem_append.mp hr).elim (hsmall r) (hlarge r)
    obtain rfl := (Nat.prime_dvd_prime_iff_eq hq hprime).mp hqr
    rw [Ne, pow_eq_one_iff hp, ← hexact _ (Nat.div_le_self _ _)]
    exact hparts q hr

end MoMiner.PrimeCertificate
