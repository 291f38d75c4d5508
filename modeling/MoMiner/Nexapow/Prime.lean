import Mathlib.Tactic.NormNum.Prime
import MoMiner.Lib.PrimeCertificate
import MoMiner.Nexapow.Portable

/-!
# The field prime

The modulus of the field is a prime. Its certificate needs those of the large primes below it.

Main result: `fieldPrime_prime`.
-/

namespace MoMiner.Nexapow

open MoMiner.PrimeCertificate

/-- The largest prime factor below the field prime. -/
def cofactorPrime : ℕ :=
  205115282021455665897114700593932402728804164701536103180137503955397371

/-- The elements and factors of the certificates, from the small primes up. -/
theorem certificates :
    check 24 1206781 10 [2, 2, 3, 5, 20113] ∧
    check 24 7240687 3 [2, 3, 1206781] ∧
    check 24 13331831 13 [2, 5, 971, 1373] ∧
    check 32 107590001 3 [2, 2, 2, 2, 5, 5, 5, 5, 7, 29, 53] ∧
    check 64 173378833005251801 6 [2, 2, 2, 5, 5, 2621, 24809, 13331831] ∧
    check 80 22149492674086928081353 5 [2, 2, 2, 3, 5323, 173378833005251801] ∧
    check 80 132896956044521568488119 6 [2, 3, 22149492674086928081353] ∧
    check 128 255515944373312847190720520512484175977 3
      [2, 2, 2, 7, 7, 11, 1627, 2657, 4423, 41201, 96557, 7240687, 107590001] ∧
    check 240 cofactorPrime 10 [2, 3, 5, 29, 29, 31, 7723, 132896956044521568488119,
      255515944373312847190720520512484175977] ∧
    check 256 fieldPrime 3 [2, 3, 7, 13441, cofactorPrime] := by
  decide +kernel

/-- **The field prime is prime.** -/
theorem fieldPrime_prime : fieldPrime.Prime := by
  obtain ⟨h1, h2, h3, h4, h5, h6, h7, h8, h9, h10⟩ := certificates
  have p1 := prime_of_certificate 24 10 [2, 2, 3, 5, 20113] [] (by norm_num) (by simp) h1
  have p2 := prime_of_certificate 24 3 [2, 3] [1206781] (by norm_num) (by simp [p1]) h2
  have p3 := prime_of_certificate 24 13 [2, 5, 971, 1373] [] (by norm_num) (by simp) h3
  have p4 := prime_of_certificate 32 3 [2, 2, 2, 2, 5, 5, 5, 5, 7, 29, 53] [] (by norm_num)
    (by simp) h4
  have p5 := prime_of_certificate 64 6 [2, 2, 2, 5, 5, 2621, 24809] [13331831] (by norm_num)
    (by simp [p3]) h5
  have p6 := prime_of_certificate 80 5 [2, 2, 2, 3, 5323] [173378833005251801] (by norm_num)
    (by simp [p5]) h6
  have p7 := prime_of_certificate 80 6 [2, 3] [22149492674086928081353] (by norm_num)
    (by simp [p6]) h7
  have p8 := prime_of_certificate 128 3 [2, 2, 2, 7, 7, 11, 1627, 2657, 4423, 41201, 96557]
    [7240687, 107590001] (by norm_num) (by simp [p2, p4]) h8
  have p9 : cofactorPrime.Prime := prime_of_certificate 240 10 [2, 3, 5, 29, 29, 31, 7723]
    [132896956044521568488119, 255515944373312847190720520512484175977] (by norm_num)
    (by simp [p7, p8]) h9
  exact prime_of_certificate 256 3 [2, 3, 7, 13441] [cofactorPrime] (by norm_num) (by simp [p9]) h10

end MoMiner.Nexapow
