import Mathlib.NumberTheory.Bertrand

/-!
# Sizes of hash tables

`is_prime` and `next_prime` of `algodefs.c`.
-/

namespace Zabbix.Algo

/-- The loop of `is_prime` from `i` on; `fuel` bounds the rounds. -/
def noOddDivisor (n : ℕ) : ℕ → ℕ → Bool
  | 0, _ => true
  | fuel + 1, i =>
    if n < i * i then true
    else if n % i = 0 then false
    else noOddDivisor n fuel (i + 2)

def isPrime (n : ℕ) : Bool :=
  if n ≤ 1 then false
  else if n = 2 then true
  else if n % 2 = 0 then false
  else noOddDivisor n n 3

def nextPrimeFrom : ℕ → ℕ → ℕ
  | 0, n => n
  | fuel + 1, n => if isPrime n then n else nextPrimeFrom fuel (n + 1)

def nextPrime (n : ℕ) : ℕ := nextPrimeFrom (n + 3) n

theorem noOddDivisor_of_prime {p : ℕ} (hp : p.Prime) {fuel i : ℕ} (hi : 1 < i) :
    noOddDivisor p fuel i = true := by
  induction fuel generalizing i with
  | zero => rfl
  | succ fuel ih =>
    rw [noOddDivisor]
    split_ifs with hsq hdvd
    · rfl
    · have hdiv := (Nat.dvd_prime hp).mp (Nat.dvd_of_mod_eq_zero hdvd)
      have hlt : i < p := by nlinarith
      omega
    · exact ih (by omega)

theorem isPrime_of_prime {p : ℕ} (hp : p.Prime) : isPrime p = true := by
  have htwo := hp.two_le
  unfold isPrime
  rw [if_neg (by omega)]
  split_ifs with heq heven
  · rfl
  · have hdiv := (Nat.dvd_prime hp).mp (Nat.dvd_of_mod_eq_zero heven)
    omega
  · exact noOddDivisor_of_prime hp (by omega)

theorem le_nextPrimeFrom (fuel n : ℕ) : n ≤ nextPrimeFrom fuel n := by
  induction fuel generalizing n with
  | zero => exact le_refl n
  | succ fuel ih =>
    rw [nextPrimeFrom]
    split
    · exact le_refl n
    · exact (Nat.le_succ n).trans (ih (n + 1))

theorem le_nextPrime (n : ℕ) : n ≤ nextPrime n := le_nextPrimeFrom _ n

theorem isPrime_nextPrimeFrom {fuel n p : ℕ} (hp : isPrime p = true) (hn : n ≤ p)
    (hfuel : p < n + fuel) : isPrime (nextPrimeFrom fuel n) = true := by
  induction fuel generalizing n with
  | zero => omega
  | succ fuel ih =>
    rw [nextPrimeFrom]
    split
    · next h => exact h
    · next h =>
      have hne : n ≠ p := fun heq => h (heq ▸ hp)
      exact ih (by omega) (by omega)

theorem isPrime_nextPrime (n : ℕ) : isPrime (nextPrime n) = true := by
  obtain rfl | hn := Nat.eq_zero_or_pos n
  · rfl
  · obtain ⟨p, hp, hlt, hle⟩ := Nat.exists_prime_lt_and_le_two_mul n (by omega)
    exact isPrime_nextPrimeFrom (isPrime_of_prime hp) hlt.le (by omega)

theorem nextPrime_pos (n : ℕ) : 0 < nextPrime n := by
  have hprime := isPrime_nextPrime n
  by_contra hzero
  obtain hzero : nextPrime n = 0 := by omega
  rw [hzero] at hprime
  cases hprime

end Zabbix.Algo
