import Ed301.Theory.Ladder
import Mathlib.Algebra.BigOperators.Group.List.Basic
import Mathlib.Data.Nat.Prime.Basic
import Mathlib.NumberTheory.LucasPrimality

/-!
# Primality Certificates

Lucas's test as a computation. `lucas_primality` settles that `n` is prime
from an element whose order is exactly `n - 1`; what it asks for are powers
modulo `n`, and those are ladders. A certificate therefore consists of a base
and the factorisation of `n - 1`, and `lucasTest` checks it by running one
ladder for `n - 1` and one for each prime factor.

The factors themselves have to be prime, and the test does not recurse into
them. Small ones are settled by trial division; a large one has to appear
earlier in the same chain. `checkChain` runs through a chain and carries the
numbers certified so far, so a whole tree of primes is one computation.

## Main definitions

* `powMod`: A modular power by square and multiply.
* `lucasTest`: Lucas's conditions for one number.
* `trialFrom`: Trial division from a divisor upwards.
* `trialPrime`: Trial division with a bounded number of divisors.
* `Link`: One number of a chain with its base and factorisation.
* `checkChain`: Lucas's conditions for a chain of numbers.

## Theorems

* `powMod_eq`: The ladder computes the power.
* `exists_factor_of_dvd_prod`: The prime divisors of a factored number.
* `prime_of_lucasTest`: A number passing the test with prime factors is prime.
* `prime_of_trialPrime`: Trial division is sound.
* `prime_of_checkChain`: Every number of a checked chain is prime.
-/

namespace Ed301

namespace Pratt

open Ladder

/-- The power `a ^ e % m`, read off the bits of the exponent. -/
def powMod (m a e : ℕ) : ℕ :=
  binaryLadder (fun bit acc => cond bit (acc * acc % m * a % m) (acc * acc % m))
    e.testBit (e.log2 + 1) (1 % m)

theorem powMod_eq (m a e : ℕ) : powMod m a e = a ^ e % m := by
  have hstep : ∀ (k : ℕ) (b : Bool) (acc : ℕ), acc = a ^ k % m →
      cond b (acc * acc % m * a % m) (acc * acc % m) = a ^ (2 * k + b.toNat) % m := by
    intro k b acc hacc
    have hsq : acc * acc % m = a ^ (2 * k) % m := by
      rw [hacc, ← Nat.mul_mod, ← pow_add, two_mul]
    cases b with
    | false => simpa using hsq
    | true =>
        simp only [cond_true, Bool.toNat_true]
        rw [hsq, pow_succ, Nat.mod_mul_mod]
  have hrun := binaryLadder_zero (fun k acc => acc = a ^ k % m) _ e (e.log2 + 1) (1 % m) hstep
    (by rw [pow_zero])
  -- The ladder is just long enough to read the whole exponent.
  rwa [Nat.mod_eq_of_lt Nat.lt_log2_self] at hrun

/-- Lucas's conditions on `n` for the base `a`, given the factorisation of
    `n - 1` as primes with exponents. -/
def lucasTest (n a : ℕ) (factors : List (ℕ × ℕ)) : Bool :=
  decide (1 < n) &&
    decide ((factors.map fun f => f.1 ^ f.2).prod = n - 1) &&
    decide (powMod n a (n - 1) = 1) &&
    factors.all fun f => decide (powMod n a ((n - 1) / f.1) ≠ 1)

/-- In `ZMod n` a power is one exactly when its remainder is. -/
theorem natCast_pow_eq_one_iff (n a e : ℕ) (hn : 1 < n) :
    ((a : ZMod n) ^ e = 1) ↔ a ^ e % n = 1 := by
  have hone : 1 % n = 1 := Nat.mod_eq_of_lt hn
  rw [← Nat.cast_pow, ← Nat.cast_one, ZMod.natCast_eq_natCast_iff', hone]

/-- A prime divisor of a product of prime powers is one of the primes. -/
theorem exists_factor_of_dvd_prod (q : ℕ) (hq : q.Prime) : ∀ (factors : List (ℕ × ℕ)),
    (∀ f ∈ factors, f.1.Prime) → q ∣ (factors.map fun f => f.1 ^ f.2).prod →
      ∃ f ∈ factors, f.1 = q := by
  intro factors
  induction factors with
  | nil =>
      intro _ hdvd
      exact absurd (Nat.dvd_one.mp hdvd) hq.ne_one
  | cons head factors ih =>
      intro hp hdvd
      rw [List.map_cons, List.prod_cons] at hdvd
      rcases hq.dvd_mul.mp hdvd with hhead | hrest
      · have hprime := hp head List.mem_cons_self
        have heq := (Nat.prime_dvd_prime_iff_eq hq hprime).mp (hq.dvd_of_dvd_pow hhead)
        exact ⟨head, List.mem_cons_self, heq.symm⟩
      · rcases ih (fun f hf => hp f (List.mem_cons_of_mem head hf)) hrest with ⟨f, hf, heq⟩
        exact ⟨f, List.mem_cons_of_mem head hf, heq⟩

theorem prime_of_lucasTest (n a : ℕ) (factors : List (ℕ × ℕ))
    (h : lucasTest n a factors = true) (hp : ∀ f ∈ factors, f.1.Prime) : n.Prime := by
  simp only [lucasTest, Bool.and_eq_true, decide_eq_true_eq, List.all_eq_true] at h
  rcases h with ⟨⟨⟨hn, hprod⟩, hone⟩, hrest⟩
  refine lucas_primality n (a : ZMod n) ?_ ?_
  · rw [powMod_eq] at hone
    exact (natCast_pow_eq_one_iff n a _ hn).mpr hone
  · intro q hq hdvd
    -- The test was run for every prime divisor of `n - 1`.
    rw [← hprod] at hdvd
    rcases exists_factor_of_dvd_prod q hq factors hp hdvd with ⟨f, hf, heq⟩
    have htest := hrest f hf
    rw [powMod_eq, heq] at htest
    intro hpow
    exact htest ((natCast_pow_eq_one_iff n a _ hn).mp hpow)

/-- Trial division from `d` upwards, until the square of the divisor exceeds
    the number. It gives up when the fuel runs out first. -/
def trialFrom (n : ℕ) : ℕ → ℕ → Bool
  | 0, _ => false
  | fuel + 1, d => Nat.blt n (d * d) || (Nat.blt 0 (n % d) && trialFrom n fuel (d + 1))

theorem prime_of_trialFrom (n : ℕ) (hn : 2 ≤ n) : ∀ (fuel d : ℕ),
    (∀ m, 2 ≤ m → m < d → ¬ m ∣ n) → trialFrom n fuel d = true → n.Prime := by
  intro fuel
  induction fuel with
  | zero =>
      intro d _ h
      exact absurd h Bool.false_ne_true
  | succ fuel ih =>
      intro d hbelow h
      simp only [trialFrom, Bool.or_eq_true, Bool.and_eq_true, Nat.blt_eq] at h
      rcases h with hstop | ⟨hmod, hnext⟩
      · -- A divisor up to the root would lie below `d`.
        refine Nat.prime_def_le_sqrt.mpr ⟨hn, fun m hm2 hm => hbelow m hm2 ?_⟩
        have hsq : m * m ≤ n := Nat.le_sqrt.mp hm
        by_contra hge
        have := Nat.mul_le_mul (Nat.le_of_not_lt hge) (Nat.le_of_not_lt hge)
        omega
      · refine ih (d + 1) (fun m hm2 hm => ?_) hnext
        by_cases hmd : m = d
        · rw [hmd, Nat.dvd_iff_mod_eq_zero]
          omega
        · exact hbelow m hm2 (by omega)

/-- Trial division with at most `bound` divisors. -/
def trialPrime (bound n : ℕ) : Bool :=
  Nat.blt 1 n && trialFrom n bound 2

theorem prime_of_trialPrime (bound n : ℕ) (h : trialPrime bound n = true) : n.Prime := by
  simp only [trialPrime, Bool.and_eq_true, Nat.blt_eq] at h
  refine prime_of_trialFrom n h.1 bound 2 (fun m hm2 hm => ?_) h.2
  omega

/-- One number of a chain, with the base of its test and the factorisation of
    its predecessor. -/
structure Link where
  number : ℕ
  base : ℕ
  factors : List (ℕ × ℕ)

/-- Test a chain in order. A factor is either certified earlier or settled by
    trial division. -/
def checkChain (bound : ℕ) : List ℕ → List Link → Bool
  | _, [] => true
  | certified, link :: chain =>
      link.factors.all (fun f => certified.contains f.1 || trialPrime bound f.1) &&
        lucasTest link.number link.base link.factors &&
        checkChain bound (link.number :: certified) chain

theorem prime_of_checkChain (bound : ℕ) : ∀ (chain : List Link) (certified : List ℕ),
    (∀ q ∈ certified, q.Prime) → checkChain bound certified chain = true →
      ∀ link ∈ chain, link.number.Prime := by
  intro chain
  induction chain with
  | nil =>
      intro _ _ _ link hlink
      exact absurd hlink List.not_mem_nil
  | cons head chain ih =>
      intro certified hcert h
      simp only [checkChain, Bool.and_eq_true, List.all_eq_true, Bool.or_eq_true,
        List.contains_iff_mem] at h
      rcases h with ⟨⟨hfactors, htest⟩, hchain⟩
      have hhead : head.number.Prime := by
        refine prime_of_lucasTest _ head.base head.factors htest (fun f hf => ?_)
        rcases hfactors f hf with hc | ht
        · exact hcert f.1 hc
        · exact prime_of_trialPrime bound f.1 ht
      have hcert' : ∀ q ∈ head.number :: certified, q.Prime := by
        intro q hq
        rcases List.mem_cons.mp hq with h | h
        · rw [h]
          exact hhead
        · exact hcert q h
      intro link hlink
      rcases List.mem_cons.mp hlink with h | h
      · rw [h]
        exact hhead
      · exact ih _ hcert' hchain link h

end Pratt

end Ed301
