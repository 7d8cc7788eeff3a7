import Mathlib.Data.Nat.Bitwise
import Mathlib.Tactic.Ring

/-!
# Fixed-Length Binary Ladders

The loop behind every fixed-schedule exponentiation and scalar
multiplication: walk the bit positions of a number from the top down and let
each bit update an accumulator. The loop does not say what the accumulator
is. A modular power squares and multiplies, a curve point doubles and adds,
and both consume their bits the same way.

`binaryLadder_inv` is stated for a relation rather than for a function. An
accumulator in projective coordinates is not equal to the multiple it stands
for, only related to it, so the invariant says which number of units the
accumulator represents and leaves the representation to the caller.

The bits come from a position function. `binaryLadder_congr` replaces one
reader by another that agrees with it below the length, which is how a reader
over bytes and a reader over machine words come to drive the same loop.

## Main definitions

* `binaryLadder`: Update an accumulator with the bits of a number, top down.

## Theorems

* `binaryLadder_inv`: A counting relation preserved by the step holds at the
  end for the number read.
* `binaryLadder_congr`: Only the positions below the length are read.
* `binaryLadder_related`: Two loops in step.
-/

namespace Ed301

namespace Ladder

variable {α : Type*}

/-- Feed the bits at positions `n - 1` down to `0` to an accumulator. -/
def binaryLadder (step : Bool → α → α) (bit : ℕ → Bool) : ℕ → α → α
  | 0, acc => acc
  | i + 1, acc => binaryLadder step bit i (step (bit i) acc)

/-- If a step turns an accumulator for `k` into one for `2 k + b`, the loop
    over the low `n` bits of `m` turns one for `k` into one for
    `k * 2 ^ n + m % 2 ^ n`. -/
theorem binaryLadder_inv (R : ℕ → α → Prop) (step : Bool → α → α) (m : ℕ)
    (hstep : ∀ k b acc, R k acc → R (2 * k + b.toNat) (step b acc)) :
    ∀ (n k : ℕ) (acc : α), R k acc →
      R (k * 2 ^ n + m % 2 ^ n) (binaryLadder step m.testBit n acc) := by
  intro n
  induction n with
  | zero =>
      intro k acc h
      simpa only [binaryLadder, pow_zero, mul_one, Nat.mod_one, add_zero] using h
  | succ n ih =>
      intro k acc h
      have hnext := ih _ _ (hstep k (m.testBit n) acc h)
      -- The bit just read is the top one of the `n + 1` low bits of `m`.
      have hcount : k * 2 ^ (n + 1) + m % 2 ^ (n + 1)
          = (2 * k + (m.testBit n).toNat) * 2 ^ n + m % 2 ^ n := by
        rw [Nat.mod_pow_succ, Nat.toNat_testBit]
        ring
      rw [hcount]
      exact hnext

/-- Started from zero, the loop counts the number read. -/
theorem binaryLadder_zero (R : ℕ → α → Prop) (step : Bool → α → α) (m n : ℕ) (acc : α)
    (hstep : ∀ k b acc, R k acc → R (2 * k + b.toNat) (step b acc)) (h : R 0 acc) :
    R (m % 2 ^ n) (binaryLadder step m.testBit n acc) := by
  have hinv := binaryLadder_inv R step m hstep n 0 acc h
  rwa [Nat.zero_mul, Nat.zero_add] at hinv

/-- Two readers that agree below the length drive the loop alike. -/
theorem binaryLadder_congr (step : Bool → α → α) (bit bit' : ℕ → Bool) :
    ∀ (n : ℕ), (∀ i, i < n → bit i = bit' i) →
      ∀ (acc : α), binaryLadder step bit n acc = binaryLadder step bit' n acc := by
  intro n
  induction n with
  | zero =>
      intro _ acc
      rfl
  | succ n ih =>
      intro h acc
      simp only [binaryLadder]
      rw [h n (Nat.lt_succ_self n)]
      exact ih (fun i hi => h i (Nat.lt_succ_of_lt hi)) _

/-- Related steps keep related accumulators related. -/
theorem binaryLadder_related {β : Type*} (R : α → β → Prop) (step : Bool → α → α)
    (step' : Bool → β → β) (bit : ℕ → Bool)
    (hstep : ∀ b acc acc', R acc acc' → R (step b acc) (step' b acc')) :
    ∀ (n : ℕ) (acc : α) (acc' : β), R acc acc' →
      R (binaryLadder step bit n acc) (binaryLadder step' bit n acc') := by
  intro n
  induction n with
  | zero =>
      intro acc acc' h
      exact h
  | succ n ih =>
      intro acc acc' h
      exact ih _ _ (hstep (bit n) acc acc' h)

end Ladder

end Ed301
