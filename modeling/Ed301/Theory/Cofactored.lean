import Mathlib.Algebra.Field.ZMod
import Mathlib.GroupTheory.OrderOfElement
import Mathlib.Tactic.Abel
import Mathlib.Tactic.LinearCombination
import Mathlib.Tactic.Ring

/-!
# The Cofactored Verification Equation

Schnorr-type signatures in a group larger than the one generated by the base
point. The base point has prime order, the group around it may have elements
killed by a cofactor, and verification multiplies its equation by that
cofactor. What a commitment outside the prime-order subgroup does to the
accepted language is then a question about the two annihilators alone, and
their coprimality answers it.

A `PrimeBase` is such a base point. Nothing says that the group is finite or
that order times cofactor is its size; the arguments use the two annihilators
and nothing else.

`Accepts` is stated over natural numbers rather than residues, because the
two sides of the equation live in the whole group, where a multiple is not
determined by the residue of its factor. Residues appear where they become
legitimate, on multiples of the base point.

## Main definitions

* `PrimeBase`: A base point of prime order, with a cofactor coprime to it.
* `PrimeBase.scale`: The multiple of the base point by a residue.
* `PrimeBase.Accepts`: The cofactored verification equation.

## Theorems

* `cancel_cofactor`: On the prime-order part the cofactor can be cancelled.
* `addOrderOf_of_ne_zero`: A nonzero point of the prime-order part has the
  full order.
* `nsmul_point_eq_iff`: Multiples of the base point agree modulo the order.
* `accepts_iff_exists_torsion`: An accepted commitment is the expected one up
  to torsion.
* `plain_iff_order_nsmul`: Among accepted commitments the uncofactored
  equation singles out the prime-order part.
* `accepts_response`: The honest response is accepted for any torsion
  component.
* `response_unique`: Two accepted responses agree modulo the order.
* `extract_key`: Two accepted challenges on one commitment determine the key.
-/

namespace Ed301

namespace Cofactored

/-- A base point of prime order, in a group where a cofactor coprime to that
    order kills the remaining torsion of interest. -/
structure PrimeBase (G : Type*) [AddCommGroup G] where
  point : G
  order : ℕ
  cofactor : ℕ
  order_prime : order.Prime
  coprime : Nat.Coprime cofactor order
  point_ne_zero : point ≠ 0
  order_nsmul_point : order • point = 0

namespace PrimeBase

variable {G : Type*} [AddCommGroup G] (B : PrimeBase G)

instance : Fact B.order.Prime := ⟨B.order_prime⟩

/-- An element killed by both annihilators is zero. -/
theorem cancel_cofactor (A : G) (ho : B.order • A = 0) (hc : B.cofactor • A = 0) : A = 0 := by
  -- The order of the element divides both numbers, hence their greatest
  -- common divisor.
  have hdvd : addOrderOf A ∣ Nat.gcd B.cofactor B.order :=
    Nat.dvd_gcd (addOrderOf_dvd_of_nsmul_eq_zero hc) (addOrderOf_dvd_of_nsmul_eq_zero ho)
  rw [B.coprime, Nat.dvd_one] at hdvd
  exact AddMonoid.addOrderOf_eq_one_iff.mp hdvd

theorem addOrderOf_of_ne_zero (A : G) (ho : B.order • A = 0) (hA : A ≠ 0) :
    addOrderOf A = B.order :=
  addOrderOf_eq_prime ho hA

/-- A nonzero element of the prime-order part is told apart from its own
    translates by torsion. -/
theorem order_nsmul_add_torsion (A T : G) (ho : B.order • A = 0) (hc : B.cofactor • T = 0)
    (hT : T ≠ 0) : B.order • (A + T) ≠ 0 := by
  intro h
  -- What is left is killed by the order and by the cofactor.
  rw [nsmul_add, ho, zero_add] at h
  exact hT (B.cancel_cofactor T h hc)

/-- The prime-order part is closed under multiples. -/
theorem order_nsmul_nsmul (A : G) (ho : B.order • A = 0) (n : ℕ) : B.order • (n • A) = 0 := by
  rw [nsmul_left_comm, ho, nsmul_zero]

theorem order_nsmul_multiple (n : ℕ) : B.order • (n • B.point) = 0 :=
  B.order_nsmul_nsmul B.point B.order_nsmul_point n

/-- Multiples of the base point agree exactly modulo the order. -/
theorem nsmul_point_eq_iff (m n : ℕ) :
    m • B.point = n • B.point ↔ (m : ZMod B.order) = (n : ZMod B.order) := by
  have horder := B.addOrderOf_of_ne_zero B.point B.order_nsmul_point B.point_ne_zero
  rw [nsmul_eq_nsmul_iff_modEq, horder, ZMod.natCast_eq_natCast_iff]

/-- Numbers below the order are told apart by their residues. -/
theorem eq_of_natCast_eq (m n : ℕ) (hm : m < B.order) (hn : n < B.order)
    (h : (m : ZMod B.order) = (n : ZMod B.order)) : m = n := by
  rwa [ZMod.natCast_eq_natCast_iff', Nat.mod_eq_of_lt hm, Nat.mod_eq_of_lt hn] at h

/-- On the prime-order part a factor only matters modulo the order. -/
theorem nsmul_congr (A : G) (ho : B.order • A = 0) (m n : ℕ)
    (h : (m : ZMod B.order) = (n : ZMod B.order)) : m • A = n • A := by
  rw [nsmul_eq_nsmul_iff_modEq]
  exact ((ZMod.natCast_eq_natCast_iff m n B.order).mp h).of_dvd
    (addOrderOf_dvd_of_nsmul_eq_zero ho)

/-- Reducing a factor changes nothing on the prime-order part. -/
theorem mod_nsmul (A : G) (ho : B.order • A = 0) (n : ℕ) : (n % B.order) • A = n • A :=
  B.nsmul_congr A ho _ _ (ZMod.natCast_mod n B.order)

/-- A multiple of a nonzero element of the prime-order part vanishes only if
    the order divides its factor. -/
theorem nsmul_ne_zero (A : G) (ho : B.order • A = 0) (hA : A ≠ 0) (n : ℕ)
    (h : ¬ B.order ∣ n) : n • A ≠ 0 := by
  intro hzero
  have hdvd := addOrderOf_dvd_of_nsmul_eq_zero hzero
  rw [B.addOrderOf_of_ne_zero A ho hA] at hdvd
  exact h hdvd

/-- The multiple of the base point by a residue. -/
def scale (c : ZMod B.order) : G :=
  c.val • B.point

/-- The cofactored equation for the key `A`, the commitment `R`, the challenge
    `k` and the response `s`. -/
def Accepts (A R : G) (k s : ℕ) : Prop :=
  (B.cofactor * s) • B.point = B.cofactor • R + (B.cofactor * k) • A

/-- The defect of the uncofactored equation is what the cofactor kills. -/
theorem accepts_iff_cofactor_nsmul (A R : G) (k s : ℕ) :
    B.Accepts A R k s ↔ B.cofactor • (R - (s • B.point - k • A)) = 0 := by
  rw [Accepts, mul_nsmul', mul_nsmul', ← nsmul_add, nsmul_sub, sub_eq_zero, nsmul_sub,
    eq_sub_iff_add_eq, ← nsmul_add, eq_comm]

/-- An accepted commitment is the expected one up to torsion. -/
theorem accepts_iff_exists_torsion (A R : G) (k s : ℕ) :
    B.Accepts A R k s ↔ ∃ T : G, B.cofactor • T = 0 ∧ R = s • B.point - k • A + T := by
  rw [accepts_iff_cofactor_nsmul]
  constructor
  · intro h
    -- The torsion component is the defect itself.
    exact ⟨R - (s • B.point - k • A), h, (add_sub_cancel _ R).symm⟩
  · intro h
    rcases h with ⟨T, hT, rfl⟩
    rw [add_sub_cancel_left]
    exact hT

/-- The uncofactored equation says that the torsion part is absent. -/
theorem plain_iff_torsion_eq_zero (A T : G) (k s : ℕ) :
    s • B.point = (s • B.point - k • A + T) + k • A ↔ T = 0 := by
  have h : (s • B.point - k • A + T) + k • A = s • B.point + T := by abel
  rw [h, left_eq_add]

/-- Among accepted commitments the uncofactored equation singles out those in
    the prime-order part, the key being there already. -/
theorem plain_iff_order_nsmul (A R : G) (k s : ℕ) (hA : B.order • A = 0)
    (h : B.Accepts A R k s) : s • B.point = R + k • A ↔ B.order • R = 0 := by
  rcases (B.accepts_iff_exists_torsion A R k s).mp h with ⟨T, hT, rfl⟩
  rw [plain_iff_torsion_eq_zero]
  -- The order kills everything in the commitment but its torsion.
  have horder : B.order • (s • B.point - k • A + T) = B.order • T := by
    rw [nsmul_add, nsmul_sub, order_nsmul_multiple, B.order_nsmul_nsmul A hA, sub_zero,
      zero_add]
  rw [horder]
  constructor
  · intro h0
    rw [h0, nsmul_zero]
  · intro h0
    exact B.cancel_cofactor T h0 hT

/-- The honest response to a commitment with any torsion component. -/
theorem accepts_response (secret nonce k s : ℕ) (T : G) (hT : B.cofactor • T = 0)
    (hs : (s : ZMod B.order) = (nonce + k * secret : ℕ)) :
    B.Accepts (secret • B.point) (nonce • B.point + T) k s := by
  rw [accepts_iff_exists_torsion]
  refine ⟨T, hT, ?_⟩
  rw [(B.nsmul_point_eq_iff s (nonce + k * secret)).mpr hs, add_nsmul, mul_nsmul',
    add_sub_cancel_right]

/-- Cofactored equality of two multiples of the base point is equality. -/
theorem cofactor_mul_nsmul_point_eq_iff (m n : ℕ) :
    (B.cofactor * m) • B.point = (B.cofactor * n) • B.point
      ↔ (m : ZMod B.order) = (n : ZMod B.order) := by
  -- Being coprime to the order, the cofactor is invertible modulo it.
  have hc : (B.cofactor : ZMod B.order) ≠ 0 := by
    rw [ne_eq, ZMod.natCast_eq_zero_iff]
    intro hdvd
    exact B.order_prime.one_lt.ne' (Nat.eq_one_of_dvd_coprimes B.coprime hdvd dvd_rfl)
  rw [nsmul_point_eq_iff, Nat.cast_mul, Nat.cast_mul, mul_right_inj' hc]

/-- Two accepted responses to one challenge agree modulo the order. -/
theorem response_unique (A R : G) (k s s' : ℕ) (h : B.Accepts A R k s)
    (h' : B.Accepts A R k s') : (s : ZMod B.order) = (s' : ZMod B.order) := by
  rw [Accepts] at h h'
  exact (B.cofactor_mul_nsmul_point_eq_iff s s').mp (h.trans h'.symm)

/-- Two accepted transcripts on one commitment, subtracted. The commitment and
    with it all torsion drops out. -/
theorem accepts_difference (A R : G) (k s k' s' : ℕ) (hA : B.order • A = 0)
    (h : B.Accepts A R k s) (h' : B.Accepts A R k' s') :
    s • B.point + k' • A = s' • B.point + k • A := by
  rw [Accepts, mul_nsmul', mul_nsmul'] at h h'
  -- The two sides differ by something the cofactor kills, and every term lies
  -- in the prime-order part.
  have hc : B.cofactor • ((s • B.point + k' • A) - (s' • B.point + k • A)) = 0 := by
    rw [nsmul_sub, nsmul_add, nsmul_add, h, h']
    abel
  have ho : B.order • ((s • B.point + k' • A) - (s' • B.point + k • A)) = 0 := by
    rw [nsmul_sub, nsmul_add, nsmul_add, order_nsmul_multiple, order_nsmul_multiple,
      B.order_nsmul_nsmul A hA, B.order_nsmul_nsmul A hA, sub_self]
  exact sub_eq_zero.mp (B.cancel_cofactor _ ho hc)

/-- Two accepted transcripts on one commitment with different challenges
    determine the key. -/
theorem extract_key (A R : G) (k s k' s' : ℕ) (hA : B.order • A = 0)
    (h : B.Accepts A R k s) (h' : B.Accepts A R k' s')
    (hk : (k : ZMod B.order) ≠ (k' : ZMod B.order)) :
    A = B.scale (((s : ZMod B.order) - s') * ((k : ZMod B.order) - k')⁻¹) := by
  have hdiff := B.accepts_difference A R k s k' s' hA h h'
  have hinv : ((k : ZMod B.order) - k') ≠ 0 := sub_ne_zero.mpr hk
  generalize hc : ((k : ZMod B.order) - k')⁻¹ = c
  have hcv : (c.val : ZMod B.order) = c := ZMod.natCast_zmod_val c
  -- Multiply the difference by the inverse and read off the coefficients.
  have hmul : (c.val * s) • B.point + (c.val * k') • A
      = (c.val * s') • B.point + (c.val * k) • A := by
    rw [mul_nsmul', mul_nsmul', mul_nsmul', mul_nsmul', ← nsmul_add, ← nsmul_add, hdiff]
  -- On the key's side the inverse turns the difference of the challenges
  -- into one.
  have hk1 : (c.val * k) • A = (c.val * k' + 1) • A := by
    refine B.nsmul_congr A hA _ _ ?_
    have hone : c * ((k : ZMod B.order) - k') = 1 := by
      rw [← hc, inv_mul_cancel₀ hinv]
    push_cast
    rw [hcv]
    linear_combination hone
  -- On the base point's side it turns that of the responses into the
  -- extracted residue.
  have hs1 : (c.val * s) • B.point
      = ((((s : ZMod B.order) - s') * c).val + c.val * s') • B.point := by
    rw [nsmul_point_eq_iff]
    push_cast
    rw [hcv, ZMod.natCast_zmod_val]
    ring
  rw [hk1, hs1, add_nsmul, add_nsmul, one_nsmul] at hmul
  rw [scale]
  have hzero := sub_eq_zero.mpr hmul
  rw [← sub_eq_zero, ← neg_eq_zero, ← hzero]
  abel

/-- A nonzero key makes the two responses different. -/
theorem extract_response_ne (A R : G) (k s k' s' : ℕ) (hA : B.order • A = 0) (hne : A ≠ 0)
    (h : B.Accepts A R k s) (h' : B.Accepts A R k' s')
    (hk : (k : ZMod B.order) ≠ (k' : ZMod B.order)) :
    (s : ZMod B.order) ≠ (s' : ZMod B.order) := by
  intro hs
  -- Equal responses would extract zero as the secret.
  refine hne ?_
  rw [B.extract_key A R k s k' s' hA h h' hk, hs, sub_self, zero_mul, scale, ZMod.val_zero,
    zero_nsmul]

end PrimeBase

end Cofactored

end Ed301
