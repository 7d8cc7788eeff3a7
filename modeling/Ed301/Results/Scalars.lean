import Ed301.Refine.Signing
import Ed301.Results.Points

/-!
# Scalars

Exactness of the scalar arithmetic and what it means for points. Word-wise
reduction is reduction of the whole number, for any number of words. The
pruned secret is used in two forms, its raw bits and its residue, and both
give the same multiple of every point the order kills, which is never the
identity. And the scalars the module hands out stay below the order along any
sequence of operations, which is the assumption its addition makes, so that
addition and multiplication of scalars act on such points as they should.

Below the order is an invariant and not a check: the addition never looks. So
it is stated for `Reachable`, the ways in which a scalar comes into being.

## Main definitions

* `Scalar.Reachable`: The scalars the code can compute.

## Theorems

* `reduction_is_exact`: The reducers compute the remainder.
* `secret_forms_agree`: The two forms of the secret agree.
* `Reachable.canonical`: Reachable scalars are below the order.
* `scalars_act_on_subgroup`: Scalar arithmetic is exact and acts on points.
-/

namespace Ed301

open Edwards

namespace Scalar

/-- The sum the words of an array spell. -/
theorem wordsInteger_toList {n : ℕ} (words : Vector UInt64 n) :
    Radix.wordsInteger words.toList = ∑ i : Fin n, (words.get i).toNat * 2 ^ (64 * (i : ℕ)) := by
  rw [Radix.wordsInteger_eq_sum]
  exact Fintype.sum_equiv (finCongr Vector.length_toList) _ _ fun _ => rfl

/-- The order divides no power of two. -/
theorem not_dvd_two_pow (i : ℕ) : ¬ scalarModulus ∣ 2 ^ i := by
  intro h
  have hle := Nat.le_of_dvd two_pos (prime_scalarModulus.dvd_of_dvd_pow h)
  exact absurd hle (by decide)

/-- Changing one bit of a number changes its remainder. -/
theorem xor_two_pow_mod_ne (n i : ℕ) :
    (n ^^^ 2 ^ i) % scalarModulus ≠ n % scalarModulus := by
  intro h
  -- The difference is a power of two, which the order does not divide.
  rcases Radix.xor_two_pow_cases n i with hadd | hsub
  · rw [hadd] at h
    have hdvd := (Nat.modEq_iff_dvd' (Nat.le_add_right n (2 ^ i))).mp h.symm
    rw [Nat.add_sub_cancel_left] at hdvd
    exact not_dvd_two_pow i hdvd
  · have hle : n ^^^ 2 ^ i ≤ n := Nat.le.intro hsub.symm
    have hdvd := (Nat.modEq_iff_dvd' hle).mp h
    rw [Nat.sub_eq_of_eq_add' hsub] at hdvd
    exact not_dvd_two_pow i hdvd

/-- Word-wise reduction is reduction modulo the order, of hash outputs, of
    pruned secrets and of any array of words. Every bit of a hash output
    counts, and the result is always below the order. -/
theorem reduction_is_exact :
    (∀ h : Bytes hashBytes,
      (reduceHashLe h).value = h.integer % scalarModulus ∧
      (reduceHashLe h).value < scalarModulus) ∧
    (∀ (h : Bytes hashBytes) (i : ℕ), i < 608 → reduceHashLe (h.flipBit i) ≠ reduceHashLe h) ∧
    (∀ e : Bytes scalarBytes,
      (reducePrunedLe e).value = e.integer % scalarModulus ∧
      (reducePrunedLe e).value < scalarModulus) ∧
    (∀ (n : ℕ) (w : Vector UInt64 n),
      (reduceWords w).value = (∑ i : Fin n, (w.get i).toNat * 2 ^ (64 * (i : ℕ))) % scalarModulus ∧
      (reduceWords w).value < scalarModulus) := by
  refine ⟨?_, ?_, ?_, ?_⟩
  · intro h
    exact ⟨reduceHashLe_value h, reduceHashLe_canonical h⟩
  · intro h i hi heq
    have hvalue := congrArg value heq
    rw [reduceHashLe_value, reduceHashLe_value, Bytes.integer_flipBit h i hi] at hvalue
    exact xor_two_pow_mod_ne h.integer i hvalue
  · intro e
    exact ⟨reducePrunedLe_value e, reducePrunedLe_canonical e⟩
  · intro n w
    have hvalue := reduceWords_value w
    rw [wordsInteger_toList] at hvalue
    exact ⟨hvalue, reduceWords_canonical w⟩

/-- The top bit of the partial word counts. -/
theorem reduction_is_exact_top :
    reduceHashLe (Bytes.flipBit (Vector.replicate hashBytes 0) 607)
      ≠ reduceHashLe (Vector.replicate hashBytes 0) :=
  reduction_is_exact.2.1 (Vector.replicate hashBytes 0) 607 (by norm_num)

/-- The scalars obtained from the parser and the reducers by arithmetic. -/
inductive Reachable : Scalar → Prop
  | fromCanonicalBytes (bytes : Bytes scalarBytes) (s : Scalar)
      (h : (fromCanonicalBytes bytes).intoOptionCopied = some s) : Reachable s
  | reduceHashLe (bytes : Bytes hashBytes) : Reachable (reduceHashLe bytes)
  | reducePrunedLe (bytes : Bytes scalarBytes) : Reachable (reducePrunedLe bytes)
  | add (u v : Scalar) (hu : Reachable u) (hv : Reachable v) : Reachable (u.add v)
  | mul (u v : Scalar) (hu : Reachable u) (hv : Reachable v) : Reachable (u.mul v)

/-- Every reachable scalar is below the order. -/
theorem Reachable.canonical (s : Scalar) (h : Reachable s) : s.Canonical := by
  induction h with
  | fromCanonicalBytes bytes s h =>
      rcases (CtOption.intoOptionCopied_eq_some_iff _ s).mp h with ⟨hsome, rfl⟩
      rw [Canonical, fromCanonicalBytes_value]
      exact (fromCanonicalBytes_isSome_iff bytes).mp hsome
  | reduceHashLe bytes => exact reduceHashLe_canonical bytes
  | reducePrunedLe bytes => exact reducePrunedLe_canonical bytes
  | add u v _ _ ihu ihv => exact add_canonical u v ihu ihv
  | mul u v _ _ _ _ => exact mul_canonical u v

/-- Scalars stay below the order, so the sum inside an addition stays below
    twice the order and never wraps; addition and multiplication are exact
    modulo the order; and on the points the order kills they are addition and
    composition of multiples, which all stand for the multiple that they
    should. -/
theorem scalars_act_on_subgroup (u v : Scalar) (hu : Reachable u) (hv : Reachable v) :
    u.value < scalarModulus ∧
    u.value + v.value < 2 * modulus.toNat ∧
    (U320.carryingAdd u.integer v.integer).2 = false ∧
    (U320.carryingAdd u.integer v.integer).1.toNat = u.value + v.value ∧
    (u.add v).value = (u.value + v.value) % scalarModulus ∧
    (u.mul v).value = u.value * v.value % scalarModulus ∧
    ∀ (P : EdwardsPoint) (hP : Valid curve P.coords), scalarModulus • hP.toPoint = 0 →
      (P.scalarMul u).Denotes (u.value • hP.toPoint) ∧
      (P.scalarMul (u.add v)).Denotes ((u.value + v.value) • hP.toPoint) ∧
      ((P.scalarMul u).add (P.scalarMul v)).Denotes ((u.value + v.value) • hP.toPoint) ∧
      (P.scalarMul (u.mul v)).Denotes ((u.value * v.value) • hP.toPoint) ∧
      ((P.scalarMul v).scalarMul u).Denotes ((u.value * v.value) • hP.toPoint) ∧
      (P.scalarMul (u.add v)).ctEq ((P.scalarMul u).add (P.scalarMul v)) = true ∧
      (P.scalarMul (u.mul v)).ctEq ((P.scalarMul v).scalarMul u) = true := by
  have hcu := hu.canonical
  have hcv := hv.canonical
  have hsum : u.value + v.value < 2 * scalarModulus := by
    rw [Canonical] at hcu hcv
    omega
  have hwrap : u.value + v.value < 2 ^ 320 :=
    calc u.value + v.value < 2 * scalarModulus := hsum
      _ < 2 * 2 ^ 300 := Nat.mul_lt_mul_of_pos_left scalarModulus_bounds.2 two_pos
      _ = 2 ^ 301 := (pow_succ' 2 300).symm
      _ ≤ 2 ^ 320 := Nat.pow_le_pow_right two_pos (by norm_num)
  refine ⟨hcu, ?_, ?_, ?_, add_value u v hcu hcv, mul_value u v, ?_⟩
  · rwa [modulus_toNat]
  · rw [U320.carryingAdd, decide_eq_false_iff_not, not_le]
    exact hwrap
  · rw [U320.carryingAdd, BitVec.toNat_add, Nat.mod_eq_of_lt hwrap]
  · intro P hP horder
    have hA : P.Denotes hP.toPoint := hP.represents
    generalize hP.toPoint = A at hA horder ⊢
    have hmulU := EdwardsPoint.scalarMul_denotes P A hA u hcu
    have hmulV := EdwardsPoint.scalarMul_denotes P A hA v hcv
    -- The order kills the point, so the reductions of sum and product are
    -- harmless.
    have hmod : ∀ k : ℕ, (k % scalarModulus) • A = k • A := primeBase.mod_nsmul A horder
    have hsumLeft := EdwardsPoint.scalarMul_denotes P A hA (u.add v) (add_canonical u v hcu hcv)
    rw [add_value u v hcu hcv, hmod] at hsumLeft
    have hsumRight := EdwardsPoint.add_denotes _ _ _ _ hmulU hmulV
    rw [← add_nsmul] at hsumRight
    have hmulLeft := EdwardsPoint.scalarMul_denotes P A hA (u.mul v) (mul_canonical u v)
    rw [mul_value, hmod] at hmulLeft
    have hmulRight := EdwardsPoint.scalarMul_denotes _ _ hmulV u hcu
    rw [← mul_nsmul'] at hmulRight
    refine ⟨hmulU, hsumLeft, hsumRight, hmulLeft, hmulRight, ?_, ?_⟩
    · rw [EdwardsPoint.ctEq_iff _ _ _ _ hsumLeft hsumRight]
    · rw [EdwardsPoint.ctEq_iff _ _ _ _ hmulLeft hmulRight]

/-- Two reducer outputs acting on the base point. -/
theorem scalars_act_on_subgroup_basepoint :
    (EdwardsPoint.basepoint.scalarMul ((reduceHashLe (Vector.replicate hashBytes 255)).add
        (reducePrunedLe (Vector.replicate scalarBytes 255)))).ctEq
      ((EdwardsPoint.basepoint.scalarMul (reduceHashLe (Vector.replicate hashBytes 255))).add
        (EdwardsPoint.basepoint.scalarMul (reducePrunedLe (Vector.replicate scalarBytes 255))))
      = true := by
  have hvalid := EdwardsPoint.basepoint_denotes.valid
  have hpoint := EdwardsPoint.basepoint_denotes.toPoint_eq hvalid
  have horder : scalarModulus • hvalid.toPoint = 0 := by
    rw [hpoint]
    exact scalarModulus_nsmul_generator
  rcases scalars_act_on_subgroup _ _ (Reachable.reduceHashLe (Vector.replicate hashBytes 255))
    (Reachable.reducePrunedLe (Vector.replicate scalarBytes 255)) with ⟨_, _, _, _, _, _, hact⟩
  rcases hact EdwardsPoint.basepoint hvalid horder with ⟨_, _, _, _, _, hsum, _⟩
  exact hsum

end Scalar

namespace ExpandedSecret

/-- The two forms of the secret agree. Whatever the lower half of the expanded
    seed, the pruned integer has 301 bits, is a multiple of four and is not a
    multiple of the order, so its residue is not zero. Its raw bits and its
    residue give the same multiple of any point the order kills, the one by the
    pruned integer, and if the point is not the identity, neither is the
    multiple. -/
theorem secret_forms_agree (lower : Bytes fieldBytes) :
    (2 ^ 300 ≤ (prune lower).integer ∧ (prune lower).integer < 2 ^ 301 ∧
      4 ∣ (prune lower).integer ∧ ¬ scalarModulus ∣ (prune lower).integer) ∧
    (Scalar.reducePrunedLe (prune lower)).value = (prune lower).integer % scalarModulus ∧
    (Scalar.reducePrunedLe (prune lower)).value ≠ 0 ∧
    (∀ (P : EdwardsPoint) (hP : Valid curve P.coords), scalarModulus • hP.toPoint = 0 →
      (P.scalarMulPruned (prune lower)).Denotes ((prune lower).integer • hP.toPoint) ∧
      (P.scalarMul (Scalar.reducePrunedLe (prune lower))).Denotes
        ((prune lower).integer • hP.toPoint) ∧
      (P.scalarMulPruned (prune lower)).ctEq
        (P.scalarMul (Scalar.reducePrunedLe (prune lower))) = true ∧
      (hP.toPoint ≠ 0 →
        (P.scalarMulPruned (prune lower)).isIdentity = false ∧
        (P.scalarMul (Scalar.reducePrunedLe (prune lower))).isIdentity = false ∧
        (P.scalarMulPruned (prune lower)).isPrimeSubgroupNonidentity = true)) ∧
    (EdwardsPoint.basepoint.scalarMulPruned (prune lower)).isPrimeSubgroupNonidentity = true := by
  have hbounds := prunedInteger_bounds lower.integer
  have hdvd := prunedInteger_not_dvd lower.integer
  rw [← prune_integer] at hbounds hdvd
  have hvalue := Scalar.reducePrunedLe_value (prune lower)
  refine ⟨⟨hbounds.1, hbounds.2.1, hbounds.2.2, hdvd⟩, hvalue, ?_, ?_,
    isPrimeSubgroupNonidentity_pruned lower _ generator EdwardsPoint.basepoint_denotes
      scalarModulus_nsmul_generator generator_ne_zero⟩
  · rw [hvalue]
    intro hzero
    exact hdvd (Nat.dvd_of_mod_eq_zero hzero)
  · intro P hP horder
    have hA : P.Denotes hP.toPoint := hP.represents
    generalize hP.toPoint = A at hA horder ⊢
    have hraw := scalarMulPruned_prune_denotes lower P A hA
    have hreduced := EdwardsPoint.scalarMul_denotes P A hA _
      (Scalar.reducePrunedLe_canonical (prune lower))
    -- The order kills the point, so only the residue of the secret matters.
    have hmod : ∀ k : ℕ, (k % scalarModulus) • A = k • A := primeBase.mod_nsmul A horder
    rw [hvalue, hmod] at hreduced
    refine ⟨hraw, hreduced, ?_, ?_⟩
    · rw [EdwardsPoint.ctEq_iff _ _ _ _ hraw hreduced]
    · intro hne
      have hmultiple := primeBase.nsmul_ne_zero A horder hne _ hdvd
      refine ⟨?_, ?_, isPrimeSubgroupNonidentity_pruned lower P A hA horder hne⟩
      · rw [← Bool.not_eq_true, EdwardsPoint.isIdentity_iff _ _ hraw]
        exact hmultiple
      · rw [← Bool.not_eq_true, EdwardsPoint.isIdentity_iff _ _ hreduced]
        exact hmultiple

/-- The two forms of the all-zero string's secret on the base point. -/
theorem secret_forms_agree_basepoint :
    (EdwardsPoint.basepoint.scalarMulPruned (prune (Vector.replicate fieldBytes 0))).ctEq
        (EdwardsPoint.basepoint.scalarMul
          (Scalar.reducePrunedLe (prune (Vector.replicate fieldBytes 0)))) = true ∧
      (EdwardsPoint.basepoint.scalarMulPruned
        (prune (Vector.replicate fieldBytes 0))).isIdentity = false := by
  have hvalid := EdwardsPoint.basepoint_denotes.valid
  have hpoint := EdwardsPoint.basepoint_denotes.toPoint_eq hvalid
  have horder : scalarModulus • hvalid.toPoint = 0 := by
    rw [hpoint]
    exact scalarModulus_nsmul_generator
  have hne : hvalid.toPoint ≠ 0 := by
    rw [hpoint]
    exact generator_ne_zero
  rcases secret_forms_agree (Vector.replicate fieldBytes 0) with ⟨_, _, _, hpoints, _⟩
  rcases hpoints EdwardsPoint.basepoint hvalid horder with ⟨_, _, hagree, hnonzero⟩
  exact ⟨hagree, (hnonzero hne).1⟩

end ExpandedSecret

end Ed301
