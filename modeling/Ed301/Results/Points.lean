import Ed301.Refine.PointCodec
import Ed301.Refine.Subgroup

/-!
# Point Arithmetic

What the point operations guarantee to their callers. Two results are stated
about extended coordinates in any scaling: the operations are those of an
abelian group, with the code's own comparison in the place of equality, and
every point the code can get hold of satisfies the three conditions of a
valid point.

The second is an invariant over computations. `Reachable` lists the ways a
point comes into being, the two constants, the decoder and the operations, and
the invariant kept along them is that the point denotes something. A point
with a vanishing `Z` would compare equal to every other, so it matters that no
sequence of operations produces one.

## Main definitions

* `EdwardsPoint.affine`: The affine coordinates.
* `EdwardsPoint.Reachable`: The points the code can compute.

## Theorems

* `Reachable.denotes`: Every reachable point denotes an affine point.
* `group_laws`: The operations form an abelian group up to comparison.
* `reachable_valid`: Reachable points are valid, and the predicates on them
  are exact.
-/

namespace Ed301

open Edwards Draft

namespace EdwardsPoint

/-- The affine coordinates of a point. -/
def affine (self : EdwardsPoint) : ZMod fieldModulus × ZMod fieldModulus :=
  (self.x.toZMod / self.z.toZMod, self.y.toZMod / self.z.toZMod)

theorem affine_of_denotes (P : EdwardsPoint) (A : Point curve) (hP : P.Denotes A) :
    P.affine = (A.x, A.y) := by
  have hz : P.z.toZMod ≠ 0 := hP.z_ne_zero
  rw [affine, Prod.mk.injEq, div_eq_iff hz, div_eq_iff hz]
  exact ⟨hP.x_eq, hP.y_eq⟩

/-- The points obtained from the constants and the decoder by the
    operations. -/
inductive Reachable : EdwardsPoint → Prop
  | identity : Reachable identity
  | basepoint : Reachable basepoint
  | decode (b : Bytes fieldBytes) (P : EdwardsPoint) (h : decode b = .ok P) : Reachable P
  | add (P Q : EdwardsPoint) (hP : Reachable P) (hQ : Reachable Q) : Reachable (P.add Q)
  | double (P : EdwardsPoint) (hP : Reachable P) : Reachable P.double
  | negate (P : EdwardsPoint) (hP : Reachable P) : Reachable P.negate
  | multiplyByCofactor (P : EdwardsPoint) (hP : Reachable P) : Reachable P.multiplyByCofactor
  | conditionalSelect (P Q : EdwardsPoint) (choice : Choice) (hP : Reachable P)
      (hQ : Reachable Q) : Reachable (conditionalSelect P Q choice)
  | scalarMul (P : EdwardsPoint) (scalar : Scalar) (hP : Reachable P) :
      Reachable (P.scalarMul scalar)
  | scalarMulPruned (P : EdwardsPoint) (scalar : Bytes fieldBytes) (hP : Reachable P) :
      Reachable (P.scalarMulPruned scalar)

/-- Every reachable point denotes an affine point. -/
theorem Reachable.denotes (P : EdwardsPoint) (h : Reachable P) :
    ∃ A : Point curve, P.Denotes A := by
  induction h with
  | identity => exact ⟨0, identity_denotes⟩
  | basepoint => exact ⟨generator, basepoint_denotes⟩
  | decode b P h =>
      rcases (decode_eq_ok_iff b P).mp h with ⟨A, _, rfl⟩
      exact ⟨A, ofPoint_denotes A⟩
  | add P Q _ _ ihP ihQ =>
      rcases ihP with ⟨A, hA⟩
      rcases ihQ with ⟨B, hB⟩
      exact ⟨A + B, add_denotes P Q A B hA hB⟩
  | double P _ ih =>
      rcases ih with ⟨A, hA⟩
      exact ⟨A + A, double_denotes P A hA⟩
  | negate P _ ih =>
      rcases ih with ⟨A, hA⟩
      exact ⟨-A, negate_denotes P A hA⟩
  | multiplyByCofactor P _ ih =>
      rcases ih with ⟨A, hA⟩
      exact ⟨4 • A, multiplyByCofactor_denotes P A hA⟩
  | conditionalSelect P Q choice _ _ ihP ihQ =>
      rcases ihP with ⟨A, hA⟩
      rcases ihQ with ⟨B, hB⟩
      exact ⟨_, conditionalSelect_denotes P Q A B choice hA hB⟩
  | scalarMul P scalar _ ih =>
      -- The loop reads 301 bits of whatever integer the scalar holds.
      rcases ih with ⟨A, hA⟩
      exact ⟨_, scalarMulWith_denotes P A hA _ scalar.value (fun _ _ => rfl)⟩
  | scalarMulPruned P scalar _ ih =>
      rcases ih with ⟨A, hA⟩
      exact ⟨_, scalarMulEncoded_denotes P A hA scalar⟩

/-- The point operations are those of an abelian group up to comparison, on
    valid points in any scaling: they stand for the neutral point, the sum, the
    double and the inverse, and comparison is a congruence for them. -/
theorem group_laws (P Q W P' Q' : EdwardsPoint) (hP : Valid curve P.coords)
    (hQ : Valid curve Q.coords) (hW : Valid curve W.coords) (hP' : Valid curve P'.coords)
    (hQ' : Valid curve Q'.coords) :
    identity.Denotes 0 ∧
    (P.add Q).Denotes (hP.toPoint + hQ.toPoint) ∧
    P.double.Denotes (hP.toPoint + hP.toPoint) ∧
    P.negate.Denotes (-hP.toPoint) ∧
    ((P.add Q).add W).ctEq (P.add (Q.add W)) = true ∧
    (P.add Q).ctEq (Q.add P) = true ∧
    (P.add identity).ctEq P = true ∧
    (P.add P.negate).isIdentity = true ∧
    P.ctEq P = true ∧
    (P.ctEq Q = true → Q.ctEq P = true) ∧
    (P.ctEq Q = true → Q.ctEq W = true → P.ctEq W = true) ∧
    (P.ctEq P' = true → Q.ctEq Q' = true → (P.add Q).ctEq (P'.add Q') = true) ∧
    (P.ctEq P' = true → P.double.ctEq P'.double = true) ∧
    (P.ctEq P' = true → P.negate.ctEq P'.negate = true) := by
  have hA : P.Denotes hP.toPoint := hP.represents
  have hB : Q.Denotes hQ.toPoint := hQ.represents
  have hC : W.Denotes hW.toPoint := hW.represents
  have hA' : P'.Denotes hP'.toPoint := hP'.represents
  have hB' : Q'.Denotes hQ'.toPoint := hQ'.represents
  generalize hP.toPoint = A at hA ⊢
  generalize hQ.toPoint = B at hB ⊢
  generalize hW.toPoint = C at hC
  generalize hP'.toPoint = A' at hA'
  generalize hQ'.toPoint = B' at hB'
  -- What the composite points denote; comparison then is equality in the group.
  have hAB := add_denotes P Q A B hA hB
  have hBC := add_denotes Q W B C hB hC
  have hAA := double_denotes P A hA
  have hnegA := negate_denotes P A hA
  refine ⟨identity_denotes, hAB, hAA, hnegA, ?_, ?_, ?_, ?_, ?_, ?_, ?_, ?_, ?_, ?_⟩
  · rw [ctEq_iff _ _ _ _ (add_denotes _ W _ C hAB hC) (add_denotes P _ A _ hA hBC)]
    exact add_assoc A B C
  · rw [ctEq_iff _ _ _ _ hAB (add_denotes Q P B A hB hA)]
    exact add_comm A B
  · rw [ctEq_iff _ _ _ _ (add_denotes P _ A 0 hA identity_denotes) hA]
    exact add_zero A
  · rw [isIdentity_iff _ _ (add_denotes P _ A _ hA hnegA)]
    exact add_neg_cancel A
  · rw [ctEq_iff P P A A hA hA]
  · rw [ctEq_iff P Q A B hA hB, ctEq_iff Q P B A hB hA]
    exact Eq.symm
  · rw [ctEq_iff P Q A B hA hB, ctEq_iff Q W B C hB hC, ctEq_iff P W A C hA hC]
    exact Eq.trans
  · rw [ctEq_iff P P' A A' hA hA', ctEq_iff Q Q' B B' hB hB',
      ctEq_iff _ _ _ _ hAB (add_denotes P' Q' A' B' hA' hB')]
    intro h h'
    rw [h, h']
  · rw [ctEq_iff P P' A A' hA hA', ctEq_iff _ _ _ _ hAA (double_denotes P' A' hA')]
    intro h
    rw [h]
  · rw [ctEq_iff P P' A A' hA hA', ctEq_iff _ _ _ _ hnegA (negate_denotes P' A' hA')]
    intro h
    rw [h]

/-- The laws at the base point, its double, and rescaled copies of it and of
    the identity. -/
theorem group_laws_basepoint :
    basepoint.double.Denotes (generator + generator) ∧
      ((basepoint.add identity.double).add basepoint.double).ctEq
        (basepoint.add (identity.double.add basepoint.double)) = true ∧
      (basepoint.add identity.double).ctEq ((basepoint.add identity).add identity) = true := by
  have hB : Valid curve basepoint.coords := basepoint_denotes.valid
  have hD : Valid curve basepoint.double.coords := (double_denotes _ _ basepoint_denotes).valid
  have hB' := add_denotes _ _ _ _ basepoint_denotes identity_denotes
  have hO' := double_denotes _ _ identity_denotes
  rcases group_laws basepoint identity.double basepoint.double (basepoint.add identity) identity
    hB hO'.valid hD hB'.valid identity_denotes.valid with
    ⟨_, _, hdouble, _, hassoc, _, _, _, _, _, _, hcongr, _, _⟩
  refine ⟨?_, hassoc, hcongr ?_ ?_⟩
  · rw [← basepoint_denotes.toPoint_eq hB]
    exact hdouble
  · rw [ctEq_iff _ _ _ _ basepoint_denotes hB', add_zero]
  · rw [ctEq_iff _ _ _ _ hO' identity_denotes, add_zero]

/-- Every reachable point is valid, encodes without error, and is recognised
    and compared exactly; and two of the decoder's exits are never taken. -/
theorem reachable_valid (P Q : EdwardsPoint) (hP : Reachable P) (hQ : Reachable Q)
    (b : Bytes fieldBytes) :
    Valid curve P.coords ∧
    (∃ bytes, P.encode = .ok bytes) ∧
    (∃ bytes, P.encodePublicArtifact = .ok bytes) ∧
    (P.isIdentity = true ↔ P.affine = (0, 1)) ∧
    (P.ctEq Q = true ↔ P.affine = Q.affine) ∧
    decodeExits b ≠ .error .missingInverse ∧
    decodeExits b ≠ .error .invalidPoint := by
  rcases hP.denotes with ⟨A, hA⟩
  rcases hQ.denotes with ⟨B, hB⟩
  refine ⟨hA.valid, ⟨_, encode_of_denotes P A hA⟩, ⟨_, encodePublicArtifact_of_denotes P A hA⟩,
    ?_, ?_, ?_, ?_⟩
  · rw [isIdentity_iff P A hA, affine_of_denotes P A hA, Prod.mk.injEq, Point.ext_iff,
      Point.zero_x, Point.zero_y]
  · rw [ctEq_iff P Q A B hA hB, affine_of_denotes P A hA, affine_of_denotes Q B hB,
      Prod.mk.injEq, Point.ext_iff]
  -- Neither exit is among the ways through the decoder.
  · rcases decodeExits_cases b with ⟨_, h⟩ | ⟨_, h⟩ | ⟨_, h⟩ | ⟨_, _, h⟩ | ⟨_, _, h⟩ <;>
      rw [h] <;> exact nofun
  · rcases decodeExits_cases b with ⟨_, h⟩ | ⟨_, h⟩ | ⟨_, h⟩ | ⟨_, _, h⟩ | ⟨_, _, h⟩ <;>
      rw [h] <;> exact nofun

/-- The invariant at the doubled base point and the identity. -/
theorem reachable_valid_double :
    Valid curve basepoint.double.coords ∧
      (basepoint.double.isIdentity = true ↔ basepoint.double.affine = (0, 1)) := by
  rcases reachable_valid basepoint.double identity (Reachable.double _ Reachable.basepoint)
    Reachable.identity (Vector.replicate fieldBytes 0) with ⟨hvalid, _, _, hidentity, _, _, _⟩
  exact ⟨hvalid, hidentity⟩

end EdwardsPoint

end Ed301
