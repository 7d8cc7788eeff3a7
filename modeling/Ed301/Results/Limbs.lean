import Ed301.Refine.Extended

/-!
# The Scheme on Limbs

What the machine computes, against the model of residues, over whole runs.

Any program over the operations on limbs keeps its registers reduced and says
what the same program over residues says, flags included. In particular the
point formulas, the loop of 301 rounds and the square root do, and the equation
a signature is checked by gives the same verdict. Scalars are reduced and
combined on limbs to the integers of the model.

## Theorems

* `programs_on_limbs`: Any program, over any number of limbs.
* `points_on_limbs`: The point formulas and predicates.
* `verification_on_limbs`: The equation of a signature.
* `sqrt_on_limbs`: Square roots.
* `response_on_limbs`: The response of a signature.
-/

namespace Ed301

open Program FixedMontyForm

variable {n : ℕ}

/-- Any program over the operations on limbs, from any state whose registers
    are stored residues: the registers stay reduced, stand for what the program
    over residues computes and retrieve to it, and the flags are the same. -/
theorem programs_on_limbs {params : MontyParams n} {m : ℕ} [NeZero m] (hparams : params.Valid m)
    (program : List (Instr (Uint n) BoundedExponent)) (s : State (FixedMontyForm params))
    (t : State (ConstMontyForm m)) (h : Related Represents s t) :
    (run (FixedMontyForm.ops params) program s).flags
        = (run (ConstMontyForm.ops n m) program t).flags ∧
      ∀ i, ((run (FixedMontyForm.ops params) program s).regs i).montgomeryForm.toNat < m ∧
        ((run (FixedMontyForm.ops params) program s).regs i).retrieve.toNat
          = ((run (ConstMontyForm.ops n m) program t).regs i).residue := by
  -- Retrieving is the one place where the reduction of the registers is needed.
  have hrun := run_refines (FixedMontyForm.refines hparams) program h
  refine ⟨hrun.flags, fun i => ⟨(hrun.regs i).lt, ?_⟩⟩
  exact Represents.toNat_retrieve hparams (hrun.regs i)

theorem programs_on_limbs_field :
    (run (FixedMontyForm.ops fieldParams)
        [.new 0 (Uint.ofNat 5 301), .pow 1 0 ⟨1, Uint.ofNat 1 302, 9⟩, .half 2 1, .ctEq 0 1 2]
        ⟨fun _ => FixedMontyForm.zero, fun _ => false⟩).flags
        = (run (ConstMontyForm.ops 5 fieldModulus)
          [.new 0 (Uint.ofNat 5 301), .pow 1 0 ⟨1, Uint.ofNat 1 302, 9⟩, .half 2 1, .ctEq 0 1 2]
          ⟨fun _ => ConstMontyForm.zero, fun _ => false⟩).flags ∧
      ∀ i, ((run (FixedMontyForm.ops fieldParams)
          [.new 0 (Uint.ofNat 5 301), .pow 1 0 ⟨1, Uint.ofNat 1 302, 9⟩, .half 2 1, .ctEq 0 1 2]
          ⟨fun _ => FixedMontyForm.zero, fun _ => false⟩).regs i).montgomeryForm.toNat
            < fieldModulus ∧
        ((run (FixedMontyForm.ops fieldParams)
          [.new 0 (Uint.ofNat 5 301), .pow 1 0 ⟨1, Uint.ofNat 1 302, 9⟩, .half 2 1, .ctEq 0 1 2]
          ⟨fun _ => FixedMontyForm.zero, fun _ => false⟩).regs i).retrieve.toNat
          = ((run (ConstMontyForm.ops 5 fieldModulus)
            [.new 0 (Uint.ofNat 5 301), .pow 1 0 ⟨1, Uint.ofNat 1 302, 9⟩, .half 2 1, .ctEq 0 1 2]
            ⟨fun _ => ConstMontyForm.zero, fun _ => false⟩).regs i).residue :=
  programs_on_limbs fieldParams_valid _ _ _ ⟨fun _ => Represents.zero, rfl⟩

/-- Points over limbs that stand for points of the model: sums, doubles,
    negatives, selections and multiples by any 301 bits stand for those of the
    model, and the predicates agree. -/
theorem points_on_limbs (P Q : Extended (FixedMontyForm fieldParams)) (p q : EdwardsPoint)
    (hP : StoredPoint P p) (hQ : StoredPoint Q q) :
    let F := FixedMontyForm.ops fieldParams
    let C := CurveConstants.ofWords F
    StoredPoint (P.add F C Q) (p.add q) ∧
    StoredPoint (P.double F C) p.double ∧
    StoredPoint (P.negate F) p.negate ∧
    (∀ choice, StoredPoint (Extended.conditionalSelect F P Q choice)
      (EdwardsPoint.conditionalSelect p q choice)) ∧
    (∀ scalarBit, StoredPoint (P.scalarMulWith F C scalarBit) (p.scalarMulWith scalarBit)) ∧
    P.isIdentity F = p.isIdentity ∧
    P.isPrimeSubgroup F C = p.isPrimeSubgroup ∧
    P.isValid F C = p.isValid ∧
    P.ctEq F Q = p.ctEq q := by
  -- Each operation of the model is the generic formula over residues, and the
  -- formula over limbs is related to that.
  refine ⟨?_, ?_, ?_, fun choice => ?_, fun scalarBit => ?_, ?_, ?_, ?_, ?_⟩
  · have hadd := Extended.Rel.add fieldRefines relConstants hP hQ
    rw [← EdwardsPoint.toExtended_add] at hadd
    exact hadd
  · have hdouble := Extended.Rel.double fieldRefines relConstants hP
    rw [← EdwardsPoint.toExtended_double] at hdouble
    exact hdouble
  · have hnegate := Extended.Rel.negate fieldRefines hP
    rw [← EdwardsPoint.toExtended_negate] at hnegate
    exact hnegate
  · have hselect := Extended.Rel.conditionalSelect fieldRefines hP hQ choice
    rw [← EdwardsPoint.toExtended_conditionalSelect] at hselect
    exact hselect
  · have hmul := Extended.Rel.scalarMulWith fieldRefines relConstants hP scalarBit
    rw [← EdwardsPoint.toExtended_scalarMulWith] at hmul
    exact hmul
  · rw [EdwardsPoint.isIdentity_eq]
    exact Extended.Rel.isIdentity fieldRefines hP
  · rw [EdwardsPoint.isPrimeSubgroup_eq]
    exact Extended.Rel.isPrimeSubgroup fieldRefines relConstants hP
  · rw [EdwardsPoint.isValid_eq]
    exact Extended.Rel.isValid fieldRefines relConstants hP
  · rw [EdwardsPoint.ctEq_eq]
    exact Extended.Rel.ctEq fieldRefines hP hQ

theorem points_on_limbs_basepoint :
    let F := FixedMontyForm.ops fieldParams
    let C := CurveConstants.ofWords F
    let P := EdwardsPoint.basepoint.store
    let Q := EdwardsPoint.identity.store
    let p := EdwardsPoint.basepoint
    let q := EdwardsPoint.identity
    StoredPoint (P.add F C Q) (p.add q) ∧
    StoredPoint (P.double F C) p.double ∧
    StoredPoint (P.negate F) p.negate ∧
    (∀ choice, StoredPoint (Extended.conditionalSelect F P Q choice)
      (EdwardsPoint.conditionalSelect p q choice)) ∧
    (∀ scalarBit, StoredPoint (P.scalarMulWith F C scalarBit) (p.scalarMulWith scalarBit)) ∧
    P.isIdentity F = p.isIdentity ∧
    P.isPrimeSubgroup F C = p.isPrimeSubgroup ∧
    P.isValid F C = p.isValid ∧
    P.ctEq F Q = p.ctEq q :=
  points_on_limbs _ _ _ _ EdwardsPoint.basepoint.storedPoint_store
    EdwardsPoint.identity.storedPoint_store

/-- A signature is checked on limbs with the verdict of the model: the bits of
    the response and of the challenge are read off limbs, the challenge is
    reduced from the digest on limbs, and both sides of the equation are
    computed and compared on limbs. -/
theorem verification_on_limbs (H : Xof) (key : VerifyingKey) (message : List UInt8)
    (signature : Signature) (B K C : Extended (FixedMontyForm fieldParams)) (response : Uint 5)
    (hB : StoredPoint B EdwardsPoint.basepoint) (hK : StoredPoint K key.point)
    (hC : StoredPoint C signature.commitment)
    (hresponse : response.toNat = signature.response.value) :
    LimbVerify.verify H B K C key.encoded signature.commitmentEncoding response message
      = key.verify H message signature := by
  -- Both verdicts are the one equation over residues.
  have hequation := LimbVerify.verify_eq H hB hK hC key.encoded signature.commitmentEncoding
    hresponse message
  rw [VerifyingKey.verify_eq]
  exact hequation

theorem verification_on_limbs_basepoint :
    LimbVerify.verify (fun _ => Vector.replicate hashBytes 0) EdwardsPoint.basepoint.store
        EdwardsPoint.basepoint.store EdwardsPoint.identity.store (Vector.replicate publicKeyBytes 0)
        (Vector.replicate fieldBytes 0) (Uint.ofNat 5 1) []
      = VerifyingKey.verify (fun _ => Vector.replicate hashBytes 0)
        ⟨Vector.replicate publicKeyBytes 0, EdwardsPoint.basepoint⟩ []
        ⟨Vector.replicate signatureBytes 0, Vector.replicate fieldBytes 0, EdwardsPoint.identity,
          ⟨1#320⟩⟩ :=
  verification_on_limbs _ ⟨Vector.replicate publicKeyBytes 0, EdwardsPoint.basepoint⟩ []
    ⟨Vector.replicate signatureBytes 0, Vector.replicate fieldBytes 0, EdwardsPoint.identity,
      ⟨1#320⟩⟩ _ _ _ (Uint.ofNat 5 1) EdwardsPoint.basepoint.storedPoint_store
    EdwardsPoint.basepoint.storedPoint_store EdwardsPoint.identity.storedPoint_store
    (by decide)

/-- The response of a signature on limbs: the two hashes and the pruned secret
    are reduced, multiplied and added to the integer of the model, which is
    below the order. -/
theorem response_on_limbs (nonceHash challengeHash : Bytes hashBytes)
    (prunedScalar : Bytes scalarBytes) :
    (LimbScalar.add (LimbScalar.reduceHashLe nonceHash)
      (LimbScalar.mul (LimbScalar.reduceHashLe challengeHash)
        (LimbScalar.reducePrunedLe prunedScalar))).toNat
      = ((hashToScalar nonceHash).add
          ((hashToScalar challengeHash).mul (Scalar.reducePrunedLe prunedScalar))).value ∧
    (LimbScalar.add (LimbScalar.reduceHashLe nonceHash)
      (LimbScalar.mul (LimbScalar.reduceHashLe challengeHash)
        (LimbScalar.reducePrunedLe prunedScalar))).toNat < scalarModulus := by
  have hmul := LimbScalar.toNat_mul _ _ _ _ (LimbScalar.toNat_reduceHashLe challengeHash)
    (LimbScalar.toNat_reducePrunedLe prunedScalar)
  -- The addition subtracts the order once, so both summands have to be below it.
  have hnonce := Scalar.reduceHashLe_canonical nonceHash
  have hterm := Scalar.mul_canonical (Scalar.reduceHashLe challengeHash)
    (Scalar.reducePrunedLe prunedScalar)
  have hadd := LimbScalar.toNat_add _ _ _ _ hnonce hterm
    (LimbScalar.toNat_reduceHashLe nonceHash) hmul
  refine ⟨hadd, ?_⟩
  rw [hadd]
  exact Scalar.add_canonical _ _ hnonce hterm

/-- The square root on limbs is present exactly when the model's is, and stands
    for it. -/
theorem sqrt_on_limbs (a : FixedMontyForm fieldParams) (b : FieldElement)
    (h : Represents a b.inner) :
    a.sqrt.isSome = b.sqrt.isSome ∧ Represents a.sqrt.value b.sqrt.value.inner := by
  -- The root is computed for every input, and its square tells if it is one.
  have hpow := represents_powBoundedExp fieldParams_valid h sqrtExponent sqrtExponentBits
  have hsquare := Represents.square fieldParams_valid hpow
  have hcheck := Represents.ctEq fieldParams_valid hsquare h
  unfold FixedMontyForm.sqrt FieldElement.sqrt
  simp only [FieldElement.ctEq, FieldElement.square]
  exact ⟨hcheck, hpow⟩

theorem sqrt_on_limbs_four :
    (FieldElement.fromU64 4).inner.store.sqrt.isSome = (FieldElement.fromU64 4).sqrt.isSome ∧
      Represents (FieldElement.fromU64 4).inner.store.sqrt.value
        (FieldElement.fromU64 4).sqrt.value.inner :=
  sqrt_on_limbs _ _ (FieldElement.fromU64 4).inner.represents_store

end Ed301
