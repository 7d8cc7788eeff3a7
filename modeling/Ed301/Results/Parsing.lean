import Ed301.Refine.Signature

/-!
# Accepted Keys and Signatures

What the two parsers accept, and that nothing is lost between the bytes and
the values they stand for.

A public key is accepted exactly if it encodes a point of the full prime
order. Adding torsion to a point leaves an encoding that the general decoder
takes and the key parser refuses, which is the difference between the two.

A signature is accepted exactly if it is a point's encoding followed by the
encoding of a number below the order. The point and the number are what the
parsed signature holds, and writing them out again gives the same bytes, so a
parsed signature has one wire form.

## Theorems

* `VerifyingKey.fromBytes_error`: The key parser has one error.
* `keys_are_order_points`: The accepted public keys.
* `signature_wire_canonical`: The accepted signatures.
-/

namespace Ed301

open Edwards Draft

/-- The key parser fails with one error only. -/
theorem VerifyingKey.fromBytes_error (bytes : List UInt8) (e : SignatureError)
    (h : VerifyingKey.fromBytes bytes = .error e) : e = .invalidPublicKey := by
  rw [VerifyingKey.fromBytes] at h
  -- A wrong length and a refused point give the same error.
  cases htry : tryInto publicKeyBytes bytes with
  | none =>
      rw [htry, okOr_none_bind] at h
      exact (Except.error.inj h).symm
  | some encoded =>
      rw [htry, okOr_some_bind] at h
      cases hdec : EdwardsPoint.decodeStrictSubgroup encoded with
      | error _ =>
          rw [hdec] at h
          exact (Except.error.inj h).symm
      | ok point =>
          rw [hdec] at h
          cases h

/-- Without a point to stand for, the bytes are refused. -/
theorem VerifyingKey.fromBytes_eq_error (bytes : List UInt8)
    (h : ∀ A : Point curve, ¬ IsKeyOf bytes A) :
    VerifyingKey.fromBytes bytes = .error .invalidPublicKey := by
  cases hres : VerifyingKey.fromBytes bytes with
  | error e => rw [VerifyingKey.fromBytes_error bytes e hres]
  | ok key =>
      rcases (VerifyingKey.fromBytes_eq_ok_iff bytes key).mp hres with ⟨A, hA, _⟩
      exact absurd hA (h A)

/-- A valid key is the encoding of a point of exact order `L`. -/
theorem exists_isKeyOf_iff (bytes : List UInt8) :
    (∃ A : Point curve, IsKeyOf bytes A) ↔
      bytes.length = 38 ∧
        ∃ A : Point curve, bytes = (enc A).toList ∧ addOrderOf A = scalarModulus := by
  constructor
  · intro h
    rcases h with ⟨A, rfl, hne, hord⟩
    exact ⟨Vector.length_toList, A, rfl, primeBase.addOrderOf_of_ne_zero A hord hne⟩
  · intro h
    rcases h with ⟨_, A, rfl, hord⟩
    refine ⟨A, rfl, ?_, ?_⟩
    · -- The identity has order one.
      intro hzero
      rw [hzero, addOrderOf_zero] at hord
      exact absurd hord prime_scalarModulus.one_lt.ne
    · rw [← hord, addOrderOf_nsmul_eq_zero]

/-- Encodings of points outside the prime-order subgroup are refused as
    keys. -/
theorem fromBytes_enc_eq_error (A : Point curve) (h : ¬ (A ≠ 0 ∧ scalarModulus • A = 0)) :
    VerifyingKey.fromBytes (enc A).toList = .error .invalidPublicKey := by
  refine VerifyingKey.fromBytes_eq_error _ fun C hkey => ?_
  rcases hkey with ⟨henc, hC⟩
  -- The bytes are an encoding of one point only.
  rw [← enc_injective A C (Bytes.toList_injective _ _ henc)] at hC
  exact h hC

/-- The accepted public keys are the encodings of the points of exact order
    `L`, a stored point encodes to the stored bytes, and torsion in any
    component is refused although it decodes. -/
theorem keys_are_order_points (bytes : List UInt8) :
    ((∃ key, VerifyingKey.fromBytes bytes = .ok key) ↔
      bytes.length = 38 ∧
        ∃ A : Point curve, bytes = (enc A).toList ∧ addOrderOf A = scalarModulus) ∧
    (validatePublicKey bytes = true ↔ ∃ key, VerifyingKey.fromBytes bytes = .ok key) ∧
    (∀ key, VerifyingKey.fromBytes bytes = .ok key →
      key.toBytes.toList = bytes ∧ key.point.encode = .ok key.toBytes) ∧
    (∀ P T : Point curve, scalarModulus • P = 0 → T ≠ 0 → 4 • T = 0 →
      (∃ Q, EdwardsPoint.decode (enc (P + T)) = .ok Q) ∧
        VerifyingKey.fromBytes (enc (P + T)).toList = .error .invalidPublicKey) ∧
    VerifyingKey.fromBytes (enc 0).toList = .error .invalidPublicKey := by
  have hok : (∃ key, VerifyingKey.fromBytes bytes = .ok key) ↔
      ∃ A : Point curve, IsKeyOf bytes A := by
    simp only [VerifyingKey.fromBytes_eq_ok_iff]
    exact ⟨fun ⟨_, A, hA, _⟩ => ⟨A, hA⟩, fun ⟨A, hA⟩ => ⟨_, A, hA, rfl⟩⟩
  refine ⟨hok.trans (exists_isKeyOf_iff bytes), ?_, ?_, ?_, ?_⟩
  · rw [validatePublicKey]
    cases hres : VerifyingKey.fromBytes bytes with
    | error e => simp only [Bool.false_eq_true, reduceCtorEq, exists_false]
    | ok key => simp only [Except.ok.injEq, exists_eq']
  · intro key h
    rcases (VerifyingKey.fromBytes_eq_ok_iff bytes key).mp h with ⟨A, hA, rfl⟩
    exact ⟨hA.1.symm, EdwardsPoint.encode_of_denotes _ A (EdwardsPoint.ofPoint_denotes A)⟩
  · intro P T hP hT hfour
    refine ⟨⟨_, EdwardsPoint.decode_enc (P + T)⟩, fromBytes_enc_eq_error (P + T) ?_⟩
    intro hmem
    rcases hmem with ⟨_, hord⟩
    -- The torsion component survives multiplication by the order.
    exact primeBase.order_nsmul_add_torsion P T hP hfour hT hord
  · exact fromBytes_enc_eq_error 0 (fun h => h.1 rfl)

/-- The base point is a key, its translate by the point of order two is not. -/
theorem keys_are_order_points_generator :
    (∃ key, VerifyingKey.fromBytes (enc generator).toList = .ok key) ∧
      (∃ Q, EdwardsPoint.decode (enc (generator + orderTwoPoint)) = .ok Q) ∧
      VerifyingKey.fromBytes (enc (generator + orderTwoPoint)).toList
        = .error .invalidPublicKey := by
  rcases keys_are_order_points (enc generator).toList with ⟨haccepts, _, _, htorsion, _⟩
  have hord : addOrderOf generator = scalarModulus :=
    primeBase.addOrderOf_of_ne_zero generator scalarModulus_nsmul_generator generator_ne_zero
  exact ⟨haccepts.mpr ⟨Vector.length_toList, generator, rfl, hord⟩,
    htorsion generator orderTwoPoint scalarModulus_nsmul_generator orderTwoPoint_ne_zero
      four_nsmul_orderTwoPoint⟩

/-- The signature format is canonical in both directions. -/
theorem signature_wire_canonical (bytes bytes' : List UInt8) (sig sig' : Signature)
    (P : EdwardsPoint) (S : Scalar) (buffer : Bytes scalarBytes) :
    ((∃ sig, Signature.fromBytes bytes = .ok sig) ↔
      ∃ (R : Point curve) (n : ℕ), n < scalarModulus ∧
        bytes = (enc R).toList ++ (encScalar n).toList) ∧
    (∀ (R : Point curve) (n : ℕ), n < scalarModulus →
      bytes = (enc R).toList ++ (encScalar n).toList → Signature.fromBytes bytes = .ok sig →
      sig.commitment.Denotes R ∧ sig.response.value = n) ∧
    (Signature.fromBytes bytes = .ok sig →
      sig.commitment.encode = .ok sig.commitmentEncoding ∧
      bytes = sig.commitmentEncoding.toList ++ (sig.response.writeCanonicalBytes buffer).toList ∧
      sig.toBytes.toList = bytes) ∧
    (P.isValid = true → S.value < scalarModulus →
      ∃ R, P.encode = .ok R ∧
        ∃ parsed, Signature.fromBytes (R.toList ++ (S.writeCanonicalBytes buffer).toList)
            = .ok parsed ∧
          parsed.commitment.ctEq P = true ∧ parsed.response = S) ∧
    (Signature.fromBytes bytes = .ok sig → Signature.fromBytes bytes' = .ok sig' →
      sig.commitment.ctEq sig'.commitment = true → sig.response = sig'.response →
      bytes = bytes') := by
  have hparts : ∀ (b : List UInt8) (s : Signature), Signature.fromBytes b = .ok s →
      ∃ (R : Point curve) (n : ℕ), n < scalarModulus ∧ b = wire R n ∧ s = Signature.ofParts R n :=
    fun b s h => (Signature.fromBytes_eq_ok_iff b s).mp h
  refine ⟨?_, ?_, ?_, ?_, ?_⟩
  · constructor
    · intro hok
      rcases hok with ⟨s, h⟩
      rcases hparts bytes s h with ⟨R, n, hn, hb, _⟩
      exact ⟨R, n, hn, hb⟩
    · intro h
      rcases h with ⟨R, n, hn, hb⟩
      rw [hb]
      exact ⟨_, Signature.fromBytes_wire R n hn⟩
  · intro R n hn hb h
    -- Parsing is a function, so the parts are the ones written.
    have hwire := Signature.fromBytes_wire R n hn
    rw [wire, ← hb, h, Except.ok.injEq] at hwire
    rw [hwire]
    exact ⟨EdwardsPoint.ofPoint_denotes R, Scalar.ofNat_value n hn⟩
  · intro h
    rcases hparts bytes sig h with ⟨R, n, hn, rfl, rfl⟩
    refine ⟨EdwardsPoint.encode_of_denotes _ R (EdwardsPoint.ofPoint_denotes R), ?_, rfl⟩
    -- The serialiser writes the number, whatever the buffer held.
    rw [Scalar.writeCanonicalBytes_eq, Signature.ofParts, Scalar.ofNat_value n hn]
    rfl
  · intro hP hS
    rcases (EdwardsPoint.isValid_iff P).mp hP with ⟨R, hR⟩
    refine ⟨enc R, EdwardsPoint.encode_of_denotes P R hR, Signature.ofParts R S.value, ?_, ?_, ?_⟩
    · rw [Scalar.writeCanonicalBytes_eq]
      exact Signature.fromBytes_wire R S.value hS
    · exact (EdwardsPoint.ctEq_iff _ P R R (EdwardsPoint.ofPoint_denotes R) hR).mpr rfl
    · exact Scalar.value_injective _ _ (Scalar.ofNat_value S.value hS)
  · intro h h' hpoint hresponse
    rcases hparts bytes sig h with ⟨R, n, hn, rfl, rfl⟩
    rcases hparts bytes' sig' h' with ⟨R', n', hn', rfl, rfl⟩
    have hR := (EdwardsPoint.ctEq_iff _ _ R R' (EdwardsPoint.ofPoint_denotes R)
      (EdwardsPoint.ofPoint_denotes R')).mp hpoint
    -- The same point and the same number are written in the same way.
    have hvalue := congrArg Scalar.value hresponse
    simp only [Signature.ofParts] at hvalue
    rw [Scalar.ofNat_value n hn, Scalar.ofNat_value n' hn'] at hvalue
    rw [hR, hvalue]

/-- The signature with the base point as commitment and response one. -/
theorem signature_wire_canonical_generator :
    (∃ sig, Signature.fromBytes (wire generator 1) = .ok sig) ∧
      (Signature.ofParts generator 1).response.value = 1 ∧
      (∃ R, EdwardsPoint.basepoint.encode = .ok R ∧
        ∃ parsed, Signature.fromBytes (R.toList
            ++ ((Scalar.ofNat 1).writeCanonicalBytes (Vector.replicate 38 0)).toList) = .ok parsed ∧
          parsed.commitment.ctEq EdwardsPoint.basepoint = true ∧
          parsed.response = Scalar.ofNat 1) := by
  have hone : 1 < scalarModulus := prime_scalarModulus.one_lt
  rcases signature_wire_canonical (wire generator 1) (wire generator 1)
    (Signature.ofParts generator 1) (Signature.ofParts generator 1) EdwardsPoint.basepoint
    (Scalar.ofNat 1) (Vector.replicate 38 0) with ⟨hformat, hcontent, _, hround, _⟩
  have hparse := Signature.fromBytes_wire generator 1 hone
  refine ⟨hformat.mpr ⟨generator, 1, hone, rfl⟩, (hcontent generator 1 hone rfl hparse).2,
    hround (EdwardsPoint.isValid_of_denotes _ _ EdwardsPoint.basepoint_denotes) ?_⟩
  rw [Scalar.ofNat_value 1 hone]
  exact hone

end Ed301
