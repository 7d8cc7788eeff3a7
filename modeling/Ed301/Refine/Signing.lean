import Ed301.Refine.Signature

/-!
# Key Derivation and Signing

The signing path against the draft, and with it the fact that none of its
internal checks can fail.

The secret occurs in two forms. The public key is computed from the pruned
bytes themselves and the response from their residue. Pruning puts the number
between `2 ^ 300` and `2 ^ 301` and makes it a multiple of four, which leaves
no room for a multiple of the order, so the public key is never the identity.

Signing checks its own output at every stage: the commitment lies in the
subgroup, it encodes, the assembled bytes parse back, the parsed commitment
lies in the subgroup, the public key parses and the signature verifies. Each
check is discharged by the lemma that settles the operation checked, and the
value returned is the one the draft prescribes.

## Main definitions

* `ExpandedSecret.Derived`: The draft's values for a seed.

## Theorems

* `prune_integer`: Pruning on the number denoted.
* `prunedInteger_not_dvd`: The order never divides a pruned secret.
* `isPrimeSubgroupNonidentity_pruned`: A pruned multiple of a point of the
  subgroup is a valid key.
* `derive_ok`: Key derivation succeeds with the draft's values.
* `signExpanded_eq`: Signing succeeds with the draft's signature.
* `SigningKey.verifyingKey_eq`: The key derived is the draft's.
* `sign_eq`: The byte-level interface.
-/

namespace Ed301

open Edwards Radix Draft

section Pruning

/-- Pruning on the number denoted. -/
theorem prune_integer (lower : Bytes fieldBytes) :
    (ExpandedSecret.prune lower).integer = prunedInteger lower.integer := by
  have hbottom := Bytes.integer_update_bottom lower (· &&& 0xfc)
  rw [clearLow_toNat, Bytes.bottom_toNat] at hbottom
  -- Clearing the two low bits of the byte clears those of the number.
  have hclear : lower.integer / 256 * 256 + lower.integer % 256 / 4 * 4
      = lower.integer / 4 * 4 := by omega
  have htop := Bytes.integer_update_top (lower.update 0 (· &&& 0xfc))
    fun top => (top &&& 0x0f) ||| 0x10
  rw [pruneTop_toNat, Bytes.top_toNat, hbottom, hclear, mul_add, ← Nat.add_assoc,
    ← Nat.mod_mul] at htop
  -- The top byte keeps bits 296 to 299 and gets bit 300; below that the number
  -- is a multiple of four modulo `2 ^ 300`.
  have hpow : 2 ^ 300 = 2 ^ 296 * 16 := two_pow_eq_mul 296 4 300 16 rfl rfl
  have hpow' : 2 ^ 300 = 2 ^ 298 * 4 := two_pow_eq_mul 298 2 300 4 rfl rfl
  rw [← hpow, hpow', Nat.mul_mod_mul_right, ← Nat.mod_mul_left_div_self, ← hpow'] at htop
  exact htop

/-- A pruned secret is a multiple of four with exactly 301 bits. -/
theorem prunedInteger_bounds (n : ℕ) :
    2 ^ 300 ≤ prunedInteger n ∧ prunedInteger n < 2 ^ 301 ∧ 4 ∣ prunedInteger n := by
  have hlt := Nat.mod_lt n (Nat.two_pow_pos 300)
  have hdvd : 4 ∣ 2 ^ 300 := by
    rw [two_pow_eq_mul 298 2 300 4 rfl rfl]
    exact Nat.dvd_mul_left 4 _
  rw [prunedInteger, two_pow_eq_mul 300 1 301 2 rfl rfl]
  generalize 2 ^ 300 = c at *
  omega

/-- The order never divides a pruned secret: the quotient would be a multiple
    of four between zero and four. -/
theorem prunedInteger_not_dvd (n : ℕ) : ¬ scalarModulus ∣ prunedInteger n := by
  intro hdvd
  rcases hdvd with ⟨m, hm⟩
  rcases prunedInteger_bounds n with ⟨hlow, hhigh, hfour⟩
  have hm4 : 4 ∣ m := by
    rw [hm] at hfour
    exact cofactor_coprime.dvd_of_dvd_mul_left hfour
  -- Four times the order is already too large.
  have hquarter : 2 ^ 301 < scalarModulus * 4 := by
    rw [two_pow_eq_mul 299 2 301 4 rfl rfl]
    exact Nat.mul_lt_mul_of_pos_right scalarModulus_bounds.1 (by norm_num)
  have hpos : 0 < m := by
    refine Nat.pos_of_ne_zero fun hzero => ?_
    rw [hm, hzero, Nat.mul_zero] at hlow
    exact absurd (pow_pos two_pos 300) (Nat.not_lt.mpr hlow)
  have hle := Nat.mul_le_mul_left scalarModulus (Nat.le_of_dvd hpos hm4)
  rw [hm] at hhigh
  exact absurd (hquarter.trans_le hle) (Nat.not_lt.mpr hhigh.le)

/-- Pruned bytes multiply a point by their integer, all of whose bits the loop
    reads. -/
theorem scalarMulPruned_prune_denotes (lower : Bytes fieldBytes) (P : EdwardsPoint)
    (A : Point curve) (hA : P.Denotes A) :
    (P.scalarMulPruned (ExpandedSecret.prune lower)).Denotes
      ((ExpandedSecret.prune lower).integer • A) := by
  have hmul := EdwardsPoint.scalarMulEncoded_denotes P A hA (ExpandedSecret.prune lower)
  have hlt : (ExpandedSecret.prune lower).integer < 2 ^ fieldBits := by
    rw [prune_integer]
    exact (prunedInteger_bounds lower.integer).2.1
  rwa [Nat.mod_eq_of_lt hlt] at hmul

/-- A pruned multiple of a nonidentity point of the subgroup passes the test
    for public keys. -/
theorem isPrimeSubgroupNonidentity_pruned (lower : Bytes fieldBytes) (P : EdwardsPoint)
    (A : Point curve) (hA : P.Denotes A) (horder : scalarModulus • A = 0) (hne : A ≠ 0) :
    (P.scalarMulPruned (ExpandedSecret.prune lower)).isPrimeSubgroupNonidentity = true := by
  rw [EdwardsPoint.isPrimeSubgroupNonidentity_iff _ _ (scalarMulPruned_prune_denotes lower P A hA),
    prune_integer]
  exact ⟨primeBase.nsmul_ne_zero A horder hne _ (prunedInteger_not_dvd lower.integer),
    primeBase.order_nsmul_nsmul A horder _⟩

end Pruning

section Derivation

variable (H : Xof)

theorem expandSeed_eq (seed : Bytes seedBytes) : expandSeed H seed = H seed.toList := by
  rw [expandSeed, hashParts_eq, List.flatten_cons, List.flatten_nil, List.append_nil]

/-- A multiple of the base point is the identity only if the order divides its
    factor. -/
theorem nsmul_generator_ne_zero (n : ℕ) (h : ¬ scalarModulus ∣ n) : n • generator ≠ 0 :=
  primeBase.nsmul_ne_zero generator scalarModulus_nsmul_generator generator_ne_zero n h

/-- The derived public key is a valid one. -/
theorem isKeyOf_publicKey (seed : List UInt8) :
    IsKeyOf (publicKey H seed).toList (secret H seed • generator) :=
  ⟨rfl, nsmul_generator_ne_zero _ (prunedInteger_not_dvd _),
    primeBase.order_nsmul_multiple (secret H seed)⟩

/-- The lower half of the expanded seed, pruned, is the secret integer. -/
theorem prune_expandSeed (seed : Bytes seedBytes) :
    (ExpandedSecret.prune ((expandSeed H seed).slice 0 fieldBytes (by decide))).integer
      = secret H seed.toList := by
  rw [prune_integer, expandSeed_eq, Bytes.integer, Bytes.toList_slice, List.drop_zero, secret]

/-- The pruned bytes multiply the base point by the secret integer. -/
theorem scalarMulPruned_denotes (seed : Bytes seedBytes) :
    (EdwardsPoint.basepoint.scalarMulPruned
        (ExpandedSecret.prune ((expandSeed H seed).slice 0 fieldBytes (by decide)))).Denotes
      (secret H seed.toList • generator) := by
  rw [← prune_expandSeed]
  exact scalarMulPruned_prune_denotes _ _ generator EdwardsPoint.basepoint_denotes

/-- The draft's values for a seed. -/
structure ExpandedSecret.Derived (seed : List UInt8) (expanded : ExpandedSecret) : Prop where
  reducedScalar_value : expanded.reducedScalar.value = secret H seed % scalarModulus
  keyPrefix_eq : expanded.keyPrefix.toList = Draft.keyPrefix H seed
  publicKey_eq : expanded.publicKey = Draft.publicKey H seed

/-- Key derivation succeeds with the draft's values. -/
theorem ExpandedSecret.derive_ok (seed : Bytes seedBytes) :
    ∃ expanded, ExpandedSecret.derive H seed = .ok expanded ∧
      ExpandedSecret.Derived H seed.toList expanded := by
  have hdenotes := scalarMulPruned_denotes H seed
  have hvalid := isPrimeSubgroupNonidentity_pruned
    ((expandSeed H seed).slice 0 fieldBytes (by decide)) _ generator
    EdwardsPoint.basepoint_denotes scalarModulus_nsmul_generator generator_ne_zero
  have hencode := EdwardsPoint.encodePublicArtifact_of_denotes _ _ hdenotes
  have hsecret := prune_expandSeed H seed
  -- Neither check fires.
  simp only [ExpandedSecret.derive, declassify, hvalid, Bool.not_true, Bool.false_eq_true, if_false,
    hencode]
  refine ⟨_, rfl, ?_, ?_, rfl⟩
  · rw [Scalar.reducePrunedLe_value, hsecret]
  · rw [Bytes.toList_slice, expandSeed_eq, Draft.keyPrefix, List.take_of_length_le]
    rw [List.length_drop, Vector.length_toList]
    decide

end Derivation

section Signing

variable (H : Xof)

theorem hashToScalar_nonceHash (keyPrefix : Bytes fieldBytes) (message : List UInt8) :
    (hashToScalar (nonceHash H keyPrefix message)).value
      = hashInteger H (keyPrefix.toList ++ message) := by
  rw [hashToScalar_value, nonceHash, hashParts_eq, hashInteger]
  simp only [List.flatten_cons, List.flatten_nil, List.append_nil]

/-- The response reduces the secret before multiplying and the product before
    adding, which changes nothing modulo the order. -/
theorem response_value (nonce challenge reduced : Scalar) (s : ℕ) (hnonce : nonce.Canonical)
    (hreduced : reduced.value = s % scalarModulus) :
    (nonce.add (challenge.mul reduced)).value
      = (nonce.value + challenge.value * s) % scalarModulus := by
  rw [Scalar.add_value _ _ hnonce (Scalar.mul_canonical _ _), Scalar.mul_value, hreduced,
    Nat.mul_mod_mod, Nat.add_mod_mod]

/-- The two copies into an empty buffer leave the commitment followed by the
    response. -/
theorem toList_assemble (R : Point curve) (response : Scalar) :
    (assemble (enc R) response).toList = wire R response.value := by
  -- The first copy fills the lower half, the second replaces the rest.
  have htake : ((enc R).toList ++ (List.replicate signatureBytes (0 : UInt8)).drop
      (0 + (enc R).toList.length)).take fieldBytes = (enc R).toList := by
    rw [List.take_append_of_le_length (by rw [Vector.length_toList]),
      List.take_of_length_le (by rw [Vector.length_toList])]
  rw [assemble, Bytes.toList_copyFromSlice, Bytes.toList_copyFromSlice, Vector.toList_replicate,
    List.take_zero, List.nil_append, htake, List.drop_of_length_le, List.append_nil,
    Scalar.writeCanonicalBytes_eq]
  · rfl
  · rw [List.length_append, List.length_drop, List.length_replicate, Vector.length_toList,
      Vector.length_toList]
    decide

theorem response_lt (seed message : List UInt8) : response H seed message < scalarModulus :=
  Nat.mod_lt _ (Nat.pos_of_neZero _)

/-- The commitment lies in the subgroup. -/
theorem order_nsmul_commitment (seed message : List UInt8) :
    scalarModulus • (nonce H seed message • generator) = 0 :=
  primeBase.order_nsmul_multiple (nonce H seed message)

/-- The draft's signature satisfies the verification equation. -/
theorem accepts_signature (seed message : List UInt8) :
    primeBase.Accepts (secret H seed • generator) (nonce H seed message • generator)
      (challenge H (commitment H seed message).toList (Draft.publicKey H seed).toList message)
      (response H seed message) := by
  have hresponse : ((response H seed message : ℕ) : ZMod scalarModulus)
      = ((nonce H seed message
          + challenge H (commitment H seed message).toList (Draft.publicKey H seed).toList message
            * secret H seed : ℕ) : ZMod scalarModulus) := by
    rw [response, ZMod.natCast_mod]
  -- The honest response with no torsion in the commitment.
  have haccepts := primeBase.accepts_response (secret H seed) (nonce H seed message) _ _ 0
    (nsmul_zero _) hresponse
  rwa [add_zero] at haccepts

/-- The draft's signature parses to its parts. -/
theorem fromBytes_signature (seed message : List UInt8) :
    Signature.fromBytes (signature H seed message)
      = .ok (Signature.ofParts (nonce H seed message • generator) (response H seed message)) :=
  Signature.fromBytes_wire _ _ (response_lt H seed message)

/-- The draft's public key parses to its point. -/
theorem fromBytes_publicKey (seed : List UInt8) :
    VerifyingKey.fromBytes (Draft.publicKey H seed).toList
      = .ok (VerifyingKey.ofPoint (secret H seed • generator)) :=
  VerifyingKey.fromBytes_enc _ (isKeyOf_publicKey H seed).2.1 (isKeyOf_publicKey H seed).2.2

/-- The draft's key verifies the draft's signature. -/
theorem verify_signature (seed message : List UInt8) :
    (VerifyingKey.ofPoint (secret H seed • generator)).verify H message
      (Signature.ofParts (nonce H seed message • generator) (response H seed message)) = true :=
  (VerifyingKey.verify_ofParts_iff H _ _ _ message (response_lt H seed message)).mpr
    (accepts_signature H seed message)

/-- The checks on the assembled bytes all pass. -/
theorem selfCheck_eq (seed : List UInt8) (expanded : ExpandedSecret)
    (hexp : ExpandedSecret.Derived H seed expanded) (message : List UInt8)
    (encoded : Bytes signatureBytes) (henc : encoded.toList = signature H seed message) :
    selfCheck H expanded message encoded
      = .ok (Signature.ofParts (nonce H seed message • generator) (response H seed message)) := by
  have hsubgroup : (Signature.ofParts (nonce H seed message • generator)
      (response H seed message)).commitment.isPrimeSubgroup = true :=
    (EdwardsPoint.isPrimeSubgroup_iff _ _ (EdwardsPoint.ofPoint_denotes _)).mpr
      (order_nsmul_commitment H seed message)
  -- Parse, subgroup check, key parse and verification, in that order.
  rw [selfCheck, henc, fromBytes_signature, mapErr, ok_bind, declassify, hsubgroup, Bool.not_true,
    if_neg Bool.false_ne_true, hexp.publicKey_eq, fromBytes_publicKey, mapErr, ok_bind,
    verify_signature, Bool.not_true, if_neg Bool.false_ne_true]

/-- Signing with a derived secret passes every check and returns the draft's
    signature. -/
theorem signExpanded_eq (seed : List UInt8) (expanded : ExpandedSecret)
    (hexp : ExpandedSecret.Derived H seed expanded) (message : List UInt8) :
    signExpanded H expanded message
      = .ok (Signature.ofParts (nonce H seed message • generator) (response H seed message)) := by
  have hnonce : (hashToScalar (nonceHash H expanded.keyPrefix message)).value
      = nonce H seed message := by
    rw [hashToScalar_nonceHash, hexp.keyPrefix_eq, nonce]
  have hcanonical : (hashToScalar (nonceHash H expanded.keyPrefix message)).Canonical :=
    Scalar.reduceHashLe_canonical _
  rw [signExpanded]
  generalize hashToScalar (nonceHash H expanded.keyPrefix message) = r at hnonce hcanonical ⊢
  -- The commitment is the draft's, in the subgroup and encodable.
  have hcommit := EdwardsPoint.scalarMul_denotes _ generator EdwardsPoint.basepoint_denotes r
    hcanonical
  rw [hnonce] at hcommit
  have hsubgroup := (EdwardsPoint.isPrimeSubgroup_iff _ _ hcommit).mpr
    (order_nsmul_commitment H seed message)
  have hencode := EdwardsPoint.encodePublicArtifact_of_denotes _ _ hcommit
  simp only [declassify, hsubgroup, Bool.not_true, Bool.false_eq_true, if_false, hencode]
  -- The response is the draft's, and so are the assembled bytes.
  refine selfCheck_eq H seed expanded hexp message _ ?_
  rw [toList_assemble, response_value _ _ _ _ hcanonical hexp.reducedScalar_value, hnonce,
    hashToScalar_challengeHash, hexp.publicKey_eq]
  rfl

end Signing

section Interface

variable (H : Xof)

/-- The key derived from a seed is the draft's. -/
theorem SigningKey.verifyingKey_eq (key : SigningKey) :
    key.verifyingKey H = .ok (VerifyingKey.ofPoint (secret H key.seed.toList • generator)) := by
  rcases ExpandedSecret.derive_ok H key.seed with ⟨expanded, hderive, hexp⟩
  rw [SigningKey.verifyingKey, hderive, ok_bind, hexp.publicKey_eq, fromBytes_publicKey, mapErr]

/-- The signature made with a seed is the draft's. -/
theorem SigningKey.sign_eq (key : SigningKey) (message : List UInt8) :
    key.sign H message = .ok (Signature.ofParts (nonce H key.seed.toList message • generator)
      (response H key.seed.toList message)) := by
  rcases ExpandedSecret.derive_ok H key.seed with ⟨expanded, hderive, hexp⟩
  rw [SigningKey.sign, hderive, ok_bind, signExpanded_eq H key.seed.toList expanded hexp message]

theorem SigningKey.fromSeed_eq (seed : List UInt8) (h : seed.length = seedBytes) :
    SigningKey.fromSeed seed = .ok { seed := Bytes.ofList seed h } := by
  rw [SigningKey.fromSeed, tryInto, dif_pos h, okOr_some_bind]

theorem SigningKey.fromSeed_of_length_ne (seed : List UInt8) (h : seed.length ≠ seedBytes) :
    SigningKey.fromSeed seed = .error .invalidSeedLength := by
  rw [SigningKey.fromSeed, tryInto, dif_neg h, okOr_none_bind]

/-- The byte-level interface returns the draft's signature. -/
theorem sign_eq (seed message : List UInt8) (h : seed.length = seedBytes) :
    sign H seed message = .ok (Signature.ofParts (nonce H seed message • generator)
      (response H seed message)).toBytes := by
  have hsign := SigningKey.sign_eq H { seed := Bytes.ofList seed h } message
  rw [sign, SigningKey.fromSeed_eq seed h, ok_bind, hsign, ok_bind, Bytes.toList_ofList]

/-- The byte-level interface refuses a seed of another length. -/
theorem sign_of_length_ne (seed message : List UInt8) (h : seed.length ≠ seedBytes) :
    sign H seed message = .error .invalidSeedLength := by
  rw [sign, SigningKey.fromSeed_of_length_ne seed h]
  rfl

end Interface

end Ed301
