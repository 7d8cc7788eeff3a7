import Ed301.Refine.LimbScheme
import Ed301.Results.Hash

/-!
# The Scheme from Bytes to Bytes

The scheme as a machine runs it: bytes go in, everything between is limbs, and
bytes come out.

Points are decoded on limbs by the exits of the model, and the strings accepted
are the encodings of points. Signing, key derivation and verification on limbs
return the bytes, errors and verdicts of the model, whatever the hash. With the
hasher for the hash, they are the draft's over the standard's function.

## Theorems

* `codec_on_limbs`: Decoding and encoding.
* `scheme_on_limbs`: Signing, key derivation, key validation and verification.
* `draft_on_limbs`: The scheme on limbs is the draft's.
-/

namespace Ed301

open Edwards Draft Program

/-- Decoding on limbs takes the exits of the model and returns stored points.
    It accepts the encodings of points, each as a stored form of its point, and
    encoding on limbs restores the bytes. -/
theorem codec_on_limbs (encoded : Bytes fieldBytes) :
    Outcome StoredPoint (LimbPoint.decodeExits encoded) (EdwardsPoint.decodeExits encoded) ∧
    ((∃ P, LimbPoint.decode encoded = .ok P) ↔ ∃ A : Point curve, encoded = enc A) ∧
    ∀ P, LimbPoint.decode encoded = .ok P →
      LimbPoint.encode P = .ok encoded ∧
        ∀ A : Point curve, encoded = enc A → StoredPoint P (EdwardsPoint.ofPoint A) := by
  have hdecode := LimbPoint.rel_decode encoded
  refine ⟨LimbPoint.rel_decodeExits encoded, ⟨?_, ?_⟩, fun P hP => ?_⟩
  · intro h
    rcases h with ⟨P, hP⟩
    rcases hdecode.exists_right hP with ⟨p, hp, _⟩
    rcases (EdwardsPoint.decode_eq_ok_iff encoded p).mp hp with ⟨A, hA, _⟩
    exact ⟨A, hA⟩
  · intro h
    rcases h with ⟨A, rfl⟩
    -- Every encoding is decoded by the model, and so on limbs.
    rcases hdecode.exists_left (EdwardsPoint.decode_enc A) with ⟨P, hP, _⟩
    exact ⟨P, hP⟩
  · rcases hdecode.exists_right hP with ⟨p, hp, hstored⟩
    rcases (EdwardsPoint.decode_eq_ok_iff encoded p).mp hp with ⟨A, rfl, rfl⟩
    refine ⟨?_, fun B hB => ?_⟩
    · rw [LimbPoint.encode_eq hstored]
      exact EdwardsPoint.encode_of_denotes _ A (EdwardsPoint.ofPoint_denotes A)
    · -- The point is the only one with its encoding.
      have hpoints := (EdwardsPoint.decode_enc A).symm.trans (hB ▸ EdwardsPoint.decode_enc B)
      rw [Except.ok.injEq] at hpoints
      rw [← hpoints]
      exact hstored

/-- The interface on limbs, for any hash and any bytes: signing and key
    derivation return the bytes or the error of the model, keys are accepted
    alike, and the verdicts are the same. -/
theorem scheme_on_limbs (H : Xof) (seed message publicKey signature : List UInt8) :
    LimbScheme.sign H seed message = sign H seed message ∧
    LimbScheme.publicKey H seed = (do
      let key ← SigningKey.fromSeed seed
      let verifyingKey ← key.verifyingKey H
      .ok verifyingKey.encoded) ∧
    LimbScheme.validatePublicKey publicKey = validatePublicKey publicKey ∧
    LimbScheme.verify H publicKey message signature = verify H publicKey message signature :=
  ⟨LimbScheme.sign_eq H seed message, LimbScheme.publicKey_eq H seed,
    LimbScheme.validatePublicKey_eq publicKey,
    LimbScheme.verify_eq H publicKey message signature⟩

/-- The whole stack: the hasher on lanes and the arithmetic on limbs. A seed of
    38 bytes derives the draft's public key and signs with the draft's
    signature, another length is refused, and a signature is accepted exactly
    when the draft's equation holds of the points and the integer it spells. -/
theorem draft_on_limbs (target : Endian) :
    (∀ seed message : List UInt8, seed.length = 38 →
      (∃ key, LimbScheme.publicKey (shakeXof target) seed = .ok key ∧
        key = Draft.publicKey fips202Xof seed) ∧
      ∃ sig, LimbScheme.sign (shakeXof target) seed message = .ok sig ∧
        sig.toList = Draft.signature fips202Xof seed message) ∧
    (∀ seed message : List UInt8, seed.length ≠ 38 →
      LimbScheme.publicKey (shakeXof target) seed = .error .invalidSeedLength ∧
      LimbScheme.sign (shakeXof target) seed message = .error .invalidSeedLength) ∧
    (∀ publicKey message signature : List UInt8,
      LimbScheme.verify (shakeXof target) publicKey message signature = true ↔
        ∃ (A R : Point curve) (S : ℕ), IsKeyOf publicKey A ∧ S < scalarModulus ∧
          signature = wire R S ∧
          primeBase.Accepts A R (challenge fips202Xof (enc R).toList publicKey message) S) := by
  -- On either kind of target the hasher is the standard's function.
  rw [shakeXof_eq target]
  refine ⟨fun seed message hlen => ⟨?_, ?_⟩, fun seed message hlen => ⟨?_, ?_⟩,
    fun publicKey message signature => ?_⟩
  · refine ⟨_, ?_, rfl⟩
    rw [LimbScheme.publicKey_eq, SigningKey.fromSeed_eq seed hlen, ok_bind,
      SigningKey.verifyingKey_eq, ok_bind, Bytes.toList_ofList]
    rfl
  · rw [LimbScheme.sign_eq]
    exact ⟨_, sign_eq fips202Xof seed message hlen, rfl⟩
  · rw [LimbScheme.publicKey_eq, SigningKey.fromSeed_of_length_ne seed hlen]
    rfl
  · rw [LimbScheme.sign_eq]
    exact sign_of_length_ne fips202Xof seed message hlen
  · rw [LimbScheme.verify_eq]
    exact verify_eq_true_iff fips202Xof publicKey message signature

end Ed301
