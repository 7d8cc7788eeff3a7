import Ed301.Refine.Signing

/-!
# Signing

What a caller of the signing interface can rely on, for every seed, every
message and every hash. Signing an exact seed succeeds, so none of the checks
it makes on itself can fail, and its result verifies. What it emits is the
draft's key and the draft's signature, byte for byte.

Nothing is assumed of the hash. A hash that returns zero everywhere gives the
identity as commitment and zero as response, and that case is covered like
any other.

## Theorems

* `signing_succeeds`: Signing returns a signature that verifies.
* `signing_emits_draft`: The key and the signature are the draft's.
-/

namespace Ed301

open Edwards Draft

/-- Signing with an exact seed succeeds at every stage and the result
    verifies; a seed of another length is refused as such. -/
theorem signing_succeeds (H : List UInt8 → Bytes 76) (seed message : List UInt8) :
    (seed.length = 38 →
      ∃ (key : SigningKey) (expanded : ExpandedSecret) (vk : VerifyingKey) (sig : Signature),
        SigningKey.fromSeed seed = .ok key ∧
        ExpandedSecret.derive H key.seed = .ok expanded ∧
        signExpanded H expanded message = .ok sig ∧
        key.verifyingKey H = .ok vk ∧
        key.sign H message = .ok sig ∧
        sign H seed message = .ok sig.toBytes ∧
        verify H vk.toBytes.toList message sig.toBytes.toList = true) ∧
    (seed.length ≠ 38 → sign H seed message = .error .invalidSeedLength) := by
  constructor
  · intro hlen
    -- Import, derivation and signing each return the draft's value.
    have hkey := SigningKey.fromSeed_eq seed hlen
    rcases ExpandedSecret.derive_ok H (Bytes.ofList seed hlen) with ⟨expanded, hderive, hexp⟩
    have hsign := SigningKey.sign_eq H { seed := Bytes.ofList seed hlen } message
    refine ⟨_, expanded, _, _, hkey, hderive,
      signExpanded_eq H (Bytes.ofList seed hlen).toList expanded hexp message,
      SigningKey.verifyingKey_eq H _, hsign, ?_, ?_⟩
    · exact sign_eq H seed message hlen
    · exact (verify_eq_true_iff H _ message _).mpr
        ⟨_, _, _, isKeyOf_publicKey H _, response_lt H _ message, rfl,
          accepts_signature H _ message⟩
  · intro hlen
    exact sign_of_length_ne H seed message hlen

/-- The zero seed under a hash that returns zero: the nonce and the response
    are zero, and the signature verifies. -/
theorem signing_succeeds_zero :
    (∃ (key : SigningKey) (vk : VerifyingKey) (sig : Signature),
      SigningKey.fromSeed (List.replicate 38 0) = .ok key ∧
      key.verifyingKey (fun _ => Bytes.ofInteger 76 0) = .ok vk ∧
      key.sign (fun _ => Bytes.ofInteger 76 0) [] = .ok sig ∧
      verify (fun _ => Bytes.ofInteger 76 0) vk.toBytes.toList [] sig.toBytes.toList = true) ∧
    sign (fun _ => Bytes.ofInteger 76 0) [] [] = .error .invalidSeedLength := by
  rcases (signing_succeeds (fun _ => Bytes.ofInteger 76 0) (List.replicate 38 0) []).1 rfl
    with ⟨key, _, vk, sig, hkey, _, _, hvk, hsig, _, hverify⟩
  exact ⟨⟨key, vk, sig, hkey, hvk, hsig, hverify⟩,
    (signing_succeeds (fun _ => Bytes.ofInteger 76 0) [] []).2 (by decide)⟩

/-- Key derivation and signing emit the draft's bytes. The commitment lies in
    the prime-order subgroup and the response is below the order. -/
theorem signing_emits_draft (H : List UInt8 → Bytes 76) (seed message : List UInt8)
    (hlen : seed.length = 38) :
    ∃ (key : SigningKey) (vk : VerifyingKey) (sig : Signature),
      SigningKey.fromSeed seed = .ok key ∧
      key.verifyingKey H = .ok vk ∧
      key.sign H message = .ok sig ∧
      vk.toBytes = enc (secret H seed • generator) ∧
      sig.toBytes.toList = (enc (nonce H seed message • generator)).toList
        ++ (encScalar (response H seed message)).toList ∧
      sig.commitment.Denotes (nonce H seed message • generator) ∧
      scalarModulus • (nonce H seed message • generator) = 0 ∧
      sig.commitment.isPrimeSubgroup = true ∧
      sig.response.value = response H seed message ∧
      sig.response.value < scalarModulus := by
  have hlt := response_lt H seed message
  have hvalue := Scalar.ofNat_value (response H seed message) hlt
  have hdenotes := EdwardsPoint.ofPoint_denotes (nonce H seed message • generator)
  have hmember := order_nsmul_commitment H seed message
  refine ⟨_, _, _, SigningKey.fromSeed_eq seed hlen, SigningKey.verifyingKey_eq H _,
    SigningKey.sign_eq H _ message, rfl, rfl, hdenotes, hmember,
    (EdwardsPoint.isPrimeSubgroup_iff _ _ hdenotes).mpr hmember, hvalue, ?_⟩
  exact lt_of_eq_of_lt hvalue hlt

/-- The zero seed under a hash that returns zero. -/
theorem signing_emits_draft_zero :
    ∃ (key : SigningKey) (sig : Signature),
      SigningKey.fromSeed (List.replicate 38 0) = .ok key ∧
      key.sign (fun _ => Bytes.ofInteger 76 0) [] = .ok sig ∧
      sig.response.value < scalarModulus := by
  rcases signing_emits_draft (fun _ => Bytes.ofInteger 76 0) (List.replicate 38 0) [] rfl
    with ⟨key, _, sig, hkey, _, hsig, _, _, _, _, _, _, hlt⟩
  exact ⟨key, sig, hkey, hsig, hlt⟩

end Ed301
