import Ed301.Refine.Signing

/-!
# Verification

What an accepted signature says. The byte-level verifier is the draft's
acceptance rule, and the three results after that are about the set of
signatures it accepts.

The response is determined by everything else, because the parser admits one
representative of each residue and the cofactor can be cancelled on multiples
of the base point. The commitment is determined up to a point killed by the
cofactor and in no other way, and the uncofactored equation is what tells the
commitments in the subgroup from the others. Two accepted signatures on one
commitment whose challenges differ determine the key's discrete logarithm, so
one signature serves for two messages only if their challenges agree.

All of these follow from the general facts about cofactored equations once
the verifier has been shown to decide one.

## Theorems

* `verify_iff_verifies`: The verifier is the draft's acceptance rule.
* `accepted_response_unique`: One response at most is accepted.
* `torsion_tolerance`: The accepted commitments.
* `special_soundness`: Two accepted challenges determine the key.
-/

namespace Ed301

open Edwards Radix Draft

/-- A string of 76 bytes is a commitment encoding followed by a response below
    the order if its halves are. -/
theorem eq_wire_iff (signature : List UInt8) (R : Point curve) (S : ℕ) (hS : S < scalarModulus) :
    signature = wire R S ↔ signature.length = 76 ∧ signature.take 38 = (enc R).toList ∧
      leInteger (signature.drop 38) = S := by
  constructor
  · intro h
    subst h
    refine ⟨length_wire R S, take_wire R S, ?_⟩
    rw [drop_wire]
    exact encScalar_integer S hS
  · intro h
    rcases h with ⟨hlen, htake, hdrop⟩
    -- A string of 38 bytes is determined by its number.
    have hresponse : signature.drop 38 = (encScalar S).toList := by
      refine leInteger_injective _ _ ?_ ?_
      · rw [List.length_drop, hlen, Vector.length_toList]
      · rw [hdrop]
        exact (encScalar_integer S hS).symm
    rw [wire, ← htake, ← hresponse, List.take_append_drop]

/-- The byte-level verifier is the draft's acceptance rule. -/
theorem verify_iff_verifies (H : List UInt8 → Bytes 76) (publicKey message signature : List UInt8) :
    verify H publicKey message signature = true ↔
      Verifies H publicKey message signature := by
  rw [verify_eq_true_iff]
  constructor
  · intro h
    rcases h with ⟨A, R, S, hkey, hS, hwire, haccepts⟩
    -- The halves of the signature are the commitment hashed and the response.
    rcases (eq_wire_iff signature R S hS).mp hwire with ⟨hlen, htake, hdrop⟩
    refine ⟨?_, A, hkey, hlen, R, htake, ?_, ?_⟩
    · rw [hkey.1, Vector.length_toList]
    · rwa [hdrop]
    · rw [hdrop, htake]
      exact haccepts
  · intro h
    rcases h with ⟨_, A, hkey, hlen, R, htake, hS, hequation⟩
    refine ⟨A, R, leInteger (signature.drop 38), hkey, hS,
      (eq_wire_iff signature R _ hS).mpr ⟨hlen, htake, rfl⟩, ?_⟩
    rw [htake] at hequation
    exact hequation

/-- Verification of a signature given by its two halves. -/
theorem verify_append_iff (H : Xof) (publicKey message : List UInt8) (R S : Bytes fieldBytes) :
    verify H publicKey message (R.toList ++ S.toList) = true ↔
      ∃ A P : Point curve, IsKeyOf publicKey A ∧ R = enc P ∧ S.integer < scalarModulus ∧
        primeBase.Accepts A P (challenge H R.toList publicKey message) S.integer := by
  have hlen : R.toList.length = 38 := Vector.length_toList
  have htake : (R.toList ++ S.toList).take 38 = R.toList := by
    rw [List.take_append_of_le_length hlen.ge, List.take_of_length_le hlen.le]
  have hdrop : (R.toList ++ S.toList).drop 38 = S.toList := by
    rw [List.drop_append_of_le_length hlen.ge, List.drop_of_length_le hlen.le, List.nil_append]
  rw [verify_eq_true_iff]
  constructor
  · intro h
    rcases h with ⟨A, P, n, hkey, hn, hwire, haccepts⟩
    rcases (eq_wire_iff _ P n hn).mp hwire with ⟨_, hR, hS⟩
    rw [htake] at hR
    rw [hdrop] at hS
    refine ⟨A, P, hkey, Bytes.toList_injective R (enc P) hR, ?_, ?_⟩
    · rwa [Bytes.integer, hS]
    · rw [Bytes.integer, hS, hR]
      exact haccepts
  · intro h
    rcases h with ⟨A, P, hkey, rfl, hS, haccepts⟩
    exact ⟨A, P, S.integer, hkey, hS,
      (eq_wire_iff _ P _ hS).mpr ⟨by rw [List.length_append, hlen, Vector.length_toList]; rfl,
        htake, by rw [hdrop, Bytes.integer]⟩, haccepts⟩

/-- Two accepted signatures with one key and one commitment share the points
    in their equations, for the bytes determine both. -/
theorem verify_append_shared (H : Xof) (publicKey message message' : List UInt8)
    (R S S' : Bytes fieldBytes) (h : verify H publicKey message (R.toList ++ S.toList) = true)
    (h' : verify H publicKey message' (R.toList ++ S'.toList) = true) :
    ∃ A P : Point curve, IsKeyOf publicKey A ∧ S.integer < scalarModulus ∧
      S'.integer < scalarModulus ∧
      primeBase.Accepts A P (challenge H R.toList publicKey message) S.integer ∧
      primeBase.Accepts A P (challenge H R.toList publicKey message') S'.integer := by
  rcases (verify_append_iff H publicKey message R S).mp h with ⟨A, P, hA, hP, hS, haccepts⟩
  rcases (verify_append_iff H publicKey message' R S').mp h' with
    ⟨A', P', hA', hP', hS', haccepts'⟩
  have hcommit : P' = P := enc_injective P' P (hP'.symm.trans hP)
  rw [hA'.unique hA, hcommit] at haccepts'
  exact ⟨A, P, hA, hS, hS', haccepts, haccepts'⟩

section Example

/-- A hash that returns the parity of its input's length, to run the verifier
    on inputs that a proof can follow. -/
def parityHash : Xof := fun bytes => Bytes.ofInteger hashBytes (bytes.length % 2)

theorem challenge_parityHash (R A : Bytes fieldBytes) (message : List UInt8) :
    challenge parityHash R.toList A.toList message = message.length % 2 := by
  have hlen : (R.toList ++ A.toList ++ message).length % 2 = message.length % 2 := by
    rw [List.length_append, List.length_append, Vector.length_toList, Vector.length_toList]
    change (38 + 38 + message.length) % 2 = message.length % 2
    omega
  have hlt := Nat.mod_lt message.length (by norm_num : 0 < 2)
  have hcap : 2 ≤ 256 ^ hashBytes := le_trans (by norm_num) (Nat.le_pow (by norm_num))
  have hord : 2 ≤ scalarModulus := prime_scalarModulus.two_le
  rw [challenge, hashInteger, parityHash, Bytes.integer_ofInteger, hlen,
    Nat.mod_eq_of_lt (hlt.trans_le hcap), Nat.mod_eq_of_lt (hlt.trans_le hord)]

theorem parity_lt (message : List UInt8) : message.length % 2 < scalarModulus :=
  (Nat.mod_lt _ (by norm_num)).trans_le prime_scalarModulus.two_le

/-- Under that hash, the identity as commitment and the parity as response are
    accepted for the base point as key. -/
theorem verify_parityHash (message : List UInt8) :
    verify parityHash (enc generator).toList message
      ((enc 0).toList ++ (encScalar (message.length % 2)).toList) = true := by
  rw [verify_append_iff, encScalar_integer _ (parity_lt message), challenge_parityHash]
  refine ⟨generator, 0, ⟨rfl, generator_ne_zero, scalarModulus_nsmul_generator⟩, rfl,
    parity_lt message, ?_⟩
  rw [Cofactored.PrimeBase.Accepts, nsmul_zero, zero_add]
  rfl

end Example

/-- For a key, a message and a commitment one response at most is accepted, so
    every other response in its place is rejected. -/
theorem accepted_response_unique (H : List UInt8 → Bytes 76) (publicKey message : List UInt8)
    (R S S' : Bytes 38) (h : verify H publicKey message (R.toList ++ S.toList) = true) :
    (verify H publicKey message (R.toList ++ S'.toList) = true → S' = S) ∧
      (S' ≠ S → verify H publicKey message (R.toList ++ S'.toList) = false) := by
  have hunique : verify H publicKey message (R.toList ++ S'.toList) = true → S' = S := by
    intro h'
    rcases verify_append_shared H publicKey message message R S S' h h' with
      ⟨A, P, _, hS, hS', haccepts, haccepts'⟩
    -- The residues agree, and both numbers are below the order.
    have hres := primeBase.response_unique A P _ _ _ haccepts' haccepts
    exact Bytes.integer_injective S' S (primeBase.eq_of_natCast_eq _ _ hS' hS hres)
  exact ⟨hunique, fun hne => Bool.eq_false_iff.mpr fun h' => hne (hunique h')⟩

/-- The base point as key and the identity as commitment accept the response
    zero to the empty message and refuse one. -/
theorem accepted_response_unique_parityHash :
    verify parityHash (enc generator).toList [] ((enc 0).toList ++ (encScalar 1).toList)
      = false := by
  have hne : encScalar 1 ≠ encScalar 0 := by
    intro h
    have hint := congrArg Bytes.integer h
    rw [encScalar_integer 1 prime_scalarModulus.one_lt,
      encScalar_integer 0 prime_scalarModulus.pos] at hint
    exact absurd hint one_ne_zero
  exact (accepted_response_unique parityHash (enc generator).toList [] (enc 0) (encScalar 0)
    (encScalar 1) (verify_parityHash [])).2 hne

/-- The cofactored equation tolerates exactly the torsion of the commitment.
    The uncofactored one tolerates none of it, and among the accepted
    commitments it singles out those in the subgroup. Whatever torsion is put
    into an honest commitment, the honest response to it is accepted. -/
theorem torsion_tolerance (H : List UInt8 → Bytes 76) :
    (∀ (keyBytes signatureBytes message : List UInt8) (key : VerifyingKey) (sig : Signature),
      VerifyingKey.fromBytes keyBytes = .ok key → Signature.fromBytes signatureBytes = .ok sig →
      ∃ (A R : Point curve) (k S : ℕ), key.point.Denotes A ∧ sig.commitment.Denotes R ∧
        k = (hashToScalar (challengeHash H sig.commitmentEncoding key.encoded message)).value ∧
        S = sig.response.value ∧
        (key.verify H message sig = true ↔
          ∃ T : Point curve, 4 • T = 0 ∧ R = S • generator - k • A + T) ∧
        (∀ T : Point curve, 4 • T = 0 → R = S • generator - k • A + T →
          (S • generator = R + k • A ↔ T = 0)) ∧
        (key.verify H message sig = true →
          (S • generator = R + k • A ↔ sig.commitment.isPrimeSubgroup = true))) ∧
    (∀ (lower : Bytes 38) (r : ℕ) (T : Point curve) (message : List UInt8) (s k : ℕ),
      4 • T = 0 → s = (ExpandedSecret.prune lower).integer →
      k = (hashToScalar (challengeHash H (enc (r • generator + T)) (enc (s • generator))
        message)).value →
      verify H (enc (s • generator)).toList message
        ((enc (r • generator + T)).toList
          ++ (encScalar ((r + k * s) % scalarModulus)).toList) = true) := by
  constructor
  · -- Parsed values: the key is in the subgroup, the commitment is any point.
    intro keyBytes signatureBytes message key sig hkey hsig
    rcases (VerifyingKey.fromBytes_eq_ok_iff keyBytes key).mp hkey with ⟨A, hA, rfl⟩
    rcases (Signature.fromBytes_eq_ok_iff signatureBytes sig).mp hsig with ⟨R, S, hS, _, rfl⟩
    have hverify := VerifyingKey.verify_ofParts_iff H A R S message hS
    have hk := hashToScalar_challengeHash H (enc R) (enc A) message
    have hR := EdwardsPoint.ofPoint_denotes R
    generalize challenge H (enc R).toList (enc A).toList message = k at hverify hk
    refine ⟨A, R, k, S, EdwardsPoint.ofPoint_denotes A, hR, hk.symm, (Scalar.ofNat_value S hS).symm,
      ?_, ?_, ?_⟩
    · rw [hverify]
      exact primeBase.accepts_iff_exists_torsion A R k S
    · intro T _ hRT
      rw [hRT]
      exact primeBase.plain_iff_torsion_eq_zero A T k S
    · intro h
      exact (primeBase.plain_iff_order_nsmul A R k S hA.2.2 (hverify.mp h)).trans
        (EdwardsPoint.isPrimeSubgroup_iff _ R hR).symm
  · -- A commitment with torsion: the response is the honest one.
    intro lower r T message s k hT hs hk
    rw [prune_integer] at hs
    rw [hashToScalar_challengeHash] at hk
    have hlt : (r + k * s) % scalarModulus < scalarModulus :=
      Nat.mod_lt _ (Nat.pos_of_neZero scalarModulus)
    have hnot : ¬ scalarModulus ∣ s := hs ▸ prunedInteger_not_dvd lower.integer
    have haccepts := primeBase.accepts_response s r k ((r + k * s) % scalarModulus) T hT
      (ZMod.natCast_mod _ _)
    rw [verify_append_iff, encScalar_integer _ hlt]
    refine ⟨s • generator, r • generator + T, ⟨rfl, nsmul_generator_ne_zero s hnot,
      primeBase.order_nsmul_multiple s⟩, rfl, hlt, ?_⟩
    rw [← hk]
    exact haccepts

/-- The tolerance at the base point as key and the identity as commitment, and
    at the point of order two as commitment. -/
theorem torsion_tolerance_orderTwoPoint :
    (∃ (A R : Point curve) (k S : ℕ), (VerifyingKey.ofPoint generator).point.Denotes A ∧
      (Signature.ofParts 0 0).commitment.Denotes R ∧
      ((VerifyingKey.ofPoint generator).verify parityHash [] (Signature.ofParts 0 0) = true ↔
        ∃ T : Point curve, 4 • T = 0 ∧ R = S • generator - k • A + T)) ∧
    ∃ (s k : ℕ), verify parityHash (enc (s • generator)).toList []
      ((enc (0 • generator + orderTwoPoint)).toList
        ++ (encScalar ((0 + k * s) % scalarModulus)).toList) = true := by
  have h := torsion_tolerance parityHash
  constructor
  -- Key, signature and hash are concrete; the equivalence is the theorem's.
  · rcases h.1 (enc generator).toList (wire 0 0) [] _ _
      (VerifyingKey.fromBytes_enc generator generator_ne_zero scalarModulus_nsmul_generator)
      (Signature.fromBytes_wire 0 0 prime_scalarModulus.pos)
      with ⟨A, R, k, S, hA, hR, _, _, hiff, _⟩
    exact ⟨A, R, k, S, hA, hR, hiff⟩
  · exact ⟨_, _, h.2 (Vector.replicate 38 0) 0 orderTwoPoint [] _ _ four_nsmul_orderTwoPoint
      rfl rfl⟩

/-- Two accepted signatures on one commitment under one key, with different
    challenges, have different responses and determine the key. -/
theorem special_soundness (H : List UInt8 → Bytes 76) (keyBytes message message' : List UInt8)
    (key : VerifyingKey) (A : Point curve) (R S S' : Bytes 38) (k k' : ℕ)
    (hkey : VerifyingKey.fromBytes keyBytes = .ok key) (hA : key.point.Denotes A)
    (hk : k = (hashToScalar (challengeHash H R key.encoded message)).value)
    (hk' : k' = (hashToScalar (challengeHash H R key.encoded message')).value)
    (h : verify H keyBytes message (R.toList ++ S.toList) = true)
    (h' : verify H keyBytes message' (R.toList ++ S'.toList) = true) :
    (k ≠ k' →
      A = (((S.integer : ZMod scalarModulus) - S'.integer)
        * ((k : ZMod scalarModulus) - k')⁻¹).val • generator ∧ S ≠ S') ∧
    (S = S' → k = k') := by
  rcases (VerifyingKey.fromBytes_eq_ok_iff keyBytes key).mp hkey with ⟨A₀, hA₀, rfl⟩
  have hAeq := EdwardsPoint.denotes_unique _ A A₀ hA (EdwardsPoint.ofPoint_denotes A₀)
  subst hAeq
  rcases verify_append_shared H keyBytes message message' R S S' h h' with
    ⟨A₁, P, hA₁, _, _, haccepts, haccepts'⟩
  -- The key parsed is the key in both equations.
  rw [hA₁.unique hA₀, hA₀.1] at haccepts haccepts'
  rw [VerifyingKey.ofPoint, hashToScalar_challengeHash] at hk hk'
  rw [← hk] at haccepts
  rw [← hk'] at haccepts'
  -- The challenges are reduced, so they differ as residues.
  have hres : k ≠ k' → (k : ZMod primeBase.order) ≠ (k' : ZMod primeBase.order) := by
    intro hne hcast
    have hlt : k < scalarModulus := hk ▸ Nat.mod_lt _ (Nat.pos_of_neZero _)
    have hlt' : k' < scalarModulus := hk' ▸ Nat.mod_lt _ (Nat.pos_of_neZero _)
    exact hne (primeBase.eq_of_natCast_eq k k' hlt hlt' hcast)
  have hne : k ≠ k' → S ≠ S' := by
    intro hkk hSS
    exact primeBase.extract_response_ne A P k _ k' _ hA₀.2.2 hA₀.2.1 haccepts haccepts' (hres hkk)
      (by rw [hSS])
  refine ⟨fun hkk => ⟨?_, hne hkk⟩, fun hSS => ?_⟩
  · exact primeBase.extract_key A P k _ k' _ hA₀.2.2 haccepts haccepts' (hres hkk)
  · by_contra hkk
    exact hne hkk hSS

/-- Two messages whose challenges are zero and one determine the base point as
    the key. -/
theorem special_soundness_parityHash :
    generator = ((((encScalar 0).integer : ZMod scalarModulus) - (encScalar 1).integer)
      * (((0 : ℕ) : ZMod scalarModulus) - (1 : ℕ))⁻¹).val • generator ∧
      encScalar 0 ≠ encScalar 1 := by
  have hkey :=
    VerifyingKey.fromBytes_enc generator generator_ne_zero scalarModulus_nsmul_generator
  have hchallenge : ∀ message : List UInt8, message.length % 2
      = (hashToScalar (challengeHash parityHash (enc 0) (VerifyingKey.ofPoint generator).encoded
        message)).value := by
    intro message
    rw [hashToScalar_challengeHash, challenge_parityHash]
  exact (special_soundness parityHash (enc generator).toList [] [0]
    (VerifyingKey.ofPoint generator) generator (enc 0) (encScalar 0) (encScalar 1) 0 1 hkey
    (EdwardsPoint.ofPoint_denotes generator) (hchallenge []) (hchallenge [0])
    (verify_parityHash []) (verify_parityHash [0])).1 zero_ne_one

end Ed301
