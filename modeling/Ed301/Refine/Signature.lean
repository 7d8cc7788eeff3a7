import Ed301.Core.Signature
import Ed301.Refine.PointCodec
import Ed301.Refine.Scalar
import Ed301.Refine.Subgroup

/-!
# Keys, Signatures and the Verification Equation

The byte-level interface against the draft. The two parsers accept exactly
the encodings the draft describes, and what they return is determined by the
point and the scalar encoded: `VerifyingKey.ofPoint` and `Signature.ofParts`
are those values.

On parsed values, verification decides the cofactored equation in the curve
group. The challenge enters through the encodings stored in the key and the
signature, which are the encodings of their points, so the bytes that are
hashed and the points in the equation cannot disagree.

## Main definitions

* `Scalar.ofNat`: The scalar of a number.
* `VerifyingKey.ofPoint`: The key of a point.
* `Signature.ofParts`: The signature of a commitment and a response.

## Theorems

* `decodeStrictSubgroup_eq_ok_iff`: The strict decoder.
* `VerifyingKey.fromBytes_eq_ok_iff`: The key parser.
* `Signature.fromBytes_eq_ok_iff`: The signature parser.
* `VerifyingKey.fromBytes_enc`, `Signature.fromBytes_wire`: Parsing what the
  draft writes.
* `hashToScalar_challengeHash`: The challenge is the draft's.
* `VerifyingKey.verify_ofParts_iff`: Verification of parsed values.
* `verify_eq_true_iff`: Verification of bytes.
-/

namespace Ed301

open Edwards Radix Draft

/-- The scalar of a number. -/
def Scalar.ofNat (S : ℕ) : Scalar :=
  ⟨BitVec.ofNat 320 S⟩

theorem Scalar.ofNat_value (S : ℕ) (h : S < scalarModulus) : (Scalar.ofNat S).value = S := by
  have hlt : S < Scalar.modulus.toNat := by rwa [Scalar.modulus_toNat]
  rw [Scalar.value, Scalar.ofNat, BitVec.toNat_ofNat,
    Nat.mod_eq_of_lt (hlt.trans Scalar.modulus.isLt)]

/-- The strict decoder accepts the encodings of nonidentity points of the
    subgroup. -/
theorem EdwardsPoint.decodeStrictSubgroup_eq_ok_iff (b : Bytes fieldBytes) (P : EdwardsPoint) :
    EdwardsPoint.decodeStrictSubgroup b = .ok P ↔
      ∃ A : Point curve, b = enc A ∧ (A ≠ 0 ∧ scalarModulus • A = 0) ∧
        P = EdwardsPoint.ofPoint A := by
  rw [EdwardsPoint.decodeStrictSubgroup, bind_eq_ok_iff]
  constructor
  · intro h
    rcases h with ⟨Q, hdec, hguard⟩
    -- The decoder returned the point of an encoding, and the guard is the
    -- subgroup test on it.
    rcases (EdwardsPoint.decode_eq_ok_iff b Q).mp hdec with ⟨A, henc, rfl⟩
    rw [ite_error_eq_ok_iff, Bool.not_eq_false',
      EdwardsPoint.isPrimeSubgroupNonidentity_iff _ A (EdwardsPoint.ofPoint_denotes A)] at hguard
    exact ⟨A, henc, hguard.1, hguard.2⟩
  · intro h
    rcases h with ⟨A, rfl, hkey, rfl⟩
    refine ⟨EdwardsPoint.ofPoint A, EdwardsPoint.decode_enc A, ?_⟩
    rw [ite_error_eq_ok_iff, Bool.not_eq_false',
      EdwardsPoint.isPrimeSubgroupNonidentity_iff _ A (EdwardsPoint.ofPoint_denotes A)]
    exact ⟨hkey, rfl⟩

namespace VerifyingKey

/-- The key of a point. -/
def ofPoint (A : Point curve) : VerifyingKey :=
  { encoded := enc A
    point := EdwardsPoint.ofPoint A }

/-- The key parser accepts exactly the draft's keys. -/
theorem fromBytes_eq_ok_iff (bytes : List UInt8) (key : VerifyingKey) :
    fromBytes bytes = .ok key ↔ ∃ A : Point curve, IsKeyOf bytes A ∧ key = ofPoint A := by
  simp only [fromBytes, bind_eq_ok_iff, okOr_eq_ok_iff, mapErr_eq_ok_iff, tryInto_eq_some_iff,
    EdwardsPoint.decodeStrictSubgroup_eq_ok_iff, Except.ok.injEq]
  constructor
  · intro h
    rcases h with ⟨encoded, rfl, _, ⟨A, rfl, hkey, rfl⟩, rfl⟩
    exact ⟨A, ⟨rfl, hkey⟩, rfl⟩
  · intro h
    rcases h with ⟨A, ⟨rfl, hkey⟩, rfl⟩
    exact ⟨enc A, rfl, EdwardsPoint.ofPoint A, ⟨A, rfl, hkey, rfl⟩, rfl⟩

/-- A key's encoding parses to the key of its point. -/
theorem fromBytes_enc (A : Point curve) (hne : A ≠ 0) (hord : scalarModulus • A = 0) :
    fromBytes (enc A).toList = .ok (ofPoint A) :=
  (fromBytes_eq_ok_iff _ _).mpr ⟨A, ⟨rfl, hne, hord⟩, rfl⟩

end VerifyingKey

namespace Signature

/-- The signature of a commitment and a response. -/
def ofParts (R : Point curve) (S : ℕ) : Signature :=
  { encoded := Bytes.ofList (wire R S) (length_wire R S)
    commitmentEncoding := enc R
    commitment := EdwardsPoint.ofPoint R
    response := Scalar.ofNat S }

/-- The signature parser accepts exactly a point's encoding followed by the
    encoding of a number below the order. -/
theorem fromBytes_eq_ok_iff (bytes : List UInt8) (sig : Signature) :
    fromBytes bytes = .ok sig ↔
      ∃ (R : Point curve) (S : ℕ), S < scalarModulus ∧ bytes = wire R S ∧ sig = ofParts R S := by
  simp only [fromBytes, bind_eq_ok_iff, okOr_eq_ok_iff, mapErr_eq_ok_iff, tryInto_eq_some_iff,
    EdwardsPoint.decode_eq_ok_iff, CtOption.intoOptionCopied_eq_some_iff,
    Scalar.fromCanonicalBytes_isSome_iff, Except.ok.injEq]
  constructor
  · intro h
    rcases h with ⟨encoded, rfl, _, hR, responseEncoding, hS, _, ⟨R, rfl, rfl⟩, _, ⟨hlt, rfl⟩, rfl⟩
    -- The response is the number its bytes denote, and the halves make up the
    -- whole string.
    have hencS : responseEncoding = encScalar responseEncoding.integer :=
      (Bytes.ofInteger_integer responseEncoding).symm
    have hbytes : encoded.toList = wire R responseEncoding.integer := by
      rw [wire, ← hencS, ← hR, ← hS]
      exact (List.take_append_drop fieldBytes encoded.toList).symm
    refine ⟨R, responseEncoding.integer, hlt, hbytes, ?_⟩
    -- The stored bytes and the stored scalar are those of the parts.
    have henc : encoded = Bytes.ofList (wire R responseEncoding.integer) (length_wire R _) :=
      Bytes.toList_injective _ _ hbytes
    have hresp : (Scalar.fromCanonicalBytes responseEncoding).value
        = Scalar.ofNat responseEncoding.integer := by
      refine Scalar.value_injective _ _ ?_
      rw [Scalar.fromCanonicalBytes_value, Scalar.ofNat_value _ hlt]
    rw [ofParts, ← henc, hresp]
  · intro h
    rcases h with ⟨R, S, hlt, rfl, rfl⟩
    have hint := encScalar_integer S hlt
    have hresp : Scalar.ofNat S = (Scalar.fromCanonicalBytes (encScalar S)).value := by
      refine Scalar.value_injective _ _ ?_
      rw [Scalar.fromCanonicalBytes_value, Scalar.ofNat_value S hlt, hint]
    refine ⟨Bytes.ofList (wire R S) (length_wire R S), rfl, enc R, take_wire R S, encScalar S,
      drop_wire R S, EdwardsPoint.ofPoint R, ⟨R, rfl, rfl⟩, _, ⟨?_, hresp⟩, rfl⟩
    rwa [hint]

/-- A signature's bytes parse to its parts. -/
theorem fromBytes_wire (R : Point curve) (S : ℕ) (hS : S < scalarModulus) :
    fromBytes (wire R S) = .ok (ofParts R S) :=
  (fromBytes_eq_ok_iff _ _).mpr ⟨R, S, hS, rfl, rfl⟩

end Signature

section Verification

variable (H : Xof)

/-- The streaming interface hashes the concatenation of its parts. -/
theorem hashParts_eq (parts : List (List UInt8)) : hashParts H parts = H parts.flatten := by
  have hfold : ∀ (l : List (List UInt8)) (state : Shake256),
      (l.foldl Shake256.update state).absorbed = state.absorbed ++ l.flatten := by
    -- Every part is appended to what has been absorbed before it.
    intro l
    induction l with
    | nil =>
        intro state
        exact (List.append_nil _).symm
    | cons part l ih =>
        intro state
        rw [List.foldl_cons, ih, Shake256.update, List.flatten_cons, List.append_assoc]
  rw [hashParts, Shake256.finalizeXofRead, hfold]
  rfl

theorem hashToScalar_value (digest : Bytes hashBytes) :
    (hashToScalar digest).value = digest.integer % scalarModulus :=
  Scalar.reduceHashLe_value digest

/-- The challenge is the draft's. -/
theorem hashToScalar_challengeHash (commitment publicKey : Bytes fieldBytes)
    (message : List UInt8) :
    (hashToScalar (challengeHash H commitment publicKey message)).value
      = challenge H commitment.toList publicKey.toList message := by
  rw [hashToScalar_value, challengeHash, hashParts_eq, challenge, hashInteger]
  simp only [List.flatten_cons, List.flatten_nil, List.append_nil, List.append_assoc]

/-- The comparison made by verification decides the cofactored equation. -/
theorem equation_iff (P Q : EdwardsPoint) (A R : Point curve) (hP : P.Denotes A)
    (hQ : Q.Denotes R) (challenge response : Scalar) (hchallenge : challenge.Canonical)
    (hresponse : response.Canonical) :
    (EdwardsPoint.basepoint.scalarMul response).multiplyByCofactor.ctEq
        (Q.add (P.scalarMul challenge)).multiplyByCofactor = true ↔
      primeBase.Accepts A R challenge.value response.value := by
  -- Both sides of the comparison denote multiples, and comparison decides
  -- equality of what is denoted.
  have hleft := EdwardsPoint.scalarMul_denotes _ generator EdwardsPoint.basepoint_denotes response
    hresponse
  have hmul := EdwardsPoint.scalarMul_denotes P A hP challenge hchallenge
  have hright := EdwardsPoint.add_denotes Q (P.scalarMul challenge) R _ hQ hmul
  rw [EdwardsPoint.ctEq_iff _ _ _ _ (EdwardsPoint.multiplyByCofactor_denotes _ _ hleft)
      (EdwardsPoint.multiplyByCofactor_denotes _ _ hright),
    Cofactored.PrimeBase.Accepts, nsmul_add, primeBase_cofactor, primeBase_point, mul_nsmul',
    mul_nsmul']

/-- Verification of parsed values decides the cofactored equation. -/
theorem VerifyingKey.verify_ofParts_iff (A R : Point curve) (S : ℕ) (message : List UInt8)
    (hS : S < scalarModulus) :
    (VerifyingKey.ofPoint A).verify H message (Signature.ofParts R S) = true ↔
      primeBase.Accepts A R (challenge H (enc R).toList (enc A).toList message) S := by
  have hresponse := Scalar.ofNat_value S hS
  have hequation := equation_iff _ _ A R (EdwardsPoint.ofPoint_denotes A)
    (EdwardsPoint.ofPoint_denotes R) (hashToScalar (challengeHash H (enc R) (enc A) message))
    (Scalar.ofNat S) (Scalar.reduceHashLe_canonical _)
    (by rwa [Scalar.Canonical, hresponse])
  rw [hashToScalar_challengeHash, hresponse] at hequation
  exact hequation

/-- Verification of bytes: both parsers accept and the equation holds. -/
theorem verify_eq_true_iff (publicKey message signature : List UInt8) :
    verify H publicKey message signature = true ↔
      ∃ (A R : Point curve) (S : ℕ), IsKeyOf publicKey A ∧ S < scalarModulus ∧
        signature = wire R S ∧
        primeBase.Accepts A R (challenge H (enc R).toList publicKey message) S := by
  constructor
  · intro h
    unfold verify at h
    -- A parse failure is a rejection, so both parsers succeeded.
    cases hkey : VerifyingKey.fromBytes publicKey with
    | error e =>
        rw [hkey] at h
        exact absurd h Bool.false_ne_true
    | ok key =>
        rw [hkey] at h
        cases hsig : Signature.fromBytes signature with
        | error e =>
            rw [hsig] at h
            exact absurd h Bool.false_ne_true
        | ok sig =>
            rw [hsig] at h
            rcases (VerifyingKey.fromBytes_eq_ok_iff publicKey key).mp hkey with ⟨A, hA, rfl⟩
            rcases (Signature.fromBytes_eq_ok_iff signature sig).mp hsig with ⟨R, S, hS, hwire, rfl⟩
            refine ⟨A, R, S, hA, hS, hwire, ?_⟩
            rw [hA.1]
            exact (VerifyingKey.verify_ofParts_iff H A R S message hS).mp h
  · intro h
    rcases h with ⟨A, R, S, hA, hS, rfl, haccepts⟩
    rw [hA.1] at haccepts ⊢
    simp only [verify, VerifyingKey.fromBytes_enc A hA.2.1 hA.2.2, Signature.fromBytes_wire R S hS]
    exact (VerifyingKey.verify_ofParts_iff H A R S message hS).mpr haccepts

end Verification

end Ed301
