import Ed301.Core.LimbScheme
import Ed301.Refine.Extended
import Ed301.Refine.Field
import Ed301.Refine.Safegcd
import Ed301.Refine.Scalar

/-!
# The Scheme on Limbs against the Model

Decoding, encoding, key derivation, signing and verification on limbs, step by
step along the code of the model.

Limbs are read from bytes and written to bytes as the integer they spell, so
the parsers compare the same integers and the bytes that go out are the same.
Points that are decoded stand for the points of the model, and what fails on
one side fails on the other, with the same error.

## Main definitions

* `CtRel`: Optional values that are present alike.
* `RelSignature`, `RelVerifyingKey`, `RelExpanded`: What is stored and what it
  stands for.

## Theorems

* `Uint.toNat_fromLeSlice`, `Uint.toLeBytes_eq`: Limbs and bytes.
* `LimbField.rel_fromCanonicalBytes`, `LimbField.toCanonicalBytes_eq`: Field
  elements.
* `LimbPoint.rel_decode`, `LimbPoint.encodeInner_eq`: Points.
* `LimbScheme.rel_signExpanded`, `LimbScheme.sign_eq`: Signing.
* `LimbVerifyingKey.verify_eq`, `LimbScheme.verify_eq`: Verification.
-/

namespace Ed301

open Radix Limbs Program FixedMontyForm

variable {n : ℕ}

theorem Limb.toNat_fromLeBytes (bytes : List UInt8) (h : bytes.length ≤ 8) :
    (Limb.fromLeBytes bytes).toNat = leInteger bytes := by
  have hlt := leInteger_lt bytes
  have hle : 256 ^ bytes.length ≤ 256 ^ 8 := Nat.pow_le_pow_right (by decide) h
  unfold Limb.fromLeBytes
  rw [BitVec.toNat_ofNat, Nat.mod_eq_of_lt (by omega)]

/-- The limbs of a string of bytes spell its integer. -/
theorem value_limbsOfBytes (k : ℕ) (bytes : List UInt8) (h : bytes.length = 8 * k) :
    value ((List.range k).map fun i => Limb.fromLeBytes ((bytes.drop (i * 8)).take 8))
      = leInteger bytes := by
  induction k generalizing bytes with
  | zero =>
      rw [List.eq_nil_of_length_eq_zero h]
      rfl
  | succ k ih =>
      have hrest := ih (bytes.drop 8) (by rw [List.length_drop]; omega)
      have hfirst : (bytes.take 8).length ≤ 8 := List.length_take_le 8 bytes
      have hshift : ∀ i, (bytes.drop 8).drop (i * 8) = bytes.drop ((i + 1) * 8) := fun i => by
        rw [List.drop_drop, Nat.succ_mul, Nat.add_comm]
      rw [List.range_succ_eq_map, List.map_cons, List.map_map, value_cons, Nat.zero_mul,
        List.drop_zero, Limb.toNat_fromLeBytes _ hfirst, leInteger_take_drop bytes 8 (by omega),
        ← hrest]
      simp only [hshift]
      rfl

theorem Uint.toNat_fromLeSlice (bytes : Bytes (8 * n)) :
    (Uint.fromLeSlice bytes).toNat = bytes.integer :=
  value_limbsOfBytes n bytes.toList bytes.length_toList

/-- The bytes of limbs spell their value. -/
theorem leInteger_flatMap_toLeBytes (limbs : List Limb) :
    leInteger (limbs.flatMap Limb.toLeBytes) = value limbs := by
  induction limbs with
  | nil => rfl
  | cons limb limbs ih =>
      have hlt := limb.isLt
      rw [List.flatMap_cons, leInteger_append, ih, value_cons]
      unfold Limb.toLeBytes
      rw [leInteger_leBytes, length_leBytes, Nat.mod_eq_of_lt (by omega)]
      rfl

theorem Uint.toLeBytes_eq (a : Uint n) : a.toLeBytes = Bytes.ofInteger (8 * n) a.toNat := by
  refine Bytes.integer_injective _ _ ?_
  have hlt := a.toNat_lt
  -- The bytes are as many as the limbs need, so nothing is cut off.
  have hpow : 256 ^ (8 * n) = (2 ^ 64) ^ n := by
    rw [pow_mul]
    rfl
  rw [Bytes.integer_ofInteger, hpow, Nat.mod_eq_of_lt hlt]
  exact leInteger_flatMap_toLeBytes a.limbs

theorem Uint.toNat_fromWords (words : Vector UInt64 n) :
    (Uint.fromWords words).toNat = wordsInteger words.toList := by
  unfold Uint.toNat Uint.fromWords value wordsInteger
  rw [List.map_map]
  rfl

/-- Words are read off the integer. -/
theorem Uint.toWords_eq (a : Uint 5) (u : U320) (h : a.toNat = u.toNat) :
    a.toWords = u.toWords := by
  refine Vector.ext fun i hi => UInt64.toNat_inj.mp ?_
  have hlimb := toNat_getD a.limbs i
  have hlen : i < a.limbs.length := hi.trans_eq a.length_limbs.symm
  rw [List.getD_eq_getElem _ _ hlen] at hlimb
  rw [Scalar.toWords_toNat u i hi, ← h]
  refine Eq.trans ?_ hlimb
  unfold Uint.toWords
  simp

/-- The five limbs of 38 bytes. -/
theorem toNat_limbsFromLe38 (bytes : Bytes fieldBytes) :
    (limbsFromLe38 bytes).toNat = bytes.integer := by
  unfold limbsFromLe38
  rw [Uint.toNat_fromLeSlice]
  unfold Bytes.integer
  rw [Vector.toList_append, Vector.toList_replicate, leInteger_append_zeros]

/-- Optional values that are present alike, and related if they are. -/
structure CtRel {α β : Type} (R : α → β → Prop) (a : CtOption α) (b : CtOption β) : Prop where
  isSome : a.isSome = b.isSome
  value : b.isSome = true → R a.value b.value

section Results

variable {α β ε ε' : Type} {R : α → β → Prop}

theorem CtRel.okOr {a : CtOption α} {b : CtOption β} (h : CtRel R a b) (e : ε) :
    Outcome R (okOr a.intoOptionCopied e) (okOr b.intoOptionCopied e) := by
  have hsome := h.isSome
  have hvalue := h.value
  unfold CtOption.intoOptionCopied
  cases hb : b.isSome with
  | false =>
      rw [hsome, hb]
      exact Outcome.error e
  | true =>
      rw [hsome, hb]
      exact Outcome.ok _ _ (hvalue hb)

theorem Outcome.mapErr {x : Except ε α} {y : Except ε β} (h : Outcome R x y) (e : ε') :
    Outcome R (Ed301.mapErr x e) (Ed301.mapErr y e) := by
  cases h with
  | ok a b h => exact Outcome.ok a b h
  | error _ => exact Outcome.error e

end Results

namespace LimbField

theorem toNat_modulus : modulus.toNat = fieldModulus :=
  Uint.toNat_ofNat_of_lt _ (by decide)

/-- The parsers accept the same strings and read the same residue. -/
theorem rel_fromCanonicalBytes (bytes : Bytes fieldBytes) :
    CtRel (fun a (b : FieldElement) => Represents a b.inner) (fromCanonicalBytes bytes)
      (FieldElement.fromCanonicalBytes bytes) := by
  have hlimbs := toNat_limbsFromLe38 bytes
  have hmodel := U320.fromLeSlice_widened bytes
  refine ⟨?_, fun _ => ?_⟩
  · have hlt := Uint.lt_iff (limbsFromLe38 bytes) modulus
    unfold fromCanonicalBytes FieldElement.fromCanonicalBytes U320.ctLt
    dsimp only
    rw [Bool.eq_iff_iff, hlt, decide_eq_true_eq, hlimbs, hmodel, toNat_modulus,
      FieldElement.modulus_toNat]
  · have hnew := Represents.new fieldParams_valid (limbsFromLe38 bytes)
    rw [hlimbs, ← hmodel] at hnew
    exact hnew

/-- Five words that are stored. -/
theorem represents_fromCanonicalWords (words : Vector UInt64 5) :
    Represents (fromCanonicalWords words) (FieldElement.fromCanonicalWords words).inner := by
  have hnew := Represents.new fieldParams_valid (Uint.fromWords words)
  have hlt := (Uint.fromWords words).toNat_lt
  have hmodel : (U320.fromWords words).toNat = (Uint.fromWords words).toNat := by
    rw [Uint.toNat_fromWords] at hlt ⊢
    unfold U320.fromWords
    rw [BitVec.toNat_ofNat, Nat.mod_eq_of_lt (by omega)]
  rw [← hmodel] at hnew
  exact hnew

variable {a : LimbField} {b : FieldElement}

theorem toCanonicalBytes_eq (h : Represents a b.inner) :
    toCanonicalBytes a = b.toCanonicalBytes := by
  have hretrieve := Represents.toNat_retrieve fieldParams_valid h
  unfold toCanonicalBytes FieldElement.toCanonicalBytes U320.toLeBytes
  dsimp only
  rw [Uint.toLeBytes_eq, hretrieve, ConstMontyForm.retrieve_toNat _ FieldElement.modulus
    FieldElement.modulus_toNat]

theorem isOdd_eq (h : Represents a b.inner) : isOdd a = b.isOdd := by
  unfold isOdd FieldElement.isOdd
  rw [toCanonicalBytes_eq h]
  rfl

theorem isZero_eq (h : Represents a b.inner) : isZero a = b.isZero :=
  Represents.ctEq fieldParams_valid h Represents.zero

theorem rel_sqrt (h : Represents a b.inner) :
    CtRel (fun a (b : FieldElement) => Represents a b.inner) a.sqrt b.sqrt := by
  have hpow := represents_powBoundedExp fieldParams_valid h sqrtExponent sqrtExponentBits
  have hsquare := Represents.square fieldParams_valid hpow
  have hcheck := Represents.ctEq fieldParams_valid hsquare h
  refine ⟨?_, fun _ => ?_⟩
  · unfold FixedMontyForm.sqrt FieldElement.sqrt
    simp only [FieldElement.ctEq, FieldElement.square]
    exact hcheck
  · unfold FixedMontyForm.sqrt FieldElement.sqrt
    simp only
    exact hpow

/-- The inverse in constant time. -/
theorem rel_invert (h : Represents a b.inner) :
    CtRel (fun a (b : FieldElement) => Represents a b.inner) a.invert b.invert := by
  have hsome := Represents.invert_isSome fieldParams_valid h false (by decide)
    (by decide +kernel)
  exact ⟨hsome, fun hb => (Represents.invert fieldParams_valid h false (hsome.trans hb)).2⟩

end LimbField

namespace LimbPoint

theorem stored_basepoint : StoredPoint basepoint EdwardsPoint.basepoint where
  x := LimbField.represents_fromCanonicalWords _
  y := LimbField.represents_fromCanonicalWords _
  z := Represents.one fieldParams_valid
  t := LimbField.represents_fromCanonicalWords _

theorem stored_fromAffine {x y : LimbField} {x' y' : FieldElement} (hx : Represents x x'.inner)
    (hy : Represents y y'.inner) :
    StoredPoint (fromAffine x y) (EdwardsPoint.fromAffine x' y') where
  x := hx
  y := hy
  z := Represents.one fieldParams_valid
  t := Represents.mul fieldParams_valid hx hy

variable {P : LimbPoint} {p : EdwardsPoint}

theorem stored_scalarMulWith (h : StoredPoint P p) (scalarBit : ℕ → Choice) :
    StoredPoint (P.scalarMulWith ops constants scalarBit) (p.scalarMulWith scalarBit) := by
  have hmul := Extended.Rel.scalarMulWith fieldRefines relConstants h scalarBit
  rw [← EdwardsPoint.toExtended_scalarMulWith] at hmul
  exact hmul

theorem stored_scalarMul (h : StoredPoint P p) {a : Uint 5} {s : Scalar} (ha : a.toNat = s.value) :
    StoredPoint (scalarMul P a) (p.scalarMul s) := by
  unfold scalarMul
  rw [LimbScalar.bit_eq a s ha]
  exact stored_scalarMulWith h s.bit

theorem stored_scalarMulPruned (h : StoredPoint P p) (scalar : Bytes fieldBytes) :
    StoredPoint (scalarMulPruned P scalar) (p.scalarMulPruned scalar) :=
  stored_scalarMulWith h (EdwardsPoint.encodedBit scalar)

theorem isPrimeSubgroup_eq (h : StoredPoint P p) :
    P.isPrimeSubgroup ops constants = p.isPrimeSubgroup := by
  rw [EdwardsPoint.isPrimeSubgroup_eq]
  exact Extended.Rel.isPrimeSubgroup fieldRefines relConstants h

theorem isValid_eq (h : StoredPoint P p) : P.isValid ops constants = p.isValid := by
  rw [EdwardsPoint.isValid_eq]
  exact Extended.Rel.isValid fieldRefines relConstants h

theorem isPrimeSubgroupNonidentity_eq (h : StoredPoint P p) :
    isPrimeSubgroupNonidentity P = p.isPrimeSubgroupNonidentity := by
  have hidentity : P.isIdentity ops = p.isIdentity := Extended.Rel.isIdentity fieldRefines h
  unfold isPrimeSubgroupNonidentity EdwardsPoint.isPrimeSubgroupNonidentity
  rw [hidentity, isPrimeSubgroup_eq h]

/-- The bytes that go out are the same, and so are the failures. -/
theorem encodeInner_eq (h : StoredPoint P p) (declassifyFaultPredicates : Bool) :
    encodeInner P declassifyFaultPredicates = p.encodeInner declassifyFaultPredicates := by
  have hvalid := isValid_eq h
  have hz : Represents P.z p.z.inner := h.z
  -- The inverse is related only where it is present, and else it is not used.
  have hinverse := LimbField.rel_invert hz
  have hflag : ∀ c : Choice,
      (if declassifyFaultPredicates = true then declassify c else c) = c := fun c => by
    cases declassifyFaultPredicates <;> rfl
  unfold encodeInner EdwardsPoint.encodeInner
  simp only [hflag, hvalid, hinverse.isSome]
  by_cases hpoint : p.isValid = true
  · rw [hpoint]
    by_cases hpresent : p.z.invert.isSome = true
    · rw [hpresent]
      have hvalue := hinverse.value hpresent
      have hx : Represents (P.x.mul P.z.invert.value) (p.x.mul p.z.invert.value).inner :=
        Represents.mul fieldParams_valid h.x hvalue
      have hy : Represents (P.y.mul P.z.invert.value) (p.y.mul p.z.invert.value).inner :=
        Represents.mul fieldParams_valid h.y hvalue
      unfold CtOption.toInnerUnchecked
      rw [LimbField.toCanonicalBytes_eq hy, LimbField.isOdd_eq hx]
    · rw [Bool.not_eq_true] at hpresent
      rw [hpresent]
      rfl
  · rw [Bool.not_eq_true] at hpoint
    rw [hpoint]
    rfl

theorem encode_eq (h : StoredPoint P p) : encode P = p.encode :=
  encodeInner_eq h false

theorem encodePublicArtifact_eq (h : StoredPoint P p) :
    encodePublicArtifact P = p.encodePublicArtifact :=
  encodeInner_eq h true

/-- What is decoded stands for what the model decodes, and each exit is taken on
    both sides. -/
theorem rel_decodeExits (encoded : Bytes fieldBytes) :
    Outcome StoredPoint (decodeExits encoded) (EdwardsPoint.decodeExits encoded) := by
  unfold decodeExits EdwardsPoint.decodeExits
  by_cases hreserved : encoded.get 37 &&& 0x60 ≠ 0
  · rw [if_pos hreserved]
    have hmodel : encoded[37] &&& 0x60 ≠ 0 := hreserved
    rw [if_pos hmodel]
    exact Outcome.error _
  · rw [if_neg hreserved]
    have hmodel : ¬ encoded[37] &&& 0x60 ≠ 0 := hreserved
    rw [if_neg hmodel]
    refine Outcome.bind (CtRel.okOr (LimbField.rel_fromCanonicalBytes _) _) fun y y' hy => ?_
    -- Each value that is computed stands for the one of the model.
    have hyy : Represents y.square y'.square.inner := Represents.square fieldParams_valid hy
    have hdenominator : Represents (constants.edwardsA.sub (constants.edwardsD.mul y.square))
        (edwardsA.sub (edwardsD.mul y'.square)).inner :=
      Represents.sub fieldParams_valid relConstants.edwardsA
        (Represents.mul fieldParams_valid relConstants.edwardsD hyy)
    refine Outcome.bind (CtRel.okOr (LimbField.rel_invert hdenominator) _) fun inv inv' hinv => ?_
    have hsquared : Represents ((FixedMontyForm.one.sub y.square).mul inv)
        ((FieldElement.one.sub y'.square).mul inv').inner :=
      Represents.mul fieldParams_valid
        (Represents.sub fieldParams_valid (Represents.one fieldParams_valid) hyy) hinv
    refine Outcome.bind (CtRel.okOr (LimbField.rel_sqrt hsquared) _) fun root root' hroot => ?_
    -- The root with the sign that was asked for.
    have hodd := LimbField.isOdd_eq hroot
    have hx : ∀ negate, Represents (FixedMontyForm.ctSelect root root.neg negate)
        (FieldElement.conditionalSelect root' root'.neg negate).inner := fun negate =>
      Represents.ctSelect hroot (Represents.neg fieldParams_valid hroot) negate
    refine Outcome.guard ?_ _ ?_
    · rw [LimbField.isZero_eq hroot]
      rfl
    · have hpoint := stored_fromAffine (hx (root'.isOdd ^^
        Choice.fromU8Lsb ((encoded.get 37 >>> 7) &&& 1))) hy
      rw [hodd]
      refine Outcome.guard ?_ _ (Outcome.ok _ _ hpoint)
      rw [isValid_eq hpoint]
      rfl

theorem rel_decode (encoded : Bytes fieldBytes) :
    Outcome StoredPoint (decode encoded) (EdwardsPoint.decode encoded) :=
  Outcome.mapErr (rel_decodeExits encoded) _

theorem rel_decodeStrictSubgroup (encoded : Bytes fieldBytes) :
    Outcome StoredPoint (decodeStrictSubgroup encoded)
      (EdwardsPoint.decodeStrictSubgroup encoded) := by
  refine Outcome.bind (rel_decode encoded) fun P p h => ?_
  refine Outcome.guard ?_ _ (Outcome.ok _ _ h)
  rw [isPrimeSubgroupNonidentity_eq h]

end LimbPoint

namespace LimbScalar

theorem toNat_modulus : modulus.toNat = scalarModulus :=
  Uint.toNat_ofNat_of_lt _ (by decide)

theorem rel_fromCanonicalBytes (bytes : Bytes scalarBytes) :
    CtRel (fun (a : Uint 5) (s : Scalar) => a.toNat = s.value) (fromCanonicalBytes bytes)
      (Scalar.fromCanonicalBytes bytes) := by
  have hlimbs := toNat_limbsFromLe38 bytes
  have hmodel := U320.fromLeSlice_widened bytes
  have hlt := Uint.lt_iff (limbsFromLe38 bytes) modulus
  refine ⟨?_, fun _ => hlimbs.trans hmodel.symm⟩
  unfold fromCanonicalBytes Scalar.fromCanonicalBytes U320.ctLt uintFromLe38
  dsimp only
  rw [Bool.eq_iff_iff, hlt, decide_eq_true_eq, hlimbs, hmodel, toNat_modulus,
    Scalar.modulus_toNat]

theorem writeCanonicalBytes_eq (a : Uint 5) (s : Scalar) (h : a.toNat = s.value)
    (output : Bytes scalarBytes) :
    writeCanonicalBytes a output = s.writeCanonicalBytes output := by
  unfold writeCanonicalBytes Scalar.writeCanonicalBytes
  rw [Uint.toWords_eq a s.integer h]

end LimbScalar

/-- A parsed signature on limbs and the one of the model. -/
structure RelSignature (a : LimbSignature) (b : Signature) : Prop where
  encoded : a.encoded = b.encoded
  commitmentEncoding : a.commitmentEncoding = b.commitmentEncoding
  commitment : StoredPoint a.commitment b.commitment
  response : a.response.toNat = b.response.value

/-- A public key on limbs and the one of the model. -/
structure RelVerifyingKey (a : LimbVerifyingKey) (b : VerifyingKey) : Prop where
  encoded : a.encoded = b.encoded
  point : StoredPoint a.point b.point

/-- Expanded secrets on limbs and the one of the model. -/
structure RelExpanded (a : LimbExpandedSecret) (b : ExpandedSecret) : Prop where
  reducedScalar : a.reducedScalar.toNat = b.reducedScalar.value
  keyPrefix : a.keyPrefix = b.keyPrefix
  publicKey : a.publicKey = b.publicKey

theorem LimbSignature.rel_fromBytes (bytes : List UInt8) :
    Outcome RelSignature (LimbSignature.fromBytes bytes) (Signature.fromBytes bytes) := by
  -- The bytes are cut alike; only the parsed parts differ in representation.
  refine Outcome.bind (Outcome.refl _) fun encoded encoded' hencoded => ?_
  subst hencoded
  refine Outcome.bind (Outcome.refl _) fun commitmentEncoding commitmentEncoding' hcommitment => ?_
  subst hcommitment
  refine Outcome.bind (Outcome.refl _) fun responseEncoding responseEncoding' hresponse => ?_
  subst hresponse
  refine Outcome.bind (Outcome.mapErr (LimbPoint.rel_decode _) _) fun P p hpoint => ?_
  refine Outcome.bind (CtRel.okOr (LimbScalar.rel_fromCanonicalBytes _) _) fun r s hscalar => ?_
  exact Outcome.ok _ _ ⟨rfl, rfl, hpoint, hscalar⟩

namespace LimbVerifyingKey

theorem rel_fromBytes (bytes : List UInt8) :
    Outcome RelVerifyingKey (fromBytes bytes) (VerifyingKey.fromBytes bytes) := by
  refine Outcome.bind (Outcome.refl _) fun encoded encoded' hencoded => ?_
  subst hencoded
  refine Outcome.bind (Outcome.mapErr (LimbPoint.rel_decodeStrictSubgroup _) _)
    fun P p hpoint => ?_
  exact Outcome.ok _ _ ⟨rfl, hpoint⟩

/-- The verdict of the model. -/
theorem verify_eq (H : Xof) {a : LimbVerifyingKey} {b : VerifyingKey} (hkey : RelVerifyingKey a b)
    (message : List UInt8) {s : LimbSignature} {t : Signature} (hsig : RelSignature s t) :
    a.verify H message s = b.verify H message t := by
  have hequation := LimbVerify.verify_eq H LimbPoint.stored_basepoint hkey.point hsig.commitment
    b.encoded t.commitmentEncoding hsig.response message
  rw [VerifyingKey.verify_eq]
  unfold verify
  rw [hkey.encoded, hsig.commitmentEncoding]
  exact hequation

end LimbVerifyingKey

namespace LimbScheme

variable (H : Xof)

theorem rel_derive (seed : Bytes seedBytes) :
    Outcome RelExpanded (derive H seed) (ExpandedSecret.derive H seed) := by
  have hpoint := LimbPoint.stored_scalarMulPruned LimbPoint.stored_basepoint
    (ExpandedSecret.prune ((expandSeed H seed).slice 0 fieldBytes lowerHalf_le))
  unfold derive ExpandedSecret.derive
  refine Outcome.guard ?_ _ ?_
  · exact congrArg _ (LimbPoint.isPrimeSubgroupNonidentity_eq hpoint)
  · rw [LimbPoint.encodePublicArtifact_eq hpoint]
    cases (EdwardsPoint.basepoint.scalarMulPruned (ExpandedSecret.prune
        ((expandSeed H seed).slice 0 fieldBytes lowerHalf_le))).encodePublicArtifact with
    | error e => exact Outcome.error _
    | ok publicKey => exact Outcome.ok _ _ ⟨LimbScalar.toNat_reducePrunedLe _, rfl, rfl⟩

theorem assemble_eq (commitment : Bytes fieldBytes) (a : Uint 5) (s : Scalar)
    (h : a.toNat = s.value) : assemble commitment a = Ed301.assemble commitment s := by
  unfold assemble Ed301.assemble
  simp only [LimbScalar.writeCanonicalBytes_eq a s h]

theorem rel_selfCheck {a : LimbExpandedSecret} {b : ExpandedSecret} (h : RelExpanded a b)
    (message : List UInt8) (encoded : Bytes signatureBytes) :
    Outcome RelSignature (selfCheck H a message encoded) (Ed301.selfCheck H b message encoded) := by
  refine Outcome.bind (Outcome.mapErr (LimbSignature.rel_fromBytes _) _) fun s t hsig => ?_
  refine Outcome.guard ?_ _ ?_
  · exact congrArg _ (LimbPoint.isPrimeSubgroup_eq hsig.commitment)
  · rw [h.publicKey]
    refine Outcome.bind (Outcome.mapErr (LimbVerifyingKey.rel_fromBytes _) _) fun k l hkey => ?_
    refine Outcome.guard ?_ _ (Outcome.ok _ _ hsig)
    exact congrArg _ (LimbVerifyingKey.verify_eq H hkey message hsig)

/-- A hash output as a scalar on limbs. -/
theorem toNat_hashToScalar (digest : Bytes hashBytes) :
    (LimbScalar.reduceHashLe digest).toNat = (hashToScalar digest).value := by
  unfold hashToScalar
  exact LimbScalar.toNat_reduceHashLe digest

theorem hashToScalar_canonical (digest : Bytes hashBytes) : (hashToScalar digest).Canonical := by
  unfold hashToScalar
  exact Scalar.reduceHashLe_canonical digest

/-- A response made of scalars that agree passes the self check on both sides or
    on neither. -/
theorem rel_respond {a : LimbExpandedSecret} {b : ExpandedSecret} (h : RelExpanded a b)
    (message : List UInt8) (commitment : Bytes fieldBytes) {k c : Uint 5} {n d : Scalar}
    (hk : k.toNat = n.value) (hn : n.Canonical) (hc : c.toNat = d.value) :
    Outcome RelSignature
      (selfCheck H a message (assemble commitment
        (LimbScalar.add k (LimbScalar.mul c a.reducedScalar))))
      (Ed301.selfCheck H b message (Ed301.assemble commitment
        (n.add (d.mul b.reducedScalar)))) := by
  have hterm := LimbScalar.toNat_mul _ _ _ _ hc h.reducedScalar
  have hresponse := LimbScalar.toNat_add _ _ _ _ hn (Scalar.mul_canonical _ _) hk hterm
  rw [assemble_eq _ _ _ hresponse]
  exact rel_selfCheck H h message _

theorem rel_signExpanded {a : LimbExpandedSecret} {b : ExpandedSecret} (h : RelExpanded a b)
    (message : List UInt8) :
    Outcome RelSignature (signExpanded H a message) (Ed301.signExpanded H b message) := by
  have hn := hashToScalar_canonical (nonceHash H b.keyPrefix message)
  have hk := toNat_hashToScalar (nonceHash H b.keyPrefix message)
  unfold signExpanded Ed301.signExpanded
  rw [h.keyPrefix, h.publicKey]
  -- The nonce is kept closed, for it is only known through its value.
  generalize hashToScalar (nonceHash H b.keyPrefix message) = n at hn hk ⊢
  generalize LimbScalar.reduceHashLe (nonceHash H b.keyPrefix message) = k at hk ⊢
  have hpoint := LimbPoint.stored_scalarMul LimbPoint.stored_basepoint hk
  refine Outcome.guard ?_ _ ?_
  · exact congrArg _ (LimbPoint.isPrimeSubgroup_eq hpoint)
  · rw [LimbPoint.encodePublicArtifact_eq hpoint]
    cases (EdwardsPoint.basepoint.scalarMul n).encodePublicArtifact with
    | error e => exact Outcome.error _
    | ok commitment => exact rel_respond H h message _ hk hn (toNat_hashToScalar _)

/-- Signing from a seed returns the same bytes or the same error. -/
theorem sign_eq (seed message : List UInt8) : sign H seed message = Ed301.sign H seed message := by
  -- The model derives and signs in one function of the key, the interface in two.
  refine Outcome.eq (Outcome.bind (Outcome.refl _) fun key key' hkey => ?_)
  subst hkey
  unfold SigningKey.sign
  rw [bind_assoc]
  refine Outcome.bind (rel_derive H key.seed) fun a b hexpanded => ?_
  refine Outcome.bind (rel_signExpanded H hexpanded message) fun s t hsig => ?_
  exact Outcome.ok _ _ hsig.encoded

/-- Key derivation from a seed. -/
theorem publicKey_eq (seed : List UInt8) :
    publicKey H seed = (do
      let key ← SigningKey.fromSeed seed
      let verifyingKey ← key.verifyingKey H
      .ok verifyingKey.encoded) := by
  refine Outcome.eq (Outcome.bind (Outcome.refl _) fun key key' hkey => ?_)
  subst hkey
  unfold SigningKey.verifyingKey
  rw [bind_assoc]
  refine Outcome.bind (rel_derive H key.seed) fun a b hexpanded => ?_
  rw [hexpanded.publicKey]
  refine Outcome.bind (Outcome.mapErr (LimbVerifyingKey.rel_fromBytes _) _) fun k l hkey => ?_
  exact Outcome.ok _ _ hkey.encoded

theorem validatePublicKey_eq (bytes : List UInt8) :
    validatePublicKey bytes = Ed301.validatePublicKey bytes := by
  unfold validatePublicKey Ed301.validatePublicKey
  rw [Outcome.isOk_eq (LimbVerifyingKey.rel_fromBytes bytes)]
  cases VerifyingKey.fromBytes bytes with
  | error e => rfl
  | ok key => rfl

/-- The verdict once both inputs are parsed. -/
theorem verdict_ok {ε α γ : Type} (a : α) (c : γ) (f : α → γ → Bool) :
    (do let a ← Except.ok a; let c ← Except.ok c; Except.ok (f a c) : Except ε Bool).toOption.getD
      false = f a c :=
  rfl

/-- Verdicts through parsers that fail alike. -/
theorem verdict_eq {ε α β γ δ : Type} {R : α → β → Prop} {S : γ → δ → Prop} {k : Except ε α}
    {l : Except ε β} {s : Except ε γ} {t : Except ε δ} (hkey : Outcome R k l)
    (hsig : Outcome S s t) {f : α → γ → Bool} {g : β → δ → Bool}
    (hfg : ∀ a b c d, R a b → S c d → f a c = g b d) :
    (do let a ← k; let c ← s; Except.ok (f a c) : Except ε Bool).toOption.getD false
      = (do let b ← l; let d ← t; Except.ok (g b d) : Except ε Bool).toOption.getD false := by
  cases hkey with
  | error e => rfl
  | ok a b hkey =>
      cases hsig with
      | error e => rfl
      | ok c d hsig => rw [verdict_ok, verdict_ok, hfg a b c d hkey hsig]

/-- Verification from bytes. -/
theorem verify_eq (bytes message signature : List UInt8) :
    verify H bytes message signature = Ed301.verify H bytes message signature := by
  have hverdict := verdict_eq (LimbVerifyingKey.rel_fromBytes bytes)
    (LimbSignature.rel_fromBytes signature)
    fun k l s t hkey hsig => LimbVerifyingKey.verify_eq H hkey message hsig
  refine Eq.trans hverdict ?_
  unfold Ed301.verify
  cases VerifyingKey.fromBytes bytes with
  | error e => rfl
  | ok key =>
      cases Signature.fromBytes signature with
      | error e => rfl
      | ok signature => exact verdict_ok _ _ _

end LimbScheme

end Ed301
