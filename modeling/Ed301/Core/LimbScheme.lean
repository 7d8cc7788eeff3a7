import Ed301.Core.Extended
import Ed301.Core.Safegcd

/-!
# The Scheme on Limbs

Field elements, scalars, points, keys and signatures as they are stored, from
the bytes that come in to the bytes that go out.

Everything here follows the code of the scheme once more, over integers that
are lists of limbs. Residues are kept in Montgomery form, decoded from eight
bytes a limb and retrieved before they are encoded. Inversion takes division
steps and a square root is a power by windows. The hash function is the one
thing that stays a parameter.

## Main definitions

* `Uint.fromLeSlice`, `Uint.toLeBytes`: Limbs and bytes.
* `LimbField`: Field elements.
* `LimbPoint.encode`, `LimbPoint.decode`: Points.
* `LimbSignature.fromBytes`, `LimbVerifyingKey.fromBytes`: The parsers.
* `LimbExpandedSecret`: What is derived from a seed.
* `LimbScheme.sign`, `LimbScheme.verify`, `LimbScheme.validatePublicKey`: The
  interface.
-/

namespace Ed301

open Radix Program

variable {n : ℕ}

/-- `Word::from_le_bytes`. -/
def Limb.fromLeBytes (bytes : List UInt8) : Limb := BitVec.ofNat 64 (leInteger bytes)

/-- `Word::to_le_bytes`. -/
def Limb.toLeBytes (limb : Limb) : List UInt8 := leBytes 8 limb.toNat

namespace Uint

theorem length_limbsOfBytes (bytes : List UInt8) :
    ((List.range n).map fun i => Limb.fromLeBytes ((bytes.drop (i * 8)).take 8)).length = n :=
  (List.length_map _).trans List.length_range

/-- One limb from each eight bytes. -/
def fromLeSlice (bytes : Bytes (8 * n)) : Uint n where
  limbs := (List.range n).map fun i => Limb.fromLeBytes ((bytes.toList.drop (i * 8)).take 8)
  length_limbs := length_limbsOfBytes bytes.toList

theorem length_flatMap_toLeBytes (limbs : List Limb) :
    (limbs.flatMap Limb.toLeBytes).length = 8 * limbs.length := by
  induction limbs with
  | nil => rfl
  | cons limb limbs ih =>
      rw [List.flatMap_cons, List.length_append, ih, List.length_cons]
      unfold Limb.toLeBytes
      rw [length_leBytes]
      omega

theorem length_bytesOfLimbs (a : Uint n) : (a.limbs.flatMap Limb.toLeBytes).length = 8 * n :=
  (length_flatMap_toLeBytes a.limbs).trans (congrArg (8 * ·) a.length_limbs)

/-- Eight bytes from each limb. -/
def toLeBytes (a : Uint n) : Bytes (8 * n) :=
  Bytes.ofList (a.limbs.flatMap Limb.toLeBytes) a.length_bytesOfLimbs

theorem length_limbsOfWords (words : Vector UInt64 n) :
    (words.toList.map UInt64.toBitVec).length = n :=
  (List.length_map _).trans words.length_toList

def fromWords (words : Vector UInt64 n) : Uint n where
  limbs := words.toList.map UInt64.toBitVec
  length_limbs := length_limbsOfWords words

theorem size_wordsOfLimbs (a : Uint n) : (a.limbs.map UInt64.ofBitVec).toArray.size = n :=
  (List.length_map _).trans a.length_limbs

def toWords (a : Uint n) : Vector UInt64 n :=
  ⟨(a.limbs.map UInt64.ofBitVec).toArray, a.size_wordsOfLimbs⟩

end Uint

/-- 38 bytes as an integer of five limbs. -/
def limbsFromLe38 (bytes : Bytes fieldBytes) : Uint 5 :=
  let widened : Bytes (8 * 5) := bytes ++ Vector.replicate 2 (0 : UInt8)
  Uint.fromLeSlice widened

/-- A field element as it is stored. -/
abbrev LimbField := FixedMontyForm fieldParams

namespace LimbField

/-- The modulus the parser compares with. -/
def modulus : Uint 5 :=
  Uint.ofNat 5 0x00001ffffffffffffffffffffffffffffffffffffffffffffffffff80000000000000000000003b3

def fromCanonicalBytes (bytes : Bytes fieldBytes) : CtOption LimbField :=
  let integer := limbsFromLe38 bytes
  let isCanonical := integer.lt modulus
  { value := FixedMontyForm.new integer
    isSome := isCanonical }

def fromCanonicalWords (words : Vector UInt64 5) : LimbField :=
  FixedMontyForm.new (Uint.fromWords words)

/-- The 38 bytes that are kept of an integer. -/
theorem keptBytes_le : 0 + fieldBytes ≤ 8 * 5 := by decide

def toCanonicalBytes (self : LimbField) : Bytes fieldBytes :=
  let encoded := self.retrieve.toLeBytes
  encoded.slice 0 fieldBytes keptBytes_le

/-- Whether the canonical representative is odd. -/
def isOdd (self : LimbField) : Choice :=
  Choice.fromU8Lsb (self.toCanonicalBytes.get 0 &&& 1)

def isZero (self : LimbField) : Choice :=
  self.ctEq FixedMontyForm.zero

end LimbField

namespace LimbScalar

/-- The modulus the parser compares with. -/
def modulus : Uint 5 :=
  Uint.ofNat 5 0x00000800000000000000000000000000000000000016dcc80892809847fb4a312602e3a1d0be9603

def fromCanonicalBytes (bytes : Bytes scalarBytes) : CtOption (Uint 5) :=
  let integer := limbsFromLe38 bytes
  { value := integer
    isSome := integer.lt modulus }

def writeCanonicalBytes (self : Uint 5) (output : Bytes scalarBytes) : Bytes scalarBytes :=
  Scalar.writeWordsFrom self.toWords output 0 0

end LimbScalar

/-- A point as it is stored. -/
abbrev LimbPoint := Extended LimbField

namespace LimbPoint

/-- The operations on limbs. -/
def ops : Ops (Uint 5) BoundedExponent LimbField := FixedMontyForm.ops fieldParams

def constants : CurveConstants LimbField := CurveConstants.ofWords ops

theorem size_words (a b c d e : UInt64) : #[a, b, c, d, e].size = 5 := rfl

/-- Five words, lowest first. -/
def words (a b c d e : UInt64) : Vector UInt64 5 :=
  ⟨#[a, b, c, d, e], size_words a b c d e⟩

/-- The ED301-v1 base point. -/
def basepoint : LimbPoint :=
  { x := LimbField.fromCanonicalWords
      (words 0x76e2adfb00c03d1f 0x4942cad7bf841f3f 0x5cdbb15e84b52add 0x3be0acb6161a2783
        0x000000003aee6839)
    y := LimbField.fromCanonicalWords
      (words 0x65800c5a753ff76b 0xd7f76f6dcf3fe83c 0x67ac249292b147f3 0xc8f26c9e41732255
        0x00001888d3028aa8)
    z := FixedMontyForm.one
    t := LimbField.fromCanonicalWords
      (words 0xf74365f44b45598d 0x215c9ee6a9b1002e 0xc602cc687276039c 0xb0246816daaa5ae2
        0x000001db90e5effb) }

def fromAffine (x y : LimbField) : LimbPoint :=
  { x := x
    y := y
    z := FixedMontyForm.one
    t := x.mul y }

def scalarMul (self : LimbPoint) (scalar : Uint 5) : LimbPoint :=
  self.scalarMulWith ops constants scalar.bit

def scalarMulPruned (self : LimbPoint) (scalar : Bytes fieldBytes) : LimbPoint :=
  self.scalarMulWith ops constants (EdwardsPoint.encodedBit scalar)

def isPrimeSubgroupNonidentity (self : LimbPoint) : Choice :=
  !self.isIdentity ops && self.isPrimeSubgroup ops constants

def encodeInner (self : LimbPoint) (declassifyFaultPredicates : Bool) :
    Except EdwardsPointError (Bytes fieldBytes) :=
  -- Declassifying does not change a value, so both kinds of call compute the same.
  let pointIsValid :=
    if declassifyFaultPredicates then declassify (self.isValid ops constants)
    else self.isValid ops constants
  if !pointIsValid then .error ⟨⟩
  else
    let inverse := self.z.invert
    let inverseIsPresent :=
      if declassifyFaultPredicates then declassify inverse.isSome else inverse.isSome
    if !inverseIsPresent then .error ⟨⟩
    else
      let inverse := inverse.toInnerUnchecked
      let affineX := self.x.mul inverse
      let affineY := self.y.mul inverse
      let encoded := LimbField.toCanonicalBytes affineY
      .ok (encoded.update 37 (· ||| (LimbField.isOdd affineX).toU8 <<< 7))

def encode (self : LimbPoint) : Except EdwardsPointError (Bytes fieldBytes) :=
  encodeInner self false

def encodePublicArtifact (self : LimbPoint) : Except EdwardsPointError (Bytes fieldBytes) :=
  encodeInner self true

/-- Decode a canonical compressed point, naming the exit on failure. -/
def decodeExits (encoded : Bytes fieldBytes) : Except DecodeExit LimbPoint := do
  -- Two of the three bits above the second coordinate are reserved.
  if encoded.get 37 &&& 0x60 ≠ 0 then
    .error .reservedBits
  else
    let sign := Choice.fromU8Lsb ((encoded.get 37 >>> 7) &&& 1)
    let yBytes := encoded.update 37 (· &&& 0x1f)
    let y ← okOr (LimbField.fromCanonicalBytes yBytes).intoOptionCopied .noncanonicalY
    let yy := y.square
    let denominator := constants.edwardsA.sub (constants.edwardsD.mul yy)
    let denominatorInverse ← okOr denominator.invert.intoOptionCopied .missingInverse
    let xSquared := (FixedMontyForm.one.sub yy).mul denominatorInverse
    let root ← okOr xSquared.sqrt.intoOptionCopied .nonsquare
    -- A first coordinate of zero has no negative.
    if LimbField.isZero root && sign then
      .error .negativeZero
    else
      let negate := LimbField.isOdd root ^^ sign
      let x := FixedMontyForm.ctSelect root root.neg negate
      let point := fromAffine x y
      if !point.isValid ops constants then .error .invalidPoint
      else .ok point

def decode (encoded : Bytes fieldBytes) : Except EdwardsPointError LimbPoint :=
  mapErr (decodeExits encoded) ⟨⟩

def decodeStrictSubgroup (encoded : Bytes fieldBytes) : Except EdwardsPointError LimbPoint := do
  let point ← decode encoded
  if !isPrimeSubgroupNonidentity point then .error ⟨⟩
  else .ok point

end LimbPoint

/-- A parsed signature. -/
structure LimbSignature where
  encoded : Bytes signatureBytes
  commitmentEncoding : Bytes fieldBytes
  commitment : LimbPoint
  response : Uint 5

/-- Parse the 76-byte signature syntax. -/
def LimbSignature.fromBytes (bytes : List UInt8) : Except SignatureError LimbSignature := do
  let encoded ← okOr (tryInto signatureBytes bytes) .invalidSignature
  let commitmentEncoding ←
    okOr (tryInto fieldBytes (encoded.toList.take fieldBytes)) .invalidSignature
  let responseEncoding ←
    okOr (tryInto fieldBytes (encoded.toList.drop fieldBytes)) .invalidSignature
  let commitment ← mapErr (LimbPoint.decode commitmentEncoding) .invalidSignature
  let response ←
    okOr (LimbScalar.fromCanonicalBytes responseEncoding).intoOptionCopied .invalidSignature
  .ok
    { encoded := encoded
      commitmentEncoding := commitmentEncoding
      commitment := commitment
      response := response }

/-- A validated public key. -/
structure LimbVerifyingKey where
  encoded : Bytes publicKeyBytes
  point : LimbPoint

namespace LimbVerifyingKey

/-- Parse and validate a 38-byte public key. -/
def fromBytes (bytes : List UInt8) : Except SignatureError LimbVerifyingKey := do
  let encoded ← okOr (tryInto publicKeyBytes bytes) .invalidPublicKey
  let point ← mapErr (LimbPoint.decodeStrictSubgroup encoded) .invalidPublicKey
  .ok
    { encoded := encoded
      point := point }

/-- Verify a parsed signature over a message. -/
def verify (H : Xof) (self : LimbVerifyingKey) (message : List UInt8)
    (signature : LimbSignature) : Bool :=
  LimbVerify.verify H LimbPoint.basepoint self.point signature.commitment self.encoded
    signature.commitmentEncoding signature.response message

end LimbVerifyingKey

/-- The secret data derived from a seed. -/
structure LimbExpandedSecret where
  reducedScalar : Uint 5
  keyPrefix : Bytes fieldBytes
  publicKey : Bytes publicKeyBytes

namespace LimbScheme

/-- The lower half of a hash output. -/
theorem lowerHalf_le : 0 + fieldBytes ≤ hashBytes := by decide

/-- The upper half. -/
theorem upperHalf_le : fieldBytes + fieldBytes ≤ hashBytes := by decide

def derive (H : Xof) (seed : Bytes seedBytes) : Except SignatureError LimbExpandedSecret := do
  let expandedHash := expandSeed H seed
  -- The lower half is the scalar, the upper half the prefix of the nonce.
  let prunedScalar := ExpandedSecret.prune (expandedHash.slice 0 fieldBytes lowerHalf_le)
  let keyPrefix : Bytes fieldBytes := expandedHash.slice fieldBytes fieldBytes upperHalf_le
  let reducedScalar := LimbScalar.reducePrunedLe prunedScalar
  let publicPoint := LimbPoint.scalarMulPruned LimbPoint.basepoint prunedScalar
  let publicIsValid := declassify (LimbPoint.isPrimeSubgroupNonidentity publicPoint)
  if !publicIsValid then .error .internalFailure
  else
    let publicKey ← mapErr (LimbPoint.encodePublicArtifact publicPoint) .internalFailure
    .ok
      { reducedScalar := reducedScalar
        keyPrefix := keyPrefix
        publicKey := declassify publicKey }

/-- The lower half of a signature. -/
theorem lowerCopy_le (bytes : Bytes fieldBytes) : 0 + bytes.toList.length ≤ signatureBytes := by
  rw [Vector.length_toList]
  decide

/-- The upper half. -/
theorem upperCopy_le (bytes : Bytes fieldBytes) :
    fieldBytes + bytes.toList.length ≤ signatureBytes := by
  rw [Vector.length_toList]
  decide

/-- Copy the two halves of a signature into an empty buffer. -/
def assemble (commitment : Bytes fieldBytes) (response : Uint 5) : Bytes signatureBytes :=
  let encoded : Bytes signatureBytes := Vector.replicate signatureBytes 0
  let encoded := encoded.copyFromSlice 0 commitment.toList (lowerCopy_le commitment)
  let responseBytes : Bytes fieldBytes :=
    LimbScalar.writeCanonicalBytes response (Vector.replicate fieldBytes (0 : UInt8))
  encoded.copyFromSlice fieldBytes responseBytes.toList (upperCopy_le responseBytes)

/-- Parse the assembled bytes back, check the commitment again and verify the
    signature. -/
def selfCheck (H : Xof) (expanded : LimbExpandedSecret) (message : List UInt8)
    (encoded : Bytes signatureBytes) : Except SignatureError LimbSignature := do
  let signature ← mapErr (LimbSignature.fromBytes encoded.toList) .internalFailure
  if !declassify (signature.commitment.isPrimeSubgroup LimbPoint.ops LimbPoint.constants) then
    .error .internalFailure
  else
    let verifyingKey ←
      mapErr (LimbVerifyingKey.fromBytes expanded.publicKey.toList) .internalFailure
    if !verifyingKey.verify H message signature then .error .internalFailure
    else .ok signature

/-- Sign with an expanded secret. -/
def signExpanded (H : Xof) (expanded : LimbExpandedSecret) (message : List UInt8) :
    Except SignatureError LimbSignature := do
  let nonce := LimbScalar.reduceHashLe (nonceHash H expanded.keyPrefix message)
  -- A nonce of zero is not refused: the identity lies in the subgroup.
  let commitmentPoint := LimbPoint.scalarMul LimbPoint.basepoint nonce
  if !declassify (commitmentPoint.isPrimeSubgroup LimbPoint.ops LimbPoint.constants) then
    .error .internalFailure
  else
    let commitment ← mapErr (LimbPoint.encodePublicArtifact commitmentPoint) .internalFailure
    let commitment := declassify commitment
    let challenge :=
      LimbScalar.reduceHashLe (challengeHash H commitment expanded.publicKey message)
    let secretResponseTerm := LimbScalar.mul challenge expanded.reducedScalar
    let response := LimbScalar.add nonce secretResponseTerm
    selfCheck H expanded message (declassify (assemble commitment response))

/-- Sign a message from an exact seed. -/
def sign (H : Xof) (seed message : List UInt8) : Except SignatureError (Bytes signatureBytes) := do
  let key ← SigningKey.fromSeed seed
  let expanded ← derive H key.seed
  let signature ← signExpanded H expanded message
  .ok signature.encoded

/-- Derive the public key of a seed, as bytes. -/
def publicKey (H : Xof) (seed : List UInt8) : Except SignatureError (Bytes publicKeyBytes) := do
  let key ← SigningKey.fromSeed seed
  let expanded ← derive H key.seed
  let verifyingKey ←
    mapErr (LimbVerifyingKey.fromBytes expanded.publicKey.toList) .internalFailure
  .ok verifyingKey.encoded

def validatePublicKey (publicKey : List UInt8) : Bool :=
  (LimbVerifyingKey.fromBytes publicKey).isOk

/-- Parse and verify a signature. Every error returns `false`. -/
def verify (H : Xof) (publicKey message signature : List UInt8) : Bool :=
  -- Both inputs are parsed before anything is verified, the key first.
  let verdict : Except SignatureError Bool := do
    let publicKey ← LimbVerifyingKey.fromBytes publicKey
    let signature ← LimbSignature.fromBytes signature
    .ok (publicKey.verify H message signature)
  verdict.toOption.getD false

end LimbScheme

end Ed301
