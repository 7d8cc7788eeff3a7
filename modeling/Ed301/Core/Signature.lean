import Ed301.Core.Edwards

/-!
# Signatures

Context-free, one-shot signatures: key parsing, the transcript hashes, key
expansion, signing and verification.

The extendable-output function enters as a parameter `H`, from byte strings to
the 76 bytes read from it. Its streaming interface only concatenates the
parts it is fed, so a transcript is the hash of a list of parts.

Secrets are held in owners that clear themselves when dropped; that has no
effect on the values and is not part of the model.

## Main definitions

* `SignatureError`: The failures of the interface.
* `challengeHash`, `nonceHash`, `expandSeed`: The transcripts.
* `VerifyingKey`: A validated public key.
* `Signature`: A parsed signature.
* `ExpandedSecret`: The secret data derived from a seed.
* `signExpanded`, `selfCheck`: Signing and the checks on its result.
* `sign`, `verify`, `validatePublicKey`: The byte-level interface.
-/

namespace Ed301

/-- A key, parse or signing failure. -/
inductive SignatureError
  | invalidSeedLength
  | invalidPublicKey
  | invalidSignature
  | internalFailure
deriving DecidableEq

/-- The first 76 bytes of the extendable output on a byte string. -/
abbrev Xof := List UInt8 → Bytes hashBytes

/-- The hash state: the bytes absorbed so far. -/
structure Shake256 where
  absorbed : List UInt8

namespace Shake256

def default : Shake256 :=
  { absorbed := [] }

def update (state : Shake256) (part : List UInt8) : Shake256 :=
  { absorbed := state.absorbed ++ part }

/-- Finalise and read 76 bytes. -/
def finalizeXofRead (H : Xof) (state : Shake256) : Bytes hashBytes :=
  H state.absorbed

end Shake256

section Transcripts

variable (H : Xof)

def hashParts (parts : List (List UInt8)) : Bytes hashBytes :=
  (parts.foldl Shake256.update Shake256.default).finalizeXofRead H

def expandSeed (seed : Bytes seedBytes) : Bytes hashBytes :=
  hashParts H [seed.toList]

def nonceHash (keyPrefix : Bytes fieldBytes) (message : List UInt8) : Bytes hashBytes :=
  hashParts H [keyPrefix.toList, message]

def challengeHash (commitment publicKey : Bytes fieldBytes) (message : List UInt8) :
    Bytes hashBytes :=
  hashParts H [commitment.toList, publicKey.toList, message]

def hashToScalar (hash : Bytes hashBytes) : Scalar :=
  Scalar.reduceHashLe hash

end Transcripts

/-- A parsed canonical 76-byte signature. -/
structure Signature where
  encoded : Bytes signatureBytes
  commitmentEncoding : Bytes fieldBytes
  commitment : EdwardsPoint
  response : Scalar
deriving DecidableEq

namespace Signature

/-- Parse the 76-byte signature syntax. The commitment may be any curve
    point, the response must be canonical. -/
def fromBytes (bytes : List UInt8) : Except SignatureError Signature := do
  let encoded ← okOr (tryInto signatureBytes bytes) .invalidSignature
  let commitmentEncoding ←
    okOr (tryInto fieldBytes (encoded.toList.take fieldBytes)) .invalidSignature
  let responseEncoding ←
    okOr (tryInto fieldBytes (encoded.toList.drop fieldBytes)) .invalidSignature
  let commitment ← mapErr (EdwardsPoint.decode commitmentEncoding) .invalidSignature
  let response ←
    okOr (Scalar.fromCanonicalBytes responseEncoding).intoOptionCopied .invalidSignature
  .ok
    { encoded := encoded
      commitmentEncoding := commitmentEncoding
      commitment := commitment
      response := response }

def toBytes (self : Signature) : Bytes signatureBytes :=
  self.encoded

end Signature

/-- A fully validated public key. -/
structure VerifyingKey where
  encoded : Bytes publicKeyBytes
  point : EdwardsPoint
deriving DecidableEq

namespace VerifyingKey

/-- Parse and validate a 38-byte public key. -/
def fromBytes (bytes : List UInt8) : Except SignatureError VerifyingKey := do
  let encoded ← okOr (tryInto publicKeyBytes bytes) .invalidPublicKey
  let point ← mapErr (EdwardsPoint.decodeStrictSubgroup encoded) .invalidPublicKey
  .ok
    { encoded := encoded
      point := point }

def toBytes (self : VerifyingKey) : Bytes publicKeyBytes :=
  self.encoded

/-- Verify a parsed signature over a message. -/
def verify (H : Xof) (self : VerifyingKey) (message : List UInt8) (signature : Signature) :
    Bool :=
  let digest := challengeHash H signature.commitmentEncoding self.encoded message
  let challenge := hashToScalar digest
  let left := (EdwardsPoint.basepoint.scalarMul signature.response).multiplyByCofactor
  let right := (signature.commitment.add (self.point.scalarMul challenge)).multiplyByCofactor
  left.ctEq right

end VerifyingKey

/-- The secret data derived from a seed. -/
structure ExpandedSecret where
  reducedScalar : Scalar
  keyPrefix : Bytes fieldBytes
  publicKey : Bytes publicKeyBytes

namespace ExpandedSecret

/-- Clear the two low bits and bits 301 to 303, set bit 300. -/
def prune (lower : Bytes fieldBytes) : Bytes fieldBytes :=
  let prunedScalar := lower.update 0 (· &&& 0xfc)
  prunedScalar.update 37 fun top => (top &&& 0x0f) ||| 0x10

def derive (H : Xof) (seed : Bytes seedBytes) : Except SignatureError ExpandedSecret :=
  let expandedHash := expandSeed H seed
  let prunedScalar := prune (expandedHash.slice 0 fieldBytes (by decide))
  let keyPrefix : Bytes fieldBytes := expandedHash.slice fieldBytes fieldBytes (by decide)
  let reducedScalar := Scalar.reducePrunedLe prunedScalar
  -- The public key comes from the unreduced bytes, the response from the
  -- reduced scalar.
  let publicPoint := EdwardsPoint.basepoint.scalarMulPruned prunedScalar
  let publicIsValid := declassify publicPoint.isPrimeSubgroupNonidentity
  if !publicIsValid then .error .internalFailure
  else
    match publicPoint.encodePublicArtifact with
    | .error _ => .error .internalFailure
    | .ok publicKey =>
      .ok
        { reducedScalar := reducedScalar
          keyPrefix := keyPrefix
          publicKey := declassify publicKey }

end ExpandedSecret

/-- Copy the two halves of a signature into an empty buffer. -/
def assemble (commitment : Bytes fieldBytes) (response : Scalar) : Bytes signatureBytes :=
  let encoded : Bytes signatureBytes := Vector.replicate signatureBytes 0
  let encoded := encoded.copyFromSlice 0 commitment.toList
    (by rw [Vector.length_toList]; decide)
  let responseBytes := response.writeCanonicalBytes (Vector.replicate fieldBytes (0 : UInt8))
  encoded.copyFromSlice fieldBytes responseBytes.toList
    (by rw [Vector.length_toList]; decide)

/-- Parse the assembled bytes back, check the commitment again and verify the
    signature, before it is released. -/
def selfCheck (H : Xof) (expanded : ExpandedSecret) (message : List UInt8)
    (encoded : Bytes signatureBytes) : Except SignatureError Signature := do
  let signature ← mapErr (Signature.fromBytes encoded.toList) .internalFailure
  if !declassify signature.commitment.isPrimeSubgroup then .error .internalFailure
  else
    let verifyingKey ← mapErr (VerifyingKey.fromBytes expanded.publicKey.toList) .internalFailure
    if !verifyingKey.verify H message signature then .error .internalFailure
    else .ok signature

/-- Sign with an expanded secret. -/
def signExpanded (H : Xof) (expanded : ExpandedSecret) (message : List UInt8) :
    Except SignatureError Signature :=
  -- A nonce of zero is not refused: the identity lies in the subgroup.
  let nonce := hashToScalar (nonceHash H expanded.keyPrefix message)
  let commitmentPoint := EdwardsPoint.basepoint.scalarMul nonce
  if !declassify commitmentPoint.isPrimeSubgroup then .error .internalFailure
  else
    match commitmentPoint.encodePublicArtifact with
    | .error _ => .error .internalFailure
    | .ok commitment =>
      let commitment := declassify commitment
      let challenge := hashToScalar (challengeHash H commitment expanded.publicKey message)
      let secretResponseTerm := challenge.mul expanded.reducedScalar
      let response := nonce.add secretResponseTerm
      selfCheck H expanded message (declassify (assemble commitment response))

/-- An owning 38-byte signing seed. -/
structure SigningKey where
  seed : Bytes seedBytes

namespace SigningKey

/-- Import an exact 38-byte seed. -/
def fromSeed (seed : List UInt8) : Except SignatureError SigningKey := do
  let seed ← okOr (tryInto seedBytes seed) .invalidSeedLength
  .ok { seed := seed }

/-- Derive the public verification key. -/
def verifyingKey (H : Xof) (self : SigningKey) : Except SignatureError VerifyingKey := do
  let expanded ← ExpandedSecret.derive H self.seed
  mapErr (VerifyingKey.fromBytes expanded.publicKey.toList) .internalFailure

/-- Sign one opaque message. -/
def sign (H : Xof) (self : SigningKey) (message : List UInt8) :
    Except SignatureError Signature := do
  let expanded ← ExpandedSecret.derive H self.seed
  signExpanded H expanded message

end SigningKey

/-- Sign a message from an exact seed. -/
def sign (H : Xof) (seed message : List UInt8) : Except SignatureError (Bytes signatureBytes) := do
  let key ← SigningKey.fromSeed seed
  let signature ← key.sign H message
  .ok signature.toBytes

/-- Apply the full public-key validation rule. -/
def validatePublicKey (publicKey : List UInt8) : Bool :=
  match VerifyingKey.fromBytes publicKey with
  | .ok _ => true
  | .error _ => false

/-- Parse and verify a signature. -/
def verify (H : Xof) (publicKey message signature : List UInt8) : Bool :=
  match VerifyingKey.fromBytes publicKey with
  | .error _ => false
  | .ok publicKey =>
    match Signature.fromBytes signature with
    | .error _ => false
    | .ok signature => publicKey.verify H message signature

end Ed301
