import Ed301.Core.Monty
import Ed301.Core.Parameters

/-!
# The Prime Field

Field elements modulo `p = 2^301 - 2^99 + 947`, a wrapper around the
constant-modulus form. The byte codec is canonical in both directions: 38
bytes are accepted only below the modulus, and the serialiser writes the
canonical representative.

A square root is the power by `(p + 1) / 4`, computed whether or not one
exists and released only if squaring it gives the argument back.

## Main definitions

* `fieldModulus`: The modulus of the field.
* `FieldElement`: A field element.
* `FieldElement.fromCanonicalBytes`: The strict parser.
* `FieldElement.toCanonicalBytes`: The serialiser.
* `FieldElement.sqrt`: The verified square root.
* `FieldElement.isOdd`: The parity of the canonical representative.
-/

namespace Ed301

/-- The ED301-v1 prime field modulus. -/
def fieldModulus : ℕ :=
  0x00001ffffffffffffffffffffffffffffffffffffffffffffffffff80000000000000000000003b3

instance : NeZero fieldModulus := ⟨by decide⟩

instance : NeZero fieldBytes := ⟨by decide⟩

/-- An element of the field in Montgomery form. -/
abbrev MontgomeryFieldElement := ConstMontyForm fieldModulus

/-- The bit length bounding the square-root exponent. -/
def sqrtExponentBits : ℕ := 301

/-- The exponent `(p + 1) / 4`. -/
def sqrtExponent : U320 :=
  0x000007fffffffffffffffffffffffffffffffffffffffffffffffffe0000000000000000000000ed#320

/-- A field element in Montgomery form. -/
@[ext]
structure FieldElement where
  inner : MontgomeryFieldElement
deriving DecidableEq

namespace FieldElement

/-- The modulus the parser compares with. -/
def modulus : U320 :=
  0x00001ffffffffffffffffffffffffffffffffffffffffffffffffff80000000000000000000003b3#320

def zero : FieldElement := ⟨ConstMontyForm.zero⟩

def one : FieldElement := ⟨ConstMontyForm.one⟩

/-- Decode 38 canonical little-endian bytes. The value is absent when the
    integer is not below the modulus. -/
def fromCanonicalBytes (bytes : Bytes fieldBytes) : CtOption FieldElement :=
  let widened : Bytes 40 := bytes ++ Vector.replicate 2 (0 : UInt8)
  let integer := U320.fromLeSlice widened
  let isCanonical := integer.ctLt modulus
  { value := ⟨ConstMontyForm.new integer⟩
    isSome := isCanonical }

def fromU64 (value : UInt64) : FieldElement :=
  ⟨ConstMontyForm.new (U320.fromU64 value)⟩

def fromCanonicalUint (value : U320) : FieldElement :=
  ⟨ConstMontyForm.new value⟩

/-- Construct from five little-endian words known to be canonical. -/
def fromCanonicalWords (words : Vector UInt64 5) : FieldElement :=
  fromCanonicalUint (U320.fromWords words)

/-- Encode as 38 canonical little-endian bytes. -/
def toCanonicalBytes (self : FieldElement) : Bytes fieldBytes :=
  let encoded := self.inner.retrieve.toLeBytes
  encoded.slice 0 fieldBytes (by decide)

def add (self rhs : FieldElement) : FieldElement := ⟨self.inner.add rhs.inner⟩

def sub (self rhs : FieldElement) : FieldElement := ⟨self.inner.sub rhs.inner⟩

def neg (self : FieldElement) : FieldElement := ⟨self.inner.neg⟩

def mul (self rhs : FieldElement) : FieldElement := ⟨self.inner.mul rhs.inner⟩

def square (self : FieldElement) : FieldElement := ⟨self.inner.square⟩

/-- The multiplicative inverse, absent for zero. -/
def invert (self : FieldElement) : CtOption FieldElement :=
  self.inner.invert.map FieldElement.mk

def ctEq (self rhs : FieldElement) : Choice :=
  self.inner.ctEq rhs.inner

def isZero (self : FieldElement) : Choice :=
  self.ctEq zero

/-- A square root when one exists. The candidate is always computed and
    verified before it is exposed. -/
def sqrt (self : FieldElement) : CtOption FieldElement :=
  let candidate : FieldElement := ⟨self.inner.powBoundedExp sqrtExponent sqrtExponentBits⟩
  { value := candidate
    isSome := candidate.square.ctEq self }

/-- Whether the canonical representative is odd. -/
def isOdd (self : FieldElement) : Choice :=
  Choice.fromU8Lsb (self.toCanonicalBytes[0] &&& 1)

def conditionalSelect (whenFalse whenTrue : FieldElement) (choice : Choice) : FieldElement :=
  ⟨whenFalse.inner.ctSelect whenTrue.inner choice⟩

end FieldElement

end Ed301
