import Ed301.Core.Pow
import Ed301.Core.Signature
import Ed301.Theory.Program

/-!
# Points over Limbs

The field operations at the level of limbs, and the point formulas over any
representation of field elements.

The library picks the representation and the formulas never look inside it.
They are written here once, over the operations of a representation. With
residues they are the formulas of the curve as they stand in the model, and
with limbs they are what the machine executes.

The parameters of the two moduli are what the library precomputes for them.
Division is the one operation behind them that is not carried out on limbs
here.

## Main definitions

* `FixedMontyForm.ops`, `ConstMontyForm.ops`: The two representations.
* `fieldParams`, `scalarParams`: The parameters of the two moduli.
* `Extended`: A point in extended coordinates over a representation.
* `Extended.add`, `Extended.double`, `Extended.scalarMulWith`: The formulas.
* `Extended.verifyEquation`: The equation a signature is checked by.
* `LimbScalar.reduceWords`, `LimbScalar.mul`: Scalars on limbs.
* `LimbVerify.verify`: A signature checked on limbs.
* `FixedMontyForm.sqrt`: The square root.
-/

namespace Ed301

open Ladder Program Radix

variable {n : ℕ}

/-- An exponent of any length, and the bits of it that count. -/
structure BoundedExponent where
  limbs : ℕ
  exponent : Uint limbs
  exponentBits : ℕ

/-- Computing on limbs. -/
def FixedMontyForm.ops (params : MontyParams n) :
    Ops (Uint n) BoundedExponent (FixedMontyForm params) where
  zero := FixedMontyForm.zero
  one := FixedMontyForm.one
  new := FixedMontyForm.new
  add := FixedMontyForm.add
  double := FixedMontyForm.double
  sub := FixedMontyForm.sub
  neg := FixedMontyForm.neg
  mul := FixedMontyForm.mul
  square := FixedMontyForm.square
  half := FixedMontyForm.divBy2
  pow a e := a.powBoundedExp e.exponent e.exponentBits
  ctEq := FixedMontyForm.ctEq
  ctSelect := FixedMontyForm.ctSelect

namespace ConstMontyForm

variable {m : ℕ} [NeZero m]

/-- Half of a residue. -/
def half (a : ConstMontyForm m) : ConstMontyForm m :=
  ofNat m ((if a.residue % 2 = 1 then a.residue + m else a.residue) / 2)

/-- The power by the low bits of a number. -/
def powBits (a : ConstMontyForm m) (exponent exponentBits : ℕ) : ConstMontyForm m :=
  binaryLadder (fun bit acc => if bit then acc.square.mul a else acc.square)
    exponent.testBit exponentBits one

/-- Computing with residues. -/
def ops (n m : ℕ) [NeZero m] : Ops (Uint n) BoundedExponent (ConstMontyForm m) where
  zero := zero
  one := one
  new integer := ofNat m integer.toNat
  add := add
  double a := a.add a
  sub := sub
  neg := neg
  mul := mul
  square := square
  half := half
  pow a e := a.powBits e.exponent.toNat e.exponentBits
  ctEq := ctEq
  ctSelect := ctSelect

end ConstMontyForm

def fieldParams : MontyParams 5 := .ofModulus (Uint.ofNat 5 fieldModulus)

def scalarParams : MontyParams 5 := .ofModulus (Uint.ofNat 5 scalarModulus)

/-- A point in extended coordinates `(X : Y : Z : T)`. -/
structure Extended (α : Type) where
  x : α
  y : α
  z : α
  t : α

/-- The constants of the curve and the number two. -/
structure CurveConstants (α : Type) where
  edwardsA : α
  edwardsD : α
  two : α

/-- The constants, from their integers. -/
def CurveConstants.ofWords {ε α : Type} (F : Ops (Uint n) ε α) : CurveConstants α where
  edwardsA := F.new (Uint.ofNat n 2086388329)
  edwardsD := F.new (Uint.ofNat n 301)
  two := F.new (Uint.ofNat n 2)

namespace Extended

variable {ι ε α : Type} (F : Ops ι ε α) (C : CurveConstants α)

def identity : Extended α :=
  { x := F.zero
    y := F.one
    z := F.one
    t := F.zero }

/-- Add two points with the complete twisted Edwards formula. -/
def add (self rhs : Extended α) : Extended α :=
  let xx := F.mul self.x rhs.x
  let yy := F.mul self.y rhs.y
  let dt := F.mul (F.mul C.edwardsD self.t) rhs.t
  let zz := F.mul self.z rhs.z
  let cross := F.sub (F.sub (F.mul (F.add self.x self.y) (F.add rhs.x rhs.y)) xx) yy
  let difference := F.sub zz dt
  let sum := F.add zz dt
  let twisted := F.sub yy (F.mul C.edwardsA xx)
  { x := F.mul cross difference
    y := F.mul sum twisted
    z := F.mul difference sum
    t := F.mul cross twisted }

/-- Double a point with the dedicated formula. -/
def double (self : Extended α) : Extended α :=
  let xx := F.square self.x
  let yy := F.square self.y
  let twoZz := F.mul C.two (F.square self.z)
  let twistedXx := F.mul C.edwardsA xx
  let cross := F.sub (F.sub (F.square (F.add self.x self.y)) xx) yy
  let sum := F.add twistedXx yy
  let difference := F.sub sum twoZz
  let twistedDifference := F.sub twistedXx yy
  { x := F.mul cross difference
    y := F.mul sum twistedDifference
    z := F.mul difference sum
    t := F.mul cross twistedDifference }

def negate (self : Extended α) : Extended α :=
  { x := F.neg self.x
    y := self.y
    z := self.z
    t := F.neg self.t }

def conditionalSelect (whenFalse whenTrue : Extended α) (choice : Choice) : Extended α :=
  { x := F.ctSelect whenFalse.x whenTrue.x choice
    y := F.ctSelect whenFalse.y whenTrue.y choice
    z := F.ctSelect whenFalse.z whenTrue.z choice
    t := F.ctSelect whenFalse.t whenTrue.t choice }

/-- Double and add always, one round for each of the 301 bit positions. -/
def scalarMulWith (self : Extended α) (scalarBit : ℕ → Choice) : Extended α :=
  binaryLadder
    (fun bit accumulator =>
      let doubled := accumulator.double F C
      let added := doubled.add F C self
      conditionalSelect F doubled added bit)
    scalarBit fieldBits (identity F)

def multiplyByCofactor (self : Extended α) : Extended α :=
  (self.double F C).double F C

def isIdentity (self : Extended α) : Choice :=
  F.ctEq self.x F.zero && F.ctEq self.y self.z

def isPrimeSubgroup (self : Extended α) : Choice :=
  (self.scalarMulWith F C fun bitIndex =>
    EdwardsPoint.encodedBit primeOrderBytes bitIndex).isIdentity F

/-- Compare two points without affine inversion. -/
def ctEq (self rhs : Extended α) : Choice :=
  F.ctEq (F.mul self.x rhs.z) (F.mul rhs.x self.z)
    && F.ctEq (F.mul self.y rhs.z) (F.mul rhs.y self.z)

def isValid (self : Extended α) : Choice :=
  let xx := F.square self.x
  let yy := F.square self.y
  let zz := F.square self.z
  let extendedRelation := F.ctEq (F.mul self.x self.y) (F.mul self.z self.t)
  let left := F.add (F.mul (F.mul C.edwardsA xx) zz) (F.mul yy zz)
  let right := F.add (F.square zz) (F.mul (F.mul C.edwardsD xx) yy)
  !F.ctEq self.z F.zero && extendedRelation && F.ctEq left right

/-- Whether the base point times the response and the commitment with the key
    times the challenge agree, up to the cofactor. -/
def verifyEquation (basepoint key commitment : Extended α)
    (responseBit challengeBit : ℕ → Choice) : Choice :=
  let left := (basepoint.scalarMulWith F C responseBit).multiplyByCofactor F C
  let right :=
    (commitment.add F C (key.scalarMulWith F C challengeBit)).multiplyByCofactor F C
  left.ctEq F right

end Extended

namespace LimbScalar

/-- A scalar as it is stored. -/
abbrev MontgomeryScalar := FixedMontyForm scalarParams

/-- The word radix as a residue. -/
def radix64 : MontgomeryScalar := FixedMontyForm.new (Uint.ofNat 5 (2 ^ 64))

/-- One round of Horner's rule in the word radix. -/
def reduceRound (word : UInt64) (accumulator : MontgomeryScalar) : MontgomeryScalar :=
  let integer := Uint.ofNat 5 word.toNat
  let addend := FixedMontyForm.new integer
  let product := accumulator.mul radix64
  product.add addend

/-- Horner's rule, from the last word down to the first. -/
def reduceWords {k : ℕ} (words : Vector UInt64 k) : Uint 5 :=
  (words.toList.foldr reduceRound FixedMontyForm.zero).retrieve

/-- Multiply modulo `L`. -/
def mul (self rhs : Uint 5) : Uint 5 :=
  let left : MontgomeryScalar := FixedMontyForm.new self
  let right : MontgomeryScalar := FixedMontyForm.new rhs
  (left.mul right).retrieve

/-- Add modulo `L`. -/
def add (self rhs : Uint 5) : Uint 5 :=
  self.addMod rhs scalarParams.modulus

/-- The last of the five words of a secret. -/
theorem secretWord_lt : 4 < 5 := by decide

/-- The last of the ten words of a hash output. -/
theorem hashWord_lt : 9 < 10 := by decide

/-- Reduce a pruned 38-byte secret modulo `L`. -/
def reducePrunedLe (bytes : Bytes scalarBytes) : Uint 5 :=
  let words := Scalar.fillWords bytes.toList 4 (Vector.replicate 5 (0 : UInt64))
  let high := (bytes.toList.drop 32).take 6 ++ List.replicate 2 (0 : UInt8)
  reduceWords (words.set 4 (leWord high) secretWord_lt)

/-- Reduce a 76-byte hash output modulo `L`. -/
def reduceHashLe (bytes : Bytes hashBytes) : Uint 5 :=
  let words := Scalar.fillWords bytes.toList 9 (Vector.replicate 10 (0 : UInt64))
  let high := (bytes.toList.drop 72).take 4 ++ List.replicate 4 (0 : UInt8)
  reduceWords (words.set 9 (leWord high) hashWord_lt)

end LimbScalar

/-- Verify a parsed signature over a message, on limbs. -/
def LimbVerify.verify (H : Xof) (basepoint key commitment : Extended (FixedMontyForm fieldParams))
    (publicKey commitmentEncoding : Bytes fieldBytes) (response : Uint 5)
    (message : List UInt8) : Bool :=
  let digest := challengeHash H commitmentEncoding publicKey message
  let challenge := LimbScalar.reduceHashLe digest
  let F := FixedMontyForm.ops fieldParams
  Extended.verifyEquation F (CurveConstants.ofWords F) basepoint key commitment response.bit
    challenge.bit

/-- A square root when one exists, on limbs. -/
def FixedMontyForm.sqrt (a : FixedMontyForm fieldParams) : CtOption (FixedMontyForm fieldParams) :=
  let candidate := a.powBoundedExp (Uint.ofNat 5 sqrtExponent.toNat) sqrtExponentBits
  { value := candidate
    isSome := candidate.square.ctEq a }

end Ed301
