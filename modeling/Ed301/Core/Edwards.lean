import Ed301.Core.Field
import Ed301.Core.Scalar

/-!
# Edwards Points

The extended-coordinate arithmetic of the ED301-v1 group and its byte codec.
Scalar multiplication is a fixed 301-round double-and-add-always loop over a
bit reader; a canonical scalar and a raw 38-byte string are two readers of
the same loop.

Every failed exit of the decoder returns the same error. `decodeExits` names
the exits, which is what a statement about one of them being unreachable
needs, and `decode` forgets the names.

## Main definitions

* `EdwardsPoint`: A point in extended coordinates.
* `EdwardsPoint.add`, `EdwardsPoint.double`, `EdwardsPoint.negate`: The group
  formulas.
* `EdwardsPoint.scalarMul`, `EdwardsPoint.scalarMulPruned`: The two scalar
  multiplications.
* `EdwardsPoint.isPrimeSubgroup`: The subgroup test.
* `EdwardsPoint.encode`: The 38-byte encoding.
* `DecodeExit`: The failed exits of the decoder.
* `EdwardsPoint.decode`: The general decoder.
* `EdwardsPoint.decodeStrictSubgroup`: The decoder for public keys.
-/

namespace Ed301

open Ladder

def edwardsA : FieldElement := FieldElement.fromU64 2086388329

def edwardsD : FieldElement := FieldElement.fromU64 301

def two : FieldElement := FieldElement.fromU64 2

/-- The little-endian bytes of the subgroup order. -/
def primeOrderBytes : Bytes fieldBytes :=
  #v[0x03, 0x96, 0xbe, 0xd0, 0xa1, 0xe3, 0x02, 0x26, 0x31, 0x4a, 0xfb, 0x47, 0x98, 0x80, 0x92,
    0x08, 0xc8, 0xdc, 0x16, 0x00, 0x00, 0x00, 0x00, 0x00, 0x00, 0x00, 0x00, 0x00, 0x00, 0x00,
    0x00, 0x00, 0x00, 0x00, 0x00, 0x00, 0x00, 0x08]

/-- Public-output boundary. Outside the taint instrumentation it does
    nothing. -/
abbrev declassify {α : Type} (value : α) : α := value

/-- Generic failure of point decoding or encoding. -/
structure EdwardsPointError
deriving DecidableEq

/-- The exits through which the point decoder fails. -/
inductive DecodeExit
  | reservedBits
  | noncanonicalY
  | missingInverse
  | nonsquare
  | negativeZero
  | invalidPoint
deriving DecidableEq

/-- `option.ok_or(error)`. -/
def okOr {α ε : Type} (o : Option α) (e : ε) : Except ε α :=
  match o with
  | some v => .ok v
  | none => .error e

/-- `result.map_err(|_| error)`. -/
def mapErr {α ε ε' : Type} (r : Except ε α) (e : ε') : Except ε' α :=
  match r with
  | .ok v => .ok v
  | .error _ => .error e

section Results

variable {α β ε ε' : Type}

theorem ok_bind (v : α) (f : α → Except ε β) : (Except.ok v >>= f) = f v := rfl

theorem okOr_some_bind (v : α) (e : ε) (f : α → Except ε β) :
    (okOr (some v) e >>= f) = f v := rfl

theorem okOr_none_bind (e : ε) (f : α → Except ε β) :
    (okOr none e >>= f) = .error e := rfl

theorem okOr_eq_ok_iff (o : Option α) (e : ε) (v : α) : okOr o e = .ok v ↔ o = some v := by
  cases o <;> simp only [okOr, Except.ok.injEq, Option.some.injEq, reduceCtorEq]

theorem mapErr_eq_ok_iff (r : Except ε α) (e : ε') (v : α) : mapErr r e = .ok v ↔ r = .ok v := by
  cases r <;> simp only [mapErr, Except.ok.injEq, reduceCtorEq]

/-- A chain succeeds exactly when its first part does and the rest succeeds on
    that value. -/
theorem bind_eq_ok_iff (r : Except ε α) (f : α → Except ε β) (v : β) :
    (r >>= f) = .ok v ↔ ∃ u, r = .ok u ∧ f u = .ok v := by
  cases r with
  | error e =>
      constructor
      · intro h
        exact nomatch h
      · intro hex
        rcases hex with ⟨_, h, _⟩
        exact nomatch h
  | ok u =>
      constructor
      · intro h
        exact ⟨u, rfl, h⟩
      · intro hex
        rcases hex with ⟨_, hu, h⟩
        rw [← Except.ok.inj hu] at h
        exact h

/-- A guarded value is returned exactly when the guard does not fire. -/
theorem ite_error_eq_ok_iff (c : Bool) (e : ε) (u v : α) :
    (if c = true then Except.error e else Except.ok u) = .ok v ↔ c = false ∧ v = u := by
  cases c <;> simp [eq_comm]

end Results

/-- An ED301-v1 point in extended coordinates `(X : Y : Z : T)`. -/
@[ext]
structure EdwardsPoint where
  x : FieldElement
  y : FieldElement
  z : FieldElement
  t : FieldElement
deriving DecidableEq

namespace EdwardsPoint

/-- The Edwards identity `(0, 1)`. -/
def identity : EdwardsPoint :=
  { x := FieldElement.zero
    y := FieldElement.one
    z := FieldElement.one
    t := FieldElement.zero }

/-- The ED301-v1 base point. -/
def basepoint : EdwardsPoint :=
  { x := FieldElement.fromCanonicalWords
      #v[0x76e2adfb00c03d1f, 0x4942cad7bf841f3f, 0x5cdbb15e84b52add, 0x3be0acb6161a2783,
        0x000000003aee6839]
    y := FieldElement.fromCanonicalWords
      #v[0x65800c5a753ff76b, 0xd7f76f6dcf3fe83c, 0x67ac249292b147f3, 0xc8f26c9e41732255,
        0x00001888d3028aa8]
    z := FieldElement.one
    t := FieldElement.fromCanonicalWords
      #v[0xf74365f44b45598d, 0x215c9ee6a9b1002e, 0xc602cc687276039c, 0xb0246816daaa5ae2,
        0x000001db90e5effb] }

def fromAffine (x y : FieldElement) : EdwardsPoint :=
  { x := x
    y := y
    z := FieldElement.one
    t := x.mul y }

/-- Add two points with the complete twisted Edwards formula. -/
def add (self rhs : EdwardsPoint) : EdwardsPoint :=
  let xx := self.x.mul rhs.x
  let yy := self.y.mul rhs.y
  let dt := (edwardsD.mul self.t).mul rhs.t
  let zz := self.z.mul rhs.z
  let cross := (((self.x.add self.y).mul (rhs.x.add rhs.y)).sub xx).sub yy
  let difference := zz.sub dt
  let sum := zz.add dt
  let twisted := yy.sub (edwardsA.mul xx)
  { x := cross.mul difference
    y := sum.mul twisted
    z := difference.mul sum
    t := cross.mul twisted }

/-- Double a point with the dedicated formula. -/
def double (self : EdwardsPoint) : EdwardsPoint :=
  let xx := self.x.square
  let yy := self.y.square
  let twoZz := two.mul self.z.square
  let twistedXx := edwardsA.mul xx
  let cross := (((self.x.add self.y).square).sub xx).sub yy
  let sum := twistedXx.add yy
  let difference := sum.sub twoZz
  let twistedDifference := twistedXx.sub yy
  { x := cross.mul difference
    y := sum.mul twistedDifference
    z := difference.mul sum
    t := cross.mul twistedDifference }

/-- The inverse `(-x, y)`. -/
def negate (self : EdwardsPoint) : EdwardsPoint :=
  { x := self.x.neg
    y := self.y
    z := self.z
    t := self.t.neg }

def conditionalSelect (whenFalse whenTrue : EdwardsPoint) (choice : Choice) : EdwardsPoint :=
  { x := FieldElement.conditionalSelect whenFalse.x whenTrue.x choice
    y := FieldElement.conditionalSelect whenFalse.y whenTrue.y choice
    z := FieldElement.conditionalSelect whenFalse.z whenTrue.z choice
    t := FieldElement.conditionalSelect whenFalse.t whenTrue.t choice }

/-- Double and add always, one round for each of the 301 bit positions. -/
def scalarMulWith (self : EdwardsPoint) (scalarBit : ℕ → Choice) : EdwardsPoint :=
  binaryLadder
    (fun bit accumulator =>
      let doubled := accumulator.double
      let added := doubled.add self
      conditionalSelect doubled added bit)
    scalarBit fieldBits identity

/-- Multiply by a canonical scalar. -/
def scalarMul (self : EdwardsPoint) (scalar : Scalar) : EdwardsPoint :=
  self.scalarMulWith fun bitIndex => scalar.bit bitIndex

/-- One bit of a byte array. -/
def encodedBit (scalar : Bytes fieldBytes) (bitIndex : ℕ) : Choice :=
  Choice.fromU8Lsb (scalar[bitIndex >>> 3]! >>> UInt8.ofNat (bitIndex &&& 7))

def scalarMulEncoded (self : EdwardsPoint) (scalar : Bytes fieldBytes) : EdwardsPoint :=
  self.scalarMulWith fun bitIndex => encodedBit scalar bitIndex

/-- Multiply by a pruned 301-bit secret encoding, not reduced modulo `L`. -/
def scalarMulPruned (self : EdwardsPoint) (scalar : Bytes fieldBytes) : EdwardsPoint :=
  self.scalarMulEncoded scalar

/-- Multiply by the cofactor four with two doublings. -/
def multiplyByCofactor (self : EdwardsPoint) : EdwardsPoint :=
  self.double.double

/-- Whether the point is the Edwards identity. -/
def isIdentity (self : EdwardsPoint) : Choice :=
  self.x.isZero && self.y.ctEq self.z

/-- Whether `[L]P` is the identity. -/
def isPrimeSubgroup (self : EdwardsPoint) : Choice :=
  (self.scalarMulEncoded primeOrderBytes).isIdentity

def isPrimeSubgroupNonidentity (self : EdwardsPoint) : Choice :=
  !self.isIdentity && self.isPrimeSubgroup

/-- Compare two points without affine inversion. -/
def ctEq (self rhs : EdwardsPoint) : Choice :=
  (self.x.mul rhs.z).ctEq (rhs.x.mul self.z) && (self.y.mul rhs.z).ctEq (rhs.y.mul self.z)

def isValid (self : EdwardsPoint) : Choice :=
  let xx := self.x.square
  let yy := self.y.square
  let zz := self.z.square
  let extendedRelation := (self.x.mul self.y).ctEq (self.z.mul self.t)
  let left := ((edwardsA.mul xx).mul zz).add (yy.mul zz)
  let right := zz.square.add ((edwardsD.mul xx).mul yy)
  !self.z.isZero && extendedRelation && left.ctEq right

def encodeInner (self : EdwardsPoint) (declassifyFaultPredicates : Bool) :
    Except EdwardsPointError (Bytes fieldBytes) :=
  -- The flag only marks which predicates become public; the values agree.
  let pointIsValid :=
    if declassifyFaultPredicates then declassify self.isValid else self.isValid
  if !pointIsValid then .error ⟨⟩
  else
    let inverse := self.z.invert
    let inverseIsPresent :=
      if declassifyFaultPredicates then declassify inverse.isSome else inverse.isSome
    if !inverseIsPresent then .error ⟨⟩
    else
      -- Reading the value is safe after the check on its presence.
      let inverse := inverse.toInnerUnchecked
      let affineX := self.x.mul inverse
      let affineY := self.y.mul inverse
      let encoded := affineY.toCanonicalBytes
      .ok (encoded.update 37 (· ||| affineX.isOdd.toU8 <<< 7))

/-- Encode a valid point as its canonical 38 bytes. -/
def encode (self : EdwardsPoint) : Except EdwardsPointError (Bytes fieldBytes) :=
  self.encodeInner false

/-- Encode a secret-derived point whose bytes become public. -/
def encodePublicArtifact (self : EdwardsPoint) : Except EdwardsPointError (Bytes fieldBytes) :=
  self.encodeInner true

/-- Decode a canonical compressed point, naming the exit on failure. -/
def decodeExits (encoded : Bytes fieldBytes) : Except DecodeExit EdwardsPoint := do
  -- Bits 301 and 302 are reserved, bit 303 is the sign.
  if encoded[37] &&& 0x60 ≠ 0 then
    .error .reservedBits
  else
    let sign := Choice.fromU8Lsb ((encoded[37] >>> 7) &&& 1)
    let yBytes := encoded.update 37 (· &&& 0x1f)
    let y ← okOr (FieldElement.fromCanonicalBytes yBytes).intoOptionCopied .noncanonicalY
    -- Recover `x²` from the curve equation.
    let yy := y.square
    let denominator := edwardsA.sub (edwardsD.mul yy)
    let denominatorInverse ← okOr denominator.invert.intoOptionCopied .missingInverse
    let xSquared := (FieldElement.one.sub yy).mul denominatorInverse
    let root ← okOr xSquared.sqrt.intoOptionCopied .nonsquare
    -- Zero has one root only, encoded with the sign bit clear.
    if root.isZero && sign then
      .error .negativeZero
    else
      let negate := root.isOdd ^^ sign
      let x := FieldElement.conditionalSelect root root.neg negate
      let point := fromAffine x y
      if !point.isValid then .error .invalidPoint
      else .ok point

/-- Decode a canonical compressed point. Identity, torsion and mixed-order
    points are accepted. -/
def decode (encoded : Bytes fieldBytes) : Except EdwardsPointError EdwardsPoint :=
  mapErr (decodeExits encoded) ⟨⟩

/-- Decode and require a nonidentity point of prime order. -/
def decodeStrictSubgroup (encoded : Bytes fieldBytes) : Except EdwardsPointError EdwardsPoint := do
  let point ← decode encoded
  if !point.isPrimeSubgroupNonidentity then .error ⟨⟩
  else .ok point

end EdwardsPoint

end Ed301
