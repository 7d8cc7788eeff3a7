import Ed301.Core.Montgomery

/-!
# Inversion by Division Steps

How the library inverts modulo an odd number and takes greatest common
divisors, in constant time.

Up to 62 division steps at a time are taken on one word of each number. What
they did is collected in a matrix of words, and only then are the long numbers
touched, by two linear combinations and a shift. The same combinations are
taken of the coefficients that will become the inverse, where a multiple of the
modulus makes them divisible.

Numbers carry their sign apart. The sum of two products is one limb longer than
the numbers, with that limb beside the integer. Both versions of a step are
modelled: the one in constant time, which selects, and the one in variable
time, which branches and stops early.

## Main definitions

* `Uint.wideningMul`, `Uint.carryingNeg`, `Uint.shrVartime`: What is needed of
  long integers.
* `SignedInt`: A magnitude and a sign.
* `SignedInt.lincombInt`: The sum of two products.
* `SignedInt.lincombIntReduceShift`, `SignedInt.lincombIntReduceShiftMod`: The
  sum shifted, exactly and modulo a number.
* `jumpStep`, `jumpStepVartime`, `jump`: Division steps on words.
* `invertOddModPrecomp`: The inverse times a factor.
* `gcdOdd`: The greatest common divisor.
-/

namespace Ed301

open Limbs

variable {n : ℕ}

/-- The negation of one limb, with the carry of the addition of one. -/
def Limb.negStep (carry : WideWord) (limb : Limb) : Limb × WideWord :=
  let r := (~~~limb).toWide + carry
  (r.toWord, r.high)

/-- The shift of one limb, with the bits of the limb above and of this one. -/
def Limb.shrStep (shift : ℕ) (carry limb : Limb) : Limb × Limb :=
  (limb >>> shift ||| carry, limb <<< (64 - shift))

namespace Uint

/-- The product with a limb, and the limb above it. -/
def wideningMul (a : Uint n) (rhs : Limb) : Uint n × Limb :=
  let r := sweep (fun lo xi => Limb.carryingMulAdd xi rhs lo 0) 0 a.limbs
  (⟨r.1, (length_sweep _ a.limbs 0).trans a.length_limbs⟩, r.2)

/-- The negative, and whether the addition of one carried out. -/
def carryingNeg (a : Uint n) : Uint n × Choice :=
  let r := sweep Limb.negStep 1 a.limbs
  (⟨r.1, (length_sweep _ a.limbs 1).trans a.length_limbs⟩, Limb.lsbToChoice r.2.toWord)

/-- `self >> shift`, for a shift within a limb. -/
def shrVartime (a : Uint n) (shift : ℕ) : Uint n where
  limbs := (sweepDown (Limb.shrStep shift) 0 a.limbs).1
  length_limbs := (length_sweepDown _ 0 a.limbs).trans a.length_limbs

/-- Bits put in at the top. -/
def bitorLast (a : Uint n) (limb : Limb) : Uint n where
  limbs := a.limbs.modify (n - 1) fun last => last ||| limb
  length_limbs := (List.length_modify _ _ _).trans a.length_limbs

end Uint

/-- The negative of a limb above an integer, with the carry out of the
    integer. -/
def conditionalNegateInPlaceWide (lo : Uint n) (hi : Limb) (flag : Choice) : Uint n × Limb :=
  let (neg, carry) := lo.carryingNeg
  -- The addition of one reaches the limb above only if it carries all the way.
  let hiNeg := ~~~hi + Limb.select 0 1 carry
  (Uint.select lo neg flag, Limb.select hi hiNeg flag)

/-- The shift of an integer with a limb above it. -/
def shrInPlaceWide (lo : Uint n) (hi : Limb) (shift : ℕ) : Uint n × Limb :=
  -- What is shifted out of the upper limb goes in at the top.
  let copy := hi <<< (64 - shift)
  let hi := hi >>> shift
  let lo := lo.shrVartime shift
  (lo.bitorLast copy, hi)

/-- The steps that are enough for numbers of so many bits, if the sum fits into
    32 bits. Without overflow checks it wraps, from 1462 limbs on. -/
def iterations (bits : ℕ) : ℕ := (45907 * bits + 30179) % 2 ^ 32 / 19929

/-- The steps taken at a time. -/
def gcdBatchSize : ℕ := 62

/-- The absolute value of a word read with a sign, and the sign. -/
def absSign (word : Limb) : Limb × Choice :=
  let sign := word.msb
  (Limb.select word (-word) sign, sign)

/-- An integer with a separate sign. -/
structure SignedInt (n : ℕ) where
  sign : Choice
  magnitude : Uint n
deriving DecidableEq

namespace SignedInt

def fromUint (uint : Uint n) : SignedInt n := ⟨false, uint⟩

def zero : SignedInt n := fromUint Uint.zero

def fromUintSign (magnitude : Uint n) (sign : Choice) : SignedInt n := ⟨sign, magnitude⟩

def isNonzero (a : SignedInt n) : Choice := a.magnitude.isNonzero

def isZeroVartime (a : SignedInt n) : Bool := a.magnitude.limbs.all fun limb => limb = 0

/-- Zero can have either sign. -/
def isNegative (a : SignedInt n) : Choice := a.sign

/-- The lowest 63 bits, with the sign. -/
def lowest (a : SignedInt n) : Limb :=
  let mag := a.magnitude.limbs.headD 0 &&& (BitVec.allOnes 64 >>> 1)
  Limb.select mag (-mag) a.sign

/-- The sum of two products with words that have a sign, `a c + b d`. The
    magnitude has a limb above it. -/
def lincombInt (a b : SignedInt n) (c d : Limb) : Uint n × Limb × Choice :=
  let (c, cSign) := absSign c
  let (d, dSign) := absSign d
  let (x, xHi) := a.magnitude.wideningMul c
  let xNeg := a.sign ^^ cSign
  let (y, yHi) := b.magnitude.wideningMul d
  let yNeg := b.sign ^^ dSign
  let oddNeg := xNeg ^^ yNeg
  -- Products of one sign are added, by subtracting the negative.
  let (y, yHi) := conditionalNegateInPlaceWide y yHi (!oddNeg)
  let (x, borrow) := x.borrowingSub y 0
  let (xHi, borrow) := Limb.borrowingSub xHi yHi borrow
  -- Under two signs a borrow says that the second product is the larger one.
  let swap := Limb.isNonzero borrow && oddNeg
  let (x, xHi) := conditionalNegateInPlaceWide x xHi swap
  (x, xHi, (xNeg && !swap) || (yNeg && swap))

/-- The sum of two products, shifted. -/
def lincombIntReduceShift (a b : SignedInt n) (c d : Limb) (shift : ℕ) : SignedInt n :=
  let (a, aHi, aSign) := lincombInt a b c d
  let (a, _) := shrInPlaceWide a aHi shift
  fromUintSign a aSign

/-- The sum of two products, made divisible by a multiple of the modulus and
    shifted. -/
def lincombIntReduceShiftMod (a b : SignedInt n) (c d : Limb) (shift : ℕ) (m : Uint n)
    (mi : Limb) : SignedInt n :=
  let (x, xHi, xSign) := lincombInt a b c d
  -- The multiple of the modulus that agrees in the bits to be shifted out.
  let mf := x.limbs.headD 0 * mi &&& (BitVec.allOnes 64 >>> (64 - shift))
  let (xa, xaHi) := m.wideningMul mf
  let (x, borrow) := x.borrowingSub xa 0
  let (xHi, borrow) := Limb.borrowingSub xHi xaHi borrow
  let swap := Limb.isNonzero borrow
  let (x, xHi) := conditionalNegateInPlaceWide x xHi swap
  let xSign := xSign ^^ swap
  let (x, xHi) := shrInPlaceWide x xHi shift
  fromUintSign (x.trySubWithCarry xHi m).1 xSign

/-- The residue of the value, or of its negative. -/
def norm (a : SignedInt n) (fSign : Choice) (m : Uint n) : Uint n :=
  -- The negative of zero would be the modulus itself.
  let swap := (fSign ^^ a.sign) && a.isNonzero
  Uint.select a.magnitude (m.borrowingSub a.magnitude 0).1 swap

end SignedInt

namespace Safegcd

/-- A matrix of words. -/
structure Matrix where
  t00 : Limb
  t01 : Limb
  t10 : Limb
  t11 : Limb
deriving DecidableEq

/-- The numbers of a step, the counter, and the matrix so far. -/
structure JumpState where
  f : Limb
  g : Limb
  delta : Limb
  t : Matrix
deriving DecidableEq

/-- One step in constant time. -/
def jumpStep (s : JumpState) : JumpState :=
  -- Positive: some bit is set, and not the one of the sign.
  let dGtz := Limb.isNonzero (s.delta &&& ~~~(s.delta.sshiftRight 63))
  let gOdd := Limb.lsbToChoice (s.g &&& 1)
  let gAdj := Limb.select 0 s.f gOdd
  let swap := dGtz && gOdd
  { delta := Limb.select (2 + s.delta) (2 - s.delta) swap
    f := Limb.select s.f s.g swap
    g := (Limb.select (s.g + gAdj) (s.g - gAdj) swap).sshiftRight 1
    t :=
      { t00 := Limb.select s.t.t00 s.t.t10 swap <<< 1
        t01 := Limb.select s.t.t01 s.t.t11 swap <<< 1
        t10 := s.t.t10 + Limb.select 0 (Limb.select s.t.t00 (-s.t.t00) dGtz) gOdd
        t11 := s.t.t11 + Limb.select 0 (Limb.select s.t.t01 (-s.t.t01) dGtz) gOdd } }

/-- One step in variable time. -/
def jumpStepVartime (s : JumpState) : JumpState :=
  let t := s.t
  let s :=
    if s.g &&& 1 ≠ 0 then
      if (0 : Limb).slt s.delta then
        { f := s.g
          g := s.g - s.f
          delta := 2 - s.delta
          t := ⟨t.t10, t.t11, t.t10 - t.t00, t.t11 - t.t01⟩ }
      else
        { f := s.f
          g := s.g + s.f
          delta := 2 + s.delta
          t := ⟨t.t00, t.t01, t.t10 + t.t00, t.t11 + t.t01⟩ }
    else { s with delta := 2 + s.delta }
  { s with
    g := s.g.sshiftRight 1
    t := ⟨s.t.t00 <<< 1, s.t.t01 <<< 1, s.t.t10, s.t.t11⟩ }

/-- Several steps on words. -/
def jump (vartime : Bool) (f g delta : Limb) (batch : ℕ) : Limb × Matrix :=
  let s := (if vartime then jumpStepVartime else jumpStep)^[batch] ⟨f, g, delta, ⟨1, 0, 0, 1⟩⟩
  (s.delta, s.t)

/-- What a matrix does to the long numbers. -/
def updateFg (a b : SignedInt n) (t : Matrix) (shift : ℕ) : SignedInt n × SignedInt n :=
  (SignedInt.lincombIntReduceShift a b t.t00 t.t01 shift,
    SignedInt.lincombIntReduceShift a b t.t10 t.t11 shift)

/-- What it does to the coefficients. -/
def updateDe (d e : SignedInt n) (m : Uint n) (mi : Limb) (t : Matrix) (shift : ℕ) :
    SignedInt n × SignedInt n :=
  (SignedInt.lincombIntReduceShiftMod d e t.t00 t.t01 shift m mi,
    SignedInt.lincombIntReduceShiftMod d e t.t10 t.t11 shift m mi)

/-- The loop over the batches. A batch is at least one step, so there are no
    more batches than the first argument says. -/
def batches {σ : Type} (vartime : Bool) (isZero : σ → Bool) (body : ℕ → σ → σ) :
    ℕ → ℕ → σ → σ
  | 0, _, s => s
  | fuel + 1, steps, s =>
    if steps = 0 then s
    -- Only the version in variable time looks at the numbers.
    else if vartime && isZero s then s
    else
      let batch := min steps gcdBatchSize
      batches vartime isZero body fuel (steps - batch) (body batch s)

/-- The numbers of a greatest common divisor. -/
structure GcdState (n : ℕ) where
  delta : Limb
  f : SignedInt n
  g : SignedInt n

/-- With the coefficients. -/
structure InvertState (n : ℕ) extends GcdState n where
  d : SignedInt n
  e : SignedInt n

/-- One batch. -/
def gcdBatch (vartime : Bool) (batch : ℕ) (s : GcdState n) : GcdState n :=
  let (delta, t) := jump vartime s.f.lowest s.g.lowest s.delta batch
  let (f, g) := updateFg s.f s.g t batch
  { delta, f, g }

/-- One batch, with the coefficients. -/
def invertBatch (vartime : Bool) (m : Uint n) (mi : Limb) (batch : ℕ) (s : InvertState n) :
    InvertState n :=
  let (delta, t) := jump vartime s.f.lowest s.g.lowest s.delta batch
  let (f, g) := updateFg s.f s.g t batch
  let (d, e) := updateDe s.d s.e m mi t batch
  { delta, f, g, d, e }

end Safegcd

open Safegcd

/-- The inverse of `a` modulo the odd `m`, times `e`, from the inverse of `m`
    modulo a word. -/
def invertOddModPrecomp (vartime : Bool) (a m : Uint n) (mi : Limb) (e : Uint n) :
    CtOption (Uint n) :=
  let aNonzero := a.isNonzero
  let steps := iterations (64 * n)
  let s : InvertState n :=
    { delta := 1
      f := SignedInt.fromUint m
      g := SignedInt.fromUint a
      d := SignedInt.zero
      e := SignedInt.fromUint e }
  let s := batches vartime (fun s => s.g.isZeroVartime) (invertBatch vartime m mi) steps steps s
  -- The last number may be minus one, so its sign goes to the coefficient.
  { value := s.d.norm s.f.isNegative m
    isSome := s.f.magnitude.ctEq (Uint.ofNat n 1) && aNonzero }

/-- The inverse modulo an odd number. -/
def invertOddMod (vartime : Bool) (a m : Uint n) : CtOption (Uint n) :=
  invertOddModPrecomp vartime a m (invertOdd (m.limbs.headD 0)) (Uint.ofNat n 1)

/-- The greatest common divisor of an odd number and another. That it is odd is
    checked. -/
def gcdOdd (vartime : Bool) (f g : Uint n) : Option (Uint n) :=
  let steps := iterations (64 * n)
  let s : GcdState n :=
    { delta := 1
      f := SignedInt.fromUint f
      g := SignedInt.fromUint g }
  let s := batches vartime (fun s => s.g.isZeroVartime) (gcdBatch vartime) steps steps s
  -- The other branch is the panic of the check.
  if s.f.magnitude.isOdd then some s.f.magnitude else none

namespace FixedMontyForm

variable {params : MontyParams n}

/-- The inverse of a stored residue, stored. -/
def invert (a : FixedMontyForm params) : CtOption (FixedMontyForm params) :=
  -- The factor is the square of the one of Montgomery form, so the inverse of a
  -- stored residue comes out stored.
  let maybeInverse := invertOddModPrecomp false a.montgomeryForm params.modulus params.modInv
    params.r2
  { value := ⟨maybeInverse.value⟩
    isSome := maybeInverse.isSome }

/-- The same in variable time. -/
def invertVartime (a : FixedMontyForm params) : CtOption (FixedMontyForm params) :=
  let maybeInverse := invertOddModPrecomp true a.montgomeryForm params.modulus params.modInv
    params.r2
  { value := ⟨maybeInverse.value⟩
    isSome := maybeInverse.isSome }

end FixedMontyForm

end Ed301
