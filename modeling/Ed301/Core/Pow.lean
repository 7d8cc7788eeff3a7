import Ed301.Core.Montgomery
import Ed301.Theory.Window

/-!
# Powers of Stored Residues

Powers and products of powers, by windows of four bits.

The powers of each base up to the fifteenth are computed first. The windows of
the exponents are then read from the top down: four squares, and for each base
the product with the power its window says. How many windows are read depends
on a bound on the bits of the exponents, which is public.

There are three variants. The constant-time one reads the whole table for each
window and multiplies by the entry in any case, by one if the window is zero.
The variable-time one looks the entry up and leaves a zero window out. A third
one multiplies and squares without reducing, and reduces once at the end.

## Main definitions

* `computePowers`: The powers of a base.
* `lookup`: An entry of the table, in constant time.
* `powInit`: Where the windows start.
* `multiExponentiateMontgomeryForm`, `powMontgomeryForm`: Powers.
* `powAmmInternal`, `powMontgomeryFormAmm`: A power by almost reduced products.
* `Uint.bitsVartime`: The bits of an exponent.
-/

namespace Ed301

open Window

variable {n k : ℕ}

/-- Whether two words are equal. -/
def Limb.choiceFromEq (x y : Limb) : Choice := !isNonzero (x ^^^ y)

/-- The powers of a base below the sixteenth. -/
def computePowers (x : Uint n) (params : MontyParams n) : List (Uint n) :=
  params.one ::
    List.iterate (fun power => mulMontgomeryForm power x params.modulus params.modNegInv) x 15

/-- The entry at an index, by a pass over the whole table. -/
def lookup (powers : List (Uint n)) (idx : Limb) : Uint n :=
  (powers.tail.zipIdx 1).foldl
    (fun power q => Uint.select power q.1 (Limb.choiceFromEq (BitVec.ofNat 64 q.2) idx))
    (powers.headD Uint.zero)

/-- The limb and the window in it that hold the highest of the bits, and the
    mask of that window. -/
def powInit (exponentBits : ℕ) : ℕ × ℕ × Limb :=
  let startingLimb := (exponentBits - 1) / 64
  let startingBitInLimb := (exponentBits - 1) % 64
  let startingWindow := startingBitInLimb / 4
  let startingWindowMask := (1 : Limb) <<< (startingBitInLimb % 4 + 1) - 1
  (startingLimb, startingWindow, startingWindowMask)

/-- A window of an exponent. Of the first window only the bits under the mask
    count. -/
def windowIndex (exponent : Uint k) (limbNum windowNum : ℕ) (isFirst : Bool)
    (startingWindowMask : Limb) : Limb :=
  let w := exponent.limbs.getD limbNum 0
  -- A window never crosses two limbs.
  let idx := w >>> (windowNum * 4) &&& 15
  if isFirst then idx &&& startingWindowMask else idx

/-- The product with one power, which in variable time is left out if it is
    that of zero. -/
def multiplyWindow (vartime : Bool) (params : MontyParams n) (idx : Limb)
    (powers : List (Uint n)) (z : Uint n) : Uint n :=
  if vartime then
    if 0 < idx then
      mulMontgomeryForm z (powers.getD idx.toNat Uint.zero) params.modulus params.modNegInv
    else z
  else mulMontgomeryForm z (lookup powers idx) params.modulus params.modNegInv

/-- The loop over windows, with the powers of each base at hand. -/
def multiExponentiateInternal (vartime : Bool)
    (powersAndExponents : List (List (Uint n) × Uint k)) (exponentBits : ℕ)
    (params : MontyParams n) : Uint n :=
  let (startingLimb, startingWindow, startingWindowMask) := powInit exponentBits
  scan (fun limbNum windowNum z =>
    -- The accumulator is still one in the first window, and is not squared.
    let isFirst := limbNum == startingLimb && windowNum == startingWindow
    let z := if isFirst then z
      else squareRepeatMontgomeryForm z 4 params.modulus params.modNegInv
    powersAndExponents.foldl (fun z q =>
      let idx := windowIndex q.2 limbNum windowNum isFirst startingWindowMask
      multiplyWindow vartime params idx q.1 z) z) 16 startingLimb startingWindow params.one

/-- The product of powers by the `exponentBits` low bits of the exponents. -/
def multiExponentiateMontgomeryForm (vartime : Bool) (basesAndExponents : List (Uint n × Uint k))
    (exponentBits : ℕ) (params : MontyParams n) : Uint n :=
  -- A bound beyond the exponent is lowered to its length.
  let exponentBits := if exponentBits > 64 * k then 64 * k else exponentBits
  if exponentBits = 0 then params.one
  else
    multiExponentiateInternal vartime
      (basesAndExponents.map fun q => (computePowers q.1 params, q.2)) exponentBits params

def powMontgomeryForm (vartime : Bool) (x : Uint n) (exponent : Uint k) (exponentBits : ℕ)
    (params : MontyParams n) : Uint n :=
  multiExponentiateMontgomeryForm vartime [(x, exponent)] exponentBits params

/-- The powers of a base below the sixteenth, by almost reduced products. -/
def computePowersAmm (x : Uint n) (params : MontyParams n) : List (Uint n) :=
  params.one ::
    List.iterate (fun power => almostMontgomeryMul power x params.modulus params.modNegInv) x 15

/-- The loop over windows, by almost reduced products. -/
def powAmmInternal (powers : List (Uint n)) (exponent : Uint n) (exponentBits : ℕ)
    (params : MontyParams n) : Uint n :=
  let (startingLimb, startingWindow, startingWindowMask) := powInit exponentBits
  scan (fun limbNum windowNum z =>
    let isFirst := limbNum == startingLimb && windowNum == startingWindow
    let idx := windowIndex exponent limbNum windowNum isFirst startingWindowMask
    let z := if isFirst then z
      else (fun z => almostMontgomeryMul z z params.modulus params.modNegInv)^[4] z
    almostMontgomeryMul z (lookup powers idx) params.modulus params.modNegInv)
    16 startingLimb startingWindow params.one

/-- The power by almost reduced products, reduced at the end. -/
def powMontgomeryFormAmm (x exponent : Uint n) (exponentBits : ℕ) (params : MontyParams n) :
    Uint n :=
  let exponentBits := min exponentBits (64 * n)
  if exponentBits = 0 then params.one
  else
    almostMontgomeryReduce
      (powAmmInternal (computePowersAmm x params) exponent exponentBits params) params.modulus

namespace Uint

/-- The highest nonzero limb at a position up to `i`, or the lowest limb. -/
def topLimb (limbs : List Limb) : ℕ → ℕ
  | 0 => 0
  | i + 1 => if limbs.getD (i + 1) 0 = 0 then topLimb limbs i else i + 1

/-- The number of bits, in variable time. -/
def bitsVartime (a : Uint n) : ℕ :=
  let i := topLimb a.limbs (n - 1)
  64 * (i + 1) - (a.limbs.getD i 0).clz.toNat

end Uint

namespace FixedMontyForm

variable {params : MontyParams n}

def powBoundedExp (a : FixedMontyForm params) (exponent : Uint k) (exponentBits : ℕ) :
    FixedMontyForm params :=
  ⟨powMontgomeryForm false a.montgomeryForm exponent exponentBits params⟩

def pow (a : FixedMontyForm params) (exponent : Uint k) : FixedMontyForm params :=
  a.powBoundedExp exponent (64 * k)

def powVartime (a : FixedMontyForm params) (exponent : Uint k) : FixedMontyForm params :=
  ⟨powMontgomeryForm true a.montgomeryForm exponent exponent.bitsVartime params⟩

def powAmmBoundedExp (a : FixedMontyForm params) (exponent : Uint n) (exponentBits : ℕ) :
    FixedMontyForm params :=
  ⟨powMontgomeryFormAmm a.montgomeryForm exponent exponentBits params⟩

def powAmm (a : FixedMontyForm params) (exponent : Uint n) : FixedMontyForm params :=
  a.powAmmBoundedExp exponent (64 * n)

/-- The product of powers by the `exponentBits` low bits of the exponents. No
    bases at all is a panic. -/
def multiExponentiateBoundedExp (basesAndExponents : List (FixedMontyForm params × Uint k))
    (exponentBits : ℕ) : Option (FixedMontyForm params) :=
  if basesAndExponents = [] then none
  else
    some ⟨multiExponentiateMontgomeryForm false
      (basesAndExponents.map fun q => (q.1.montgomeryForm, q.2)) exponentBits params⟩

end FixedMontyForm

end Ed301
