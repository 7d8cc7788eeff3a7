import Mathlib.Algebra.GroupWithZero.Nat
import Mathlib.Data.Fin.Basic
import Mathlib.Data.Int.Basic
import Mathlib.Data.List.OfFn

/-!
# The SHA-3 Standard

The extendable-output function as the standard writes it down, over single
bits.

A state array holds a bit for each column, row and position along a lane, and
coordinates are taken modulo their range. The five step mappings are given by
the bit each output position reads. The rotation offsets come from the walk
over the sheet that the standard prescribes, and the round constants from its
linear feedback register, so no table of the implementation reappears here.

Strings are lists of bits. The sponge pads its input to whole blocks, adds
each block to the outer part of the state, and returns outer parts until there
are enough bits.

## Main definitions

* `Fips202.StateArray`: The state array.
* `Fips202.theta`, `Fips202.rho`, `Fips202.pi`, `Fips202.chi`,
  `Fips202.iota`: The step mappings.
* `Fips202.keccakP`: The permutation on state arrays.
* `Fips202.sponge`: The sponge construction.
* `Fips202.shake128`, `Fips202.shake256`: The extendable-output functions.
-/

namespace Ed301

namespace Fips202

/-- Columns and rows are counted modulo five. -/
instance instNeZeroFive : NeZero 5 := ⟨by decide⟩

/-- The state as columns, rows and lanes of bits. -/
abbrev StateArray (w : ℕ) := Fin 5 → Fin 5 → Fin w → Bool

section Steps

variable {w : ℕ} [NeZero w]

/-- The parity of a column. -/
def parity (A : StateArray w) (x : Fin 5) (z : Fin w) : Bool :=
  A x 0 z ^^ A x 1 z ^^ A x 2 z ^^ A x 3 z ^^ A x 4 z

def theta (A : StateArray w) : StateArray w := fun x y z =>
  A x y z ^^ (parity A (x - 1) z ^^ parity A (x + 1) (z - 1))

/-- The walk over the sheet that visits every lane but the first. -/
def walk : ℕ → Fin 5 × Fin 5
  | 0 => (1, 0)
  | t + 1 => ((walk t).2, 2 * (walk t).1 + 3 * (walk t).2)

/-- The rotation of a lane: the triangular number of its place in the walk. -/
def offset (x y : Fin 5) : ℕ :=
  ((List.range 24).find? fun t => walk t = (x, y)).elim 0 fun t => (t + 1) * (t + 2) / 2

def rho (A : StateArray w) : StateArray w := fun x y z =>
  A x y (z - Fin.ofNat w (offset x y))

omit [NeZero w] in
def pi (A : StateArray w) : StateArray w := fun x y z =>
  A (x + 3 * y) x z

omit [NeZero w] in
def chi (A : StateArray w) : StateArray w := fun x y z =>
  A x y z ^^ (!(A (x + 1) y z) && A (x + 2) y z)

/-- One step of the feedback register. -/
def shiftRegister : List Bool → List Bool
  | [r0, r1, r2, r3, r4, r5, r6, r7] =>
    [r7, r0, r1, r2, r3 ^^ r7, r4 ^^ r7, r5 ^^ r7, r6]
  | r => r

/-- The output of the feedback register at time `t`. -/
def registerBit (t : ℕ) : Bool :=
  (shiftRegister^[t % 255] [true, false, false, false, false, false, false, false]).headD false

/-- The bits of a round constant. -/
def roundConstant (l round z : ℕ) : Bool :=
  (List.range (l + 1)).any fun j => decide (z = 2 ^ j - 1) && registerBit (j + 7 * round)

omit [NeZero w] in
def iota (l : ℕ) (A : StateArray w) (round : ℕ) : StateArray w := fun x y z =>
  if x = 0 ∧ y = 0 then A x y z ^^ roundConstant l round z.val else A x y z

def rnd (l : ℕ) (A : StateArray w) (round : ℕ) : StateArray w :=
  iota l (chi (pi (rho (theta A)))) round

/-- The last `rounds` rounds of Keccak-f. -/
def keccakP (l rounds : ℕ) (A : StateArray w) : StateArray w :=
  (List.range rounds).foldl (fun A i => rnd l A (12 + 2 * l - rounds + i)) A

end Steps

/-- The array of a bit string. -/
def ofString (w : ℕ) (S : List Bool) : StateArray w := fun x y z =>
  S.getD (w * (5 * y.val + x.val) + z.val) false

/-- The lanes of an array, joined. -/
def toString {w : ℕ} (A : StateArray w) : List Bool :=
  (List.finRange 5).flatMap fun y => (List.finRange 5).flatMap fun x => List.ofFn (A x y)

/-- Keccak-f on 1600-bit strings. -/
def keccakF1600 (S : List Bool) : List Bool :=
  toString (keccakP 6 24 (ofString 64 S))

/-- The padding of a string of `m` bits to a multiple of `x`. -/
def pad10star1 (x m : ℕ) : List Bool :=
  [true] ++ List.replicate ((-(m : ℤ) - 2) % (x : ℤ)).toNat false ++ [true]

/-- The `r`-bit blocks of a string. -/
def blocks (r : ℕ) (P : List Bool) : List (List Bool) :=
  (List.range (P.length / r)).map fun i => (P.drop (i * r)).take r

/-- Add a block to the outer part of the state and permute. -/
def absorbBlock (f : List Bool → List Bool) (b r : ℕ) (S block : List Bool) : List Bool :=
  f (List.zipWith xor S (block ++ List.replicate (b - r) false))

/-- The outer parts of the states reached, joined. -/
def squeezeBlocks (f : List Bool → List Bool) (r : ℕ) : ℕ → List Bool → List Bool
  | 0, _ => []
  | n + 1, S => S.take r ++ squeezeBlocks f r n (f S)

/-- The sponge construction, with `d` bits of output. -/
def sponge (f : List Bool → List Bool) (b r : ℕ) (N : List Bool) (d : ℕ) : List Bool :=
  let P := N ++ pad10star1 r N.length
  let S := (blocks r P).foldl (absorbBlock f b r) (List.replicate b false)
  (squeezeBlocks f r ((d + (r - 1)) / r) S).take d

/-- The sponge over Keccak-f with capacity `c`. -/
def keccak (c : ℕ) (N : List Bool) (d : ℕ) : List Bool :=
  sponge keccakF1600 1600 (1600 - c) N d

/-- The extendable-output function with capacity `c`. -/
def shake (c : ℕ) (M : List Bool) (d : ℕ) : List Bool :=
  keccak c (M ++ [true, true, true, true]) d

def shake128 (M : List Bool) (d : ℕ) : List Bool :=
  shake 256 M d

def shake256 (M : List Bool) (d : ℕ) : List Bool :=
  shake 512 M d

end Fips202

end Ed301
