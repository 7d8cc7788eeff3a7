import Ed301.Core.Uint
import Ed301.Theory.Limbs

/-!
# Limbs and Fixed-Width Integers

The integer type of the library as it is stored: an array of 64-bit limbs, the
lowest first.

The operations are loops over the limbs that hand a carry or a borrow on, and
each is `sweep` of the operation on one limb. A limb operation goes through
the type of twice the width where the library does, and wraps around where the
library does. A borrow is a mask, all ones or all zeros. Choices between two
limbs are made by masking, and conditions on limbs are read off single bits.

## Main definitions

* `Limb`, `WideWord`: A word and the type of twice its width.
* `Limb.carryingAdd`, `Limb.borrowingSub`, `Limb.carryingMulAdd`: Arithmetic
  with a carry.
* `Limb.select`, `Limb.isNonzero`: Choices and conditions.
* `Uint`: An integer of `n` limbs.
* `Uint.carryingAdd`, `Uint.borrowingSub`, `Uint.trySubWithCarry`: Arithmetic.
* `Uint.addMod`, `Uint.doubleMod`, `Uint.subMod`, `Uint.negMod`: Modular
  arithmetic of reduced integers.
* `invertOdd`: The inverse of an odd word.
* `squareWide`: The square of an integer, in twice its length.
-/

namespace Ed301

open Limbs

/-- A 64-bit word. -/
abbrev Limb := BitVec 64

/-- The type of twice the width. -/
abbrev WideWord := BitVec 128

namespace WideWord

/-- `wide as Word`. -/
def toWord (wide : WideWord) : Limb := wide.setWidth 64

/-- `wide >> Word::BITS`. -/
def high (wide : WideWord) : WideWord := wide >>> 64

end WideWord

namespace Limb

/-- `word as WideWord`. -/
def toWide (word : Limb) : WideWord := word.setWidth 128

/-- `choice_from_lsb`, of a word that holds a bit. -/
def lsbToChoice (value : Limb) : Choice := value.getLsbD 0

/-- `choice_from_nz`: a nonzero word or its negative has its highest bit set. -/
def isNonzero (value : Limb) : Choice :=
  lsbToChoice ((value ||| -value) >>> 63)

def isZero (value : Limb) : Choice := !isNonzero value

/-- `choice_to_mask`. -/
def choiceToMask (choice : Choice) : Limb := -(if choice then 1 else 0)

/-- `b` if the choice is true, `a` otherwise. -/
def select (a b : Limb) (choice : Choice) : Limb :=
  a ^^^ (choiceToMask choice &&& (a ^^^ b))

/-- The sum of two words and a carry, with the new carry. -/
def carryingAdd (lhs rhs carry : Limb) : Limb × Limb :=
  let ret := lhs.toWide + rhs.toWide + carry.toWide
  (ret.toWord, ret.high.toWord)

/-- The difference of a word and a word with a borrow, with the new borrow. A
    borrow is all ones or all zeros, and its highest bit is what counts. -/
def borrowingSub (lhs rhs borrow : Limb) : Limb × Limb :=
  let one := borrow >>> 63
  let ret := lhs - one
  let b2 := lhs < one
  let b1 := ret < rhs
  (ret - rhs, choiceToMask (b1 || b2))

def overflowingAdd (lhs rhs : Limb) : Limb × Limb :=
  (lhs + rhs, (BitVec.ofBool (BitVec.uaddOverflow lhs rhs)).setWidth 64)

/-- `lhs * rhs + addend + carry`, with the new carry. -/
def carryingMulAdd (lhs rhs addend carry : Limb) : Limb × Limb :=
  let ret := lhs.toWide * rhs.toWide + addend.toWide + carry.toWide
  (ret.toWord, ret.high.toWord)

end Limb

/-- The inverse of an odd word modulo `2^64`. -/
def invertOdd (value : Limb) : Limb :=
  let x := value * 3 ^^^ 2
  let y := 1 - x * value
  -- The first guess is right in five bits, and each step doubles that.
  let (x, y) := (x * (y + 1), y * y)
  let (x, y) := (x * (y + 1), y * y)
  let (x, y) := (x * (y + 1), y * y)
  x * (y + 1)

/-- An integer of `n` limbs, the lowest first. -/
structure Uint (n : ℕ) where
  limbs : List Limb
  length_limbs : limbs.length = n
deriving DecidableEq

namespace Uint

variable {n : ℕ}

theorem ext_limbs (a b : Uint n) (h : a.limbs = b.limbs) : a = b := by
  cases a
  cases b
  simp_all

/-- The integer. -/
def toNat (a : Uint n) : ℕ := value a.limbs

/-- The integer of a number, modulo `2^(64 n)`. -/
def ofNat (n k : ℕ) : Uint n where
  limbs := words 64 n k
  length_limbs := length_words n k

def zero : Uint n where
  limbs := List.replicate n 0
  length_limbs := List.length_replicate

/-- `b` if the choice is true, `a` otherwise. -/
def select (a b : Uint n) (choice : Choice) : Uint n where
  limbs := (a.limbs.zip b.limbs).map fun p => Limb.select p.1 p.2 choice
  length_limbs := by simp [a.length_limbs, b.length_limbs]

/-- The sum and the last carry. -/
def carryingAdd (a rhs : Uint n) (carry : Limb) : Uint n × Limb :=
  let r := sweep (fun carry p => Limb.carryingAdd p.1 p.2 carry) carry (a.limbs.zip rhs.limbs)
  (⟨r.1, by simp [r, a.length_limbs, rhs.length_limbs]⟩, r.2)

/-- The difference and the last borrow. -/
def borrowingSub (a rhs : Uint n) (borrow : Limb) : Uint n × Limb :=
  let r := sweep (fun borrow p => Limb.borrowingSub p.1 p.2 borrow) borrow
    (a.limbs.zip rhs.limbs)
  (⟨r.1, by simp [r, a.length_limbs, rhs.length_limbs]⟩, r.2)

/-- The difference to the right side masked by the choice, and whether it
    underflowed. -/
def conditionalBorrowingSub (a rhs : Uint n) (choice : Choice) : Uint n × Choice :=
  let mask := Limb.select 0 (BitVec.allOnes 64) choice
  let r := sweep (fun borrow p => Limb.borrowingSub p.1 (p.2 &&& mask) borrow) 0
    (a.limbs.zip rhs.limbs)
  (⟨r.1, by simp [r, a.length_limbs, rhs.length_limbs]⟩, Limb.lsbToChoice r.2)

def wrappingAdd (a rhs : Uint n) : Uint n :=
  (a.carryingAdd rhs 0).1

def bitandLimb (a : Uint n) (rhs : Limb) : Uint n where
  limbs := a.limbs.map fun limb => limb &&& rhs
  length_limbs := by simp [a.length_limbs]

def isNonzero (a : Uint n) : Choice :=
  Limb.isNonzero (a.limbs.foldl (fun b limb => b ||| limb) 0)

def isZero (a : Uint n) : Choice := !a.isNonzero

def isOdd (a : Uint n) : Choice :=
  Limb.lsbToChoice (a.limbs.headD 0 &&& 1)

/-- Equality, by the disjunction of the differences. -/
def ctEq (a rhs : Uint n) : Choice :=
  !Limb.isNonzero ((a.limbs.zip rhs.limbs).foldl (fun acc p => acc ||| (p.1 ^^^ p.2)) 0)

/-- A subtraction of which only the borrow is kept. -/
def lt (a rhs : Uint n) : Choice :=
  Limb.lsbToChoice ((a.limbs.zip rhs.limbs).foldl
    (fun borrow p => (Limb.borrowingSub p.1 p.2 borrow).2) 0)

def conditionalSetZero (a : Uint n) (choice : Choice) : Uint n where
  limbs := a.limbs.map fun limb => Limb.select limb 0 choice
  length_limbs := by simp [a.length_limbs]

/-- Try to subtract from the integer with a carry above it, without wrapping.
    What is handed back as the new carry is the borrow out of the old one. -/
def trySubWithCarry (a : Uint n) (carry : Limb) (rhs : Uint n) : Uint n × Limb :=
  let (out, borrow) := a.borrowingSub rhs 0
  -- A borrow is covered by a carry above the integer.
  let revert := Limb.lsbToChoice borrow && Limb.isZero carry
  let carry := (Limb.borrowingSub carry 0 (Limb.select borrow 0 revert)).2
  (select out a revert, carry)

/-- `self << 1` with a carry coming in at the bottom. -/
def shl1WithCarry (a : Uint n) (carry : Limb) : Uint n × Limb :=
  let r := sweep (fun carry (limb : Limb) => (limb <<< 1 ||| carry, limb >>> 63)) carry a.limbs
  (⟨r.1, by simp [r, a.length_limbs]⟩, r.2)

def shr1 (a : Uint n) : Uint n where
  limbs :=
    (sweepDown (fun carry (limb : Limb) => (limb >>> 1 ||| carry, limb <<< 63)) 0 a.limbs).1
  length_limbs := by simp [a.length_limbs]

/-- Read one bit, by a pass over all limbs. -/
def bit (a : Uint n) (index : ℕ) : Choice :=
  let indexMask := (1 : Limb) <<< (index % 64)
  let result := a.limbs.zipIdx.foldl
    (fun result q => result ||| Limb.select 0 q.1 (decide (q.2 = index / 64))) 0
  Limb.lsbToChoice ((result &&& indexMask) >>> (index % 64))

/-- Write one bit. -/
def setBit (a : Uint n) (index : ℕ) (bitValue : Choice) : Uint n where
  limbs := a.limbs.mapIdx fun i limb =>
    -- Every limb is computed with the bit written, and one of them is used.
    let indexMask := (1 : Limb) <<< (index % 64)
    let newLimb := Limb.select (limb &&& ~~~ indexMask) (limb ||| indexMask) bitValue
    Limb.select limb newLimb (decide (i = index / 64))
  length_limbs := by simp [a.length_limbs]

/-- The sum modulo `p`, if it is below `2 p`. -/
def addMod (a rhs p : Uint n) : Uint n :=
  let (w, carry) := a.carryingAdd rhs 0
  (w.trySubWithCarry carry p).1

def doubleMod (a p : Uint n) : Uint n :=
  let (w, carry) := a.shl1WithCarry 0
  (w.trySubWithCarry carry p).1

/-- The difference modulo `p`, if it lies between `-p` and `p`: the borrow is
    the mask under which the modulus is added. -/
def subMod (a rhs p : Uint n) : Uint n :=
  let (out, mask) := a.borrowingSub rhs 0
  out.wrappingAdd (p.bitandLimb mask)

def negMod (a p : Uint n) : Uint n :=
  -- The difference for zero would be the modulus.
  let z := a.isZero
  (p.borrowingSub a 0).1.conditionalSetZero z

end Uint

/-- One row below the diagonal of the multiplication grid. The list is `lo`
    with `hi` above it. -/
def squareRow (limbs : List Limb) (acc : List Limb) (i : ℕ) : List Limb :=
  let xi := limbs.getD i 0
  let row := sweep (fun carry p => Limb.carryingMulAdd xi p.1 p.2 carry) 0
    ((limbs.take i).zip (acc.drop i))
  acc.take i ++ row.1 ++ row.2 :: acc.drop (2 * i + 1)

/-- The diagonal of the multiplication grid. -/
def squareDiagonal : Limb → List Limb → List Limb → List Limb
  | carry, xi :: limbs, acc0 :: acc1 :: acc =>
    let (out0, carry) := Limb.carryingMulAdd xi xi acc0 carry
    let (out1, carry) := Limb.overflowingAdd acc1 carry
    out0 :: out1 :: squareDiagonal carry limbs acc
  | _, _, acc => acc

/-- The square of an integer, in twice its length: the rows below the
    diagonal, doubled, and the diagonal. The highest limb is empty before the
    doubling. -/
def squareWide (limbs : List Limb) : List Limb :=
  let rows := (List.range (limbs.length - 1)).foldl
    (fun acc i => squareRow limbs acc (i + 1)) (List.replicate (2 * limbs.length) 0)
  let doubled := sweep (fun carry (limb : Limb) => (limb <<< 1 ||| carry, limb >>> 63)) 0
    (rows.take (2 * limbs.length - 1))
  squareDiagonal 0 limbs (doubled.1 ++ [doubled.2])

end Ed301
