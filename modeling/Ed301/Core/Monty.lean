import Ed301.Core.Uint
import Ed301.Theory.Ladder
import Mathlib.Data.Int.GCD
import Mathlib.Data.ZMod.Basic

/-!
# Constant-Modulus Residues

The library's constant-modulus form, which both the field and the scalar
module compute in. A value stands for a residue, and the Montgomery factor it
is stored with is internal to the library: `new` multiplies it in, `retrieve`
divides it out, and every operation documents its effect on the residue. The
form is therefore modelled as the residue itself, reduced by construction.

`toRing` reads a residue in a commutative ring where the modulus vanishes.
The ring is left open. It is `ZMod m` in the end, but nothing about the
operations asks for that, and a point computation carried out modulo `m` can
be read in any such ring.

## Main definitions

* `ConstMontyForm`: A residue below the modulus.
* `ConstMontyForm.new`: The residue of an integer.
* `ConstMontyForm.retrieve`: The canonical representative.
* `ConstMontyForm.invert`: The inverse, if there is one.
* `ConstMontyForm.powBoundedExp`: A power by a fixed-length ladder.
* `ConstMontyForm.toRing`: The residue read in a ring.

## Theorems

* `toRing_add`, `toRing_sub`, `toRing_neg`, `toRing_mul`, `toRing_square`,
  `toRing_zero`, `toRing_one`, `toRing_new`: The operations are exact.
* `toRing_powBoundedExp`: The ladder computes the power.
* `toZMod_injective`: A residue is determined by its class.
* `toZMod_val`: The residue is the canonical representative of its class.
* `invert_isSome`: An inverse is present exactly for units.
* `toZMod_invert`: A present inverse is the inverse.
-/

namespace Ed301

open Ladder

/-- A residue modulo `m`, in the library's constant-modulus form. -/
@[ext]
structure ConstMontyForm (m : ℕ) where
  residue : ℕ
  residue_lt : residue < m
deriving DecidableEq

namespace ConstMontyForm

variable {m : ℕ} [NeZero m]

/-- The residue of a natural number. -/
def ofNat (m k : ℕ) [NeZero m] : ConstMontyForm m where
  residue := k % m
  residue_lt := Nat.mod_lt _ (Nat.pos_of_neZero m)

def zero : ConstMontyForm m := ofNat m 0

def one : ConstMontyForm m := ofNat m 1

def new (integer : U320) : ConstMontyForm m :=
  ofNat m integer.toNat

/-- The canonical representative. -/
def retrieve (a : ConstMontyForm m) : U320 :=
  BitVec.ofNat 320 a.residue

def add (a b : ConstMontyForm m) : ConstMontyForm m :=
  ofNat m (a.residue + b.residue)

def sub (a b : ConstMontyForm m) : ConstMontyForm m :=
  ofNat m (a.residue + (m - b.residue))

def neg (a : ConstMontyForm m) : ConstMontyForm m :=
  ofNat m (m - a.residue)

def mul (a b : ConstMontyForm m) : ConstMontyForm m :=
  ofNat m (a.residue * b.residue)

def square (a : ConstMontyForm m) : ConstMontyForm m :=
  a.mul a

/-- The inverse, present when the residue is coprime to the modulus. The
    value of an absent inverse is unspecified and never read. -/
def invert (a : ConstMontyForm m) : CtOption (ConstMontyForm m) where
  value := ofNat m (Nat.gcdA a.residue m % (m : ℤ)).toNat
  isSome := decide (Nat.gcd a.residue m = 1)

/-- The power by the `exponentBits` low bits of the exponent. -/
def powBoundedExp (a : ConstMontyForm m) (exponent : U320) (exponentBits : ℕ) :
    ConstMontyForm m :=
  binaryLadder (fun bit acc => if bit then acc.square.mul a else acc.square)
    exponent.bit exponentBits one

def ctEq (a b : ConstMontyForm m) : Choice :=
  decide (a.residue = b.residue)

def ctSelect (a b : ConstMontyForm m) (choice : Choice) : ConstMontyForm m :=
  if choice then b else a

section ToRing

variable {R : Type*} [CommRing R]

/-- The residue read in a ring. -/
def toRing (R : Type*) [CommRing R] (a : ConstMontyForm m) : R :=
  (a.residue : R)

/-- Reduction modulo `m` is invisible where `m` vanishes. -/
theorem toRing_ofNat (h : (m : R) = 0) (k : ℕ) : (ofNat m k).toRing R = (k : R) := by
  -- The number is its remainder plus a multiple of `m`.
  have hk : ((k % m + m * (k / m) : ℕ) : R) = (k : R) := by rw [Nat.mod_add_div]
  rw [Nat.cast_add, Nat.cast_mul, h, zero_mul, add_zero] at hk
  exact hk

theorem toRing_zero (h : (m : R) = 0) : (zero : ConstMontyForm m).toRing R = 0 := by
  rw [zero, toRing_ofNat h, Nat.cast_zero]

theorem toRing_one (h : (m : R) = 0) : (one : ConstMontyForm m).toRing R = 1 := by
  rw [one, toRing_ofNat h, Nat.cast_one]

theorem toRing_new (h : (m : R) = 0) (integer : U320) :
    (new integer : ConstMontyForm m).toRing R = (integer.toNat : R) :=
  toRing_ofNat h _

theorem toRing_add (h : (m : R) = 0) (a b : ConstMontyForm m) :
    (a.add b).toRing R = a.toRing R + b.toRing R := by
  rw [add, toRing_ofNat h, Nat.cast_add]
  rfl

theorem toRing_mul (h : (m : R) = 0) (a b : ConstMontyForm m) :
    (a.mul b).toRing R = a.toRing R * b.toRing R := by
  rw [mul, toRing_ofNat h, Nat.cast_mul]
  rfl

theorem toRing_square (h : (m : R) = 0) (a : ConstMontyForm m) :
    a.square.toRing R = a.toRing R ^ 2 := by
  rw [square, toRing_mul h, sq]

omit [NeZero m] in
/-- The complement of a residue is its negative. -/
theorem cast_complement (h : (m : R) = 0) (a : ConstMontyForm m) :
    ((m - a.residue : ℕ) : R) = -a.toRing R := by
  rw [Nat.cast_sub (Nat.le_of_lt a.residue_lt), h, zero_sub]
  rfl

theorem toRing_sub (h : (m : R) = 0) (a b : ConstMontyForm m) :
    (a.sub b).toRing R = a.toRing R - b.toRing R := by
  rw [sub, toRing_ofNat h, Nat.cast_add, cast_complement h, ← sub_eq_add_neg]
  rfl

theorem toRing_neg (h : (m : R) = 0) (a : ConstMontyForm m) :
    a.neg.toRing R = -a.toRing R := by
  rw [neg, toRing_ofNat h, cast_complement h]

/-- The ladder computes the power, if the bound covers the exponent. -/
theorem toRing_powBoundedExp (h : (m : R) = 0) (a : ConstMontyForm m) (exponent : U320)
    (bits : ℕ) (hlt : exponent.toNat < 2 ^ bits) :
    (a.powBoundedExp exponent bits).toRing R = a.toRing R ^ exponent.toNat := by
  rw [← Nat.mod_eq_of_lt hlt]
  refine binaryLadder_zero (fun (k : ℕ) (acc : ConstMontyForm m) => acc.toRing R = a.toRing R ^ k)
    _ exponent.toNat bits one ?_ ?_
  -- The accumulator is the power by the bits read so far: squaring doubles
  -- that exponent and multiplying adds one to it.
  · intro k b acc hacc
    cases b with
    | false =>
        simp only [Bool.false_eq_true, if_false, Bool.toNat_false, add_zero]
        rw [toRing_square h, hacc, ← pow_mul, mul_comm]
    | true =>
        simp only [if_true, Bool.toNat_true]
        rw [toRing_mul h, toRing_square h, hacc, ← pow_mul, mul_comm k 2, pow_succ]
  · rw [toRing_one h, pow_zero]

end ToRing

/-- The residue class. -/
abbrev toZMod (a : ConstMontyForm m) : ZMod m :=
  a.toRing (ZMod m)

omit [NeZero m] in
theorem cast_self : ((m : ℕ) : ZMod m) = 0 := ZMod.natCast_self m

omit [NeZero m] in
/-- The residue is the canonical representative of its class. -/
theorem toZMod_val (a : ConstMontyForm m) : a.toZMod.val = a.residue :=
  ZMod.val_cast_of_lt a.residue_lt

omit [NeZero m] in
theorem toZMod_injective (a b : ConstMontyForm m) (h : a.toZMod = b.toZMod) : a = b := by
  ext
  rw [← toZMod_val a, ← toZMod_val b, h]

theorem toZMod_ofNat_val (c : ZMod m) : (ofNat m c.val).toZMod = c := by
  rw [toZMod, toRing_ofNat cast_self, ZMod.natCast_zmod_val]

omit [NeZero m] in
theorem ctEq_iff (a b : ConstMontyForm m) : a.ctEq b = true ↔ a.toZMod = b.toZMod := by
  rw [ctEq, decide_eq_true_eq]
  constructor
  · intro h
    rw [toZMod, toZMod, toRing, toRing, h]
  · intro h
    rw [toZMod_injective a b h]

/-- Bézout's coefficient inverts a coprime residue. -/
theorem toZMod_invert (a : ConstMontyForm m) (h : a.invert.isSome = true) :
    a.toZMod * a.invert.value.toZMod = 1 := by
  have hgcd : Nat.gcd a.residue m = 1 := of_decide_eq_true h
  have hm : (m : ℤ) ≠ 0 := Nat.cast_ne_zero.mpr (NeZero.ne m)
  -- The coefficient is reduced into the range of the residues first.
  have hval : (((Nat.gcdA a.residue m % (m : ℤ)).toNat : ℕ) : ZMod m)
      = ((Nat.gcdA a.residue m : ℤ) : ZMod m) := by
    have hnn := Int.emod_nonneg (Nat.gcdA a.residue m) hm
    rw [← Int.cast_natCast, Int.toNat_of_nonneg hnn, ZMod.intCast_mod]
  -- Bézout's identity modulo `m` loses the multiple of `m`.
  have hbez := congrArg (fun z : ℤ => (z : ZMod m)) (Nat.gcd_eq_gcd_ab a.residue m)
  simp only [hgcd, Nat.cast_one, Int.cast_one, Int.cast_add, Int.cast_mul, Int.cast_natCast,
    cast_self, zero_mul, add_zero] at hbez
  rw [invert, toZMod, toZMod, toRing_ofNat cast_self, hval]
  exact hbez.symm

/-- An inverse is present exactly for units. -/
theorem invert_isSome (a : ConstMontyForm m) :
    a.invert.isSome = true ↔ IsUnit a.toZMod := by
  rw [invert, decide_eq_true_eq]
  exact (ZMod.isUnit_iff_coprime a.residue m).symm

omit [NeZero m] in
/-- The canonical representative fits the integer type, the modulus being one
    of its values. -/
theorem retrieve_toNat (a : ConstMontyForm m) (modulus : U320) (hm : modulus.toNat = m) :
    a.retrieve.toNat = a.residue := by
  have hlt := a.residue_lt.trans (hm ▸ modulus.isLt)
  rw [retrieve, BitVec.toNat_ofNat, Nat.mod_eq_of_lt hlt]

end ConstMontyForm

end Ed301
