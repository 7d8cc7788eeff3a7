import Ed301.Core.Extended
import Ed301.Refine.Pow
import Ed301.Refine.Scalar

/-!
# Limbs against Residues

Computing on limbs is computing with residues.

With valid parameters every operation on stored residues takes representatives
to representatives, comparisons included. That is one structure, `Refines`, and
everything built from the operations follows from it without looking at limbs
again: any program, and the point formulas up to the equation a signature is
checked by. The formulas over residues are those of the model, so the model's
points are what the limbs stand for.

## Main definitions

* `Extended.Rel`: Points with related coordinates.
* `EdwardsPoint.toExtended`: A point of the model, over residues.
* `StoredPoint`: A point over limbs that stands for one of the model.

## Theorems

* `FixedMontyForm.refines`: The operations on limbs refine those on residues.
* `fieldParams_valid`, `scalarParams_valid`: The parameters of the two moduli.
* `Extended.Rel.add` and so on: The point formulas.
* `EdwardsPoint.toExtended_add` and so on: The formulas of the model.
* `ConstMontyForm.powBits_eq`: The power of the model.
* `LimbVerify.verify_eq`: The equation a signature is checked by.
-/

namespace Ed301

open Limbs Montgomery Program Ladder

variable {n : ℕ}

namespace ConstMontyForm

variable {m : ℕ} [NeZero m]

/-- Twice the half is the residue. -/
theorem toZMod_half (a : ConstMontyForm m) (hodd : m % 2 = 1) :
    a.half.toZMod = (2 : ZMod m)⁻¹ * a.toZMod := by
  -- A residue stands for itself with the factor one.
  have hform : Form 1 m a.residue a.toZMod :=
    ⟨a.residue_lt, by rw [Nat.cast_one, one_mul]; rfl⟩
  have hhalf := (Form.half hodd hform).cast
  rw [Nat.cast_one, one_mul] at hhalf
  unfold half
  rw [toZMod, toRing_ofNat cast_self]
  exact hhalf

theorem toZMod_powBits (a : ConstMontyForm m) (exponent bits : ℕ) :
    (a.powBits exponent bits).toZMod = a.toZMod ^ (exponent % 2 ^ bits) := by
  refine binaryLadder_zero (fun (k : ℕ) (acc : ConstMontyForm m) => acc.toZMod = a.toZMod ^ k)
    _ exponent bits one ?_ ?_
  · -- A round squares, and multiplies if its bit is set.
    intro k b acc hacc
    cases b with
    | false =>
        simp only [Bool.false_eq_true, if_false, Bool.toNat_false, add_zero, toZMod]
        rw [toRing_square cast_self]
        rw [toZMod] at hacc
        rw [hacc, ← pow_mul, mul_comm]
    | true =>
        simp only [if_true, Bool.toNat_true, toZMod]
        rw [toRing_mul cast_self, toRing_square cast_self]
        rw [toZMod] at hacc
        rw [hacc, ← pow_mul, mul_comm k 2, pow_succ]
  · rw [toZMod, toRing_one cast_self, pow_zero]

/-- The power of the model is the power by the same bits. -/
theorem powBits_eq (a : ConstMontyForm m) (exponent : U320) (bits : ℕ) :
    a.powBits exponent.toNat bits = a.powBoundedExp exponent bits := rfl

end ConstMontyForm

/-- The operations on limbs refine those on residues. -/
theorem FixedMontyForm.refines {params : MontyParams n} {m : ℕ} [NeZero m]
    (hparams : params.Valid m) :
    Refines Represents (FixedMontyForm.ops params) (ConstMontyForm.ops n m) where
  zero := Represents.zero
  one := Represents.one hparams
  new := Represents.new hparams
  add _ _ _ _ ha hb := Represents.add hparams ha hb
  double _ _ ha := Represents.double hparams ha
  sub _ _ _ _ ha hb := Represents.sub hparams ha hb
  neg _ _ ha := Represents.neg hparams ha
  mul _ _ _ _ ha hb := Represents.mul hparams ha hb
  square _ _ ha := Represents.square hparams ha
  half a r ha := by
    have hhalf := Represents.divBy2 hparams ha
    rw [← ConstMontyForm.toZMod_half r hparams.odd] at hhalf
    exact hhalf
  pow a r e ha := by
    have hpow := Represents.powBoundedExp hparams ha e.exponent e.exponentBits
    rw [← ConstMontyForm.toZMod_powBits] at hpow
    exact hpow
  ctEq _ _ _ _ ha hb := Represents.ctEq hparams ha hb
  ctSelect _ _ _ _ choice ha hb := Represents.ctSelect ha hb choice

/-- The parameters computed from the limbs of an odd number. -/
theorem MontyParams.valid_ofNat (m : ℕ) (hlt : m < (2 ^ 64) ^ n) (hodd : m % 2 = 1) :
    (MontyParams.ofModulus (Uint.ofNat n m)).Valid m := by
  have hmodulus := Uint.toNat_ofNat_of_lt m hlt
  have hvalid := MontyParams.ofModulus_valid (Uint.ofNat n m) (by rw [hmodulus]; exact hodd)
  rw [hmodulus] at hvalid
  exact hvalid

theorem fieldParams_valid : fieldParams.Valid fieldModulus :=
  MontyParams.valid_ofNat fieldModulus (by decide) (by decide)

theorem scalarParams_valid : scalarParams.Valid scalarModulus :=
  MontyParams.valid_ofNat scalarModulus (by decide) (by decide)

/-- The power of the model on limbs. -/
theorem FixedMontyForm.represents_powBoundedExp {params : MontyParams 5} {m : ℕ} [NeZero m]
    (hparams : params.Valid m) {a : FixedMontyForm params} {r : ConstMontyForm m}
    (ha : Represents a r) (exponent : U320) (bits : ℕ) :
    Represents (a.powBoundedExp (Uint.ofNat 5 exponent.toNat) bits)
      (r.powBoundedExp exponent bits) := by
  have hexp : (Uint.ofNat 5 exponent.toNat).toNat = exponent.toNat := by
    refine Uint.toNat_ofNat_of_lt _ ?_
    rw [← pow_mul]
    exact exponent.isLt
  have hpow := Represents.powBoundedExp hparams ha (Uint.ofNat 5 exponent.toNat) bits
  rw [hexp, ← ConstMontyForm.toZMod_powBits, ConstMontyForm.powBits_eq] at hpow
  exact hpow

namespace Extended

variable {ι ε α β : Type}

/-- Points with related coordinates. -/
structure Rel (R : α → β → Prop) (p : Extended α) (q : Extended β) : Prop where
  x : R p.x q.x
  y : R p.y q.y
  z : R p.z q.z
  t : R p.t q.t

/-- Constants that are related. -/
structure RelConstants (R : α → β → Prop) (C : CurveConstants α) (D : CurveConstants β) :
    Prop where
  edwardsA : R C.edwardsA D.edwardsA
  edwardsD : R C.edwardsD D.edwardsD
  two : R C.two D.two

namespace Rel

variable {R : α → β → Prop} {F : Ops ι ε α} {G : Ops ι ε β} {C : CurveConstants α}
  {D : CurveConstants β} {p p' : Extended α} {q q' : Extended β}

theorem identity (h : Refines R F G) : Rel R (identity F) (identity G) :=
  ⟨h.zero, h.one, h.one, h.zero⟩

theorem add (h : Refines R F G) (hC : RelConstants R C D) (hp : Rel R p q) (hp' : Rel R p' q') :
    Rel R (p.add F C p') (q.add G D q') := by
  -- One fact for each of the intermediate values, under its name in the code.
  have hxx := h.mul _ _ _ _ hp.x hp'.x
  have hyy := h.mul _ _ _ _ hp.y hp'.y
  have hdt := h.mul _ _ _ _ (h.mul _ _ _ _ hC.edwardsD hp.t) hp'.t
  have hzz := h.mul _ _ _ _ hp.z hp'.z
  have hsums := h.mul _ _ _ _ (h.add _ _ _ _ hp.x hp.y) (h.add _ _ _ _ hp'.x hp'.y)
  have hcross := h.sub _ _ _ _ (h.sub _ _ _ _ hsums hxx) hyy
  have hdifference := h.sub _ _ _ _ hzz hdt
  have hsum := h.add _ _ _ _ hzz hdt
  have htwisted := h.sub _ _ _ _ hyy (h.mul _ _ _ _ hC.edwardsA hxx)
  exact ⟨h.mul _ _ _ _ hcross hdifference, h.mul _ _ _ _ hsum htwisted,
    h.mul _ _ _ _ hdifference hsum, h.mul _ _ _ _ hcross htwisted⟩

theorem double (h : Refines R F G) (hC : RelConstants R C D) (hp : Rel R p q) :
    Rel R (p.double F C) (q.double G D) := by
  have hxx := h.square _ _ hp.x
  have hyy := h.square _ _ hp.y
  have htwoZz := h.mul _ _ _ _ hC.two (h.square _ _ hp.z)
  have htwistedXx := h.mul _ _ _ _ hC.edwardsA hxx
  have hsquare := h.square _ _ (h.add _ _ _ _ hp.x hp.y)
  have hcross := h.sub _ _ _ _ (h.sub _ _ _ _ hsquare hxx) hyy
  have hsum := h.add _ _ _ _ htwistedXx hyy
  have hdifference := h.sub _ _ _ _ hsum htwoZz
  have htwisted := h.sub _ _ _ _ htwistedXx hyy
  exact ⟨h.mul _ _ _ _ hcross hdifference, h.mul _ _ _ _ hsum htwisted,
    h.mul _ _ _ _ hdifference hsum, h.mul _ _ _ _ hcross htwisted⟩

theorem negate (h : Refines R F G) (hp : Rel R p q) : Rel R (p.negate F) (q.negate G) :=
  ⟨h.neg _ _ hp.x, hp.y, hp.z, h.neg _ _ hp.t⟩

theorem conditionalSelect (h : Refines R F G) (hp : Rel R p q) (hp' : Rel R p' q')
    (choice : Choice) :
    Rel R (conditionalSelect F p p' choice) (conditionalSelect G q q' choice) :=
  ⟨h.ctSelect _ _ _ _ choice hp.x hp'.x, h.ctSelect _ _ _ _ choice hp.y hp'.y,
    h.ctSelect _ _ _ _ choice hp.z hp'.z, h.ctSelect _ _ _ _ choice hp.t hp'.t⟩

/-- All 301 rounds. -/
theorem scalarMulWith (h : Refines R F G) (hC : RelConstants R C D) (hp : Rel R p q)
    (scalarBit : ℕ → Choice) :
    Rel R (p.scalarMulWith F C scalarBit) (q.scalarMulWith G D scalarBit) := by
  refine binaryLadder_related (Rel R) _ _ scalarBit ?_ fieldBits _ _ (identity h)
  -- Both results of a round are related, so it does not matter which is taken.
  intro bit accumulator accumulator' hacc
  have hdoubled := double h hC hacc
  exact conditionalSelect h hdoubled (add h hC hdoubled hp) bit

theorem multiplyByCofactor (h : Refines R F G) (hC : RelConstants R C D) (hp : Rel R p q) :
    Rel R (p.multiplyByCofactor F C) (q.multiplyByCofactor G D) :=
  double h hC (double h hC hp)

theorem isIdentity (h : Refines R F G) (hp : Rel R p q) : p.isIdentity F = q.isIdentity G := by
  unfold Extended.isIdentity
  rw [h.ctEq _ _ _ _ hp.x h.zero, h.ctEq _ _ _ _ hp.y hp.z]

theorem isPrimeSubgroup (h : Refines R F G) (hC : RelConstants R C D) (hp : Rel R p q) :
    p.isPrimeSubgroup F C = q.isPrimeSubgroup G D :=
  isIdentity h (scalarMulWith h hC hp _)

theorem ctEq (h : Refines R F G) (hp : Rel R p q) (hp' : Rel R p' q') :
    p.ctEq F p' = q.ctEq G q' := by
  unfold Extended.ctEq
  rw [h.ctEq _ _ _ _ (h.mul _ _ _ _ hp.x hp'.z) (h.mul _ _ _ _ hp'.x hp.z),
    h.ctEq _ _ _ _ (h.mul _ _ _ _ hp.y hp'.z) (h.mul _ _ _ _ hp'.y hp.z)]

theorem isValid (h : Refines R F G) (hC : RelConstants R C D) (hp : Rel R p q) :
    p.isValid F C = q.isValid G D := by
  have hxx := h.square _ _ hp.x
  have hyy := h.square _ _ hp.y
  have hzz := h.square _ _ hp.z
  have hrelation := h.ctEq _ _ _ _ (h.mul _ _ _ _ hp.x hp.y) (h.mul _ _ _ _ hp.z hp.t)
  have hleft := h.add _ _ _ _ (h.mul _ _ _ _ (h.mul _ _ _ _ hC.edwardsA hxx) hzz)
    (h.mul _ _ _ _ hyy hzz)
  have hright := h.add _ _ _ _ (h.square _ _ hzz)
    (h.mul _ _ _ _ (h.mul _ _ _ _ hC.edwardsD hxx) hyy)
  -- The three conditions are computed on their own and put together at the end.
  unfold Extended.isValid
  simp only [h.ctEq _ _ _ _ hp.z h.zero, hrelation, h.ctEq _ _ _ _ hleft hright]

theorem verifyEquation (h : Refines R F G) (hC : RelConstants R C D) {b k c : Extended α}
    {b' k' c' : Extended β} (hb : Rel R b b') (hk : Rel R k k') (hc : Rel R c c')
    (responseBit challengeBit : ℕ → Choice) :
    Extended.verifyEquation F C b k c responseBit challengeBit
      = Extended.verifyEquation G D b' k' c' responseBit challengeBit := by
  have hleft := multiplyByCofactor h hC (scalarMulWith h hC hb responseBit)
  have hright := multiplyByCofactor h hC (add h hC hc (scalarMulWith h hC hk challengeBit))
  exact ctEq h hleft hright

end Rel

end Extended

/-- A point of the model, over residues. -/
def EdwardsPoint.toExtended (self : EdwardsPoint) : Extended (ConstMontyForm fieldModulus) where
  x := self.x.inner
  y := self.y.inner
  z := self.z.inner
  t := self.t.inner

/-- The constants of the model. -/
def modelConstants : CurveConstants (ConstMontyForm fieldModulus) where
  edwardsA := edwardsA.inner
  edwardsD := edwardsD.inner
  two := two.inner

/-- A point over limbs and the point of the model it stands for. -/
abbrev StoredPoint (P : Extended (FixedMontyForm fieldParams)) (p : EdwardsPoint) : Prop :=
  Extended.Rel FixedMontyForm.Represents P p.toExtended

namespace EdwardsPoint

theorem toExtended_add (p q : EdwardsPoint) : (p.add q).toExtended
    = p.toExtended.add (ConstMontyForm.ops 5 fieldModulus) modelConstants q.toExtended := rfl

theorem toExtended_double (p : EdwardsPoint) : p.double.toExtended
    = p.toExtended.double (ConstMontyForm.ops 5 fieldModulus) modelConstants := rfl

theorem toExtended_negate (p : EdwardsPoint) : p.negate.toExtended
    = p.toExtended.negate (ConstMontyForm.ops 5 fieldModulus) := rfl

theorem toExtended_conditionalSelect (p q : EdwardsPoint) (choice : Choice) :
    (conditionalSelect p q choice).toExtended = Extended.conditionalSelect
      (ConstMontyForm.ops 5 fieldModulus) p.toExtended q.toExtended choice := rfl

/-- The two loops run in step. -/
theorem toExtended_scalarMulWith (p : EdwardsPoint) (scalarBit : ℕ → Choice) :
    (p.scalarMulWith scalarBit).toExtended = p.toExtended.scalarMulWith
      (ConstMontyForm.ops 5 fieldModulus) modelConstants scalarBit := by
  refine binaryLadder_related (fun (q : EdwardsPoint) Q => q.toExtended = Q) _ _ scalarBit ?_
    fieldBits identity _ rfl
  -- A round of the one is by definition a round of the other.
  intro bit accumulator accumulator' hacc
  rw [← hacc]
  rfl

theorem isIdentity_eq (p : EdwardsPoint) :
    p.isIdentity = p.toExtended.isIdentity (ConstMontyForm.ops 5 fieldModulus) := rfl

theorem isPrimeSubgroup_eq (p : EdwardsPoint) : p.isPrimeSubgroup
    = p.toExtended.isPrimeSubgroup (ConstMontyForm.ops 5 fieldModulus) modelConstants := by
  unfold isPrimeSubgroup scalarMulEncoded Extended.isPrimeSubgroup
  rw [isIdentity_eq, toExtended_scalarMulWith]

theorem ctEq_eq (p q : EdwardsPoint) :
    p.ctEq q = p.toExtended.ctEq (ConstMontyForm.ops 5 fieldModulus) q.toExtended := rfl

theorem isValid_eq (p : EdwardsPoint) : p.isValid
    = p.toExtended.isValid (ConstMontyForm.ops 5 fieldModulus) modelConstants := rfl

end EdwardsPoint

/-- The equation of the model. -/
theorem VerifyingKey.verify_eq (H : Xof) (key : VerifyingKey) (message : List UInt8)
    (signature : Signature) :
    key.verify H message signature = Extended.verifyEquation (ConstMontyForm.ops 5 fieldModulus)
      modelConstants EdwardsPoint.basepoint.toExtended key.point.toExtended
      signature.commitment.toExtended signature.response.bit
      (hashToScalar (challengeHash H signature.commitmentEncoding key.encoded message)).bit := by
  unfold VerifyingKey.verify Extended.verifyEquation
  simp only [EdwardsPoint.ctEq_eq, EdwardsPoint.multiplyByCofactor, EdwardsPoint.toExtended_double,
    EdwardsPoint.toExtended_add, EdwardsPoint.scalarMul, EdwardsPoint.toExtended_scalarMulWith]
  rfl

/-- The way a residue is stored. -/
def ConstMontyForm.store (r : ConstMontyForm fieldModulus) : FixedMontyForm fieldParams :=
  FixedMontyForm.new (Uint.ofNat 5 r.residue)

theorem ConstMontyForm.represents_store (r : ConstMontyForm fieldModulus) :
    FixedMontyForm.Represents r.store r := by
  have hnew := FixedMontyForm.Represents.new fieldParams_valid (Uint.ofNat 5 r.residue)
  have hlt := Nat.lt_trans r.residue_lt (show fieldModulus < (2 ^ 64) ^ 5 by decide)
  -- A residue has fewer bits than five limbs, and is reduced already.
  have hmodel : ConstMontyForm.ofNat fieldModulus (Uint.ofNat 5 r.residue).toNat = r := by
    rw [Uint.toNat_ofNat_of_lt _ hlt]
    ext1
    exact Nat.mod_eq_of_lt r.residue_lt
  rw [hmodel] at hnew
  exact hnew

/-- The way a point is stored. -/
def EdwardsPoint.store (self : EdwardsPoint) : Extended (FixedMontyForm fieldParams) where
  x := self.x.inner.store
  y := self.y.inner.store
  z := self.z.inner.store
  t := self.t.inner.store

theorem EdwardsPoint.storedPoint_store (self : EdwardsPoint) : StoredPoint self.store self :=
  ⟨self.x.inner.represents_store, self.y.inner.represents_store, self.z.inner.represents_store,
    self.t.inner.represents_store⟩

/-- A small word enters as the same residue on both sides. -/
theorem represents_fromU64 (word : UInt64) (k : ℕ) (h : word.toNat = k) :
    FixedMontyForm.Represents (FixedMontyForm.new (Uint.ofNat 5 k) : FixedMontyForm fieldParams)
      (FieldElement.fromU64 word).inner := by
  have hlt := word.toNat_lt
  have hnew := FixedMontyForm.Represents.new fieldParams_valid (Uint.ofNat 5 k)
  have hk : (Uint.ofNat 5 k).toNat = k := Uint.toNat_ofNat_word (by decide) k (by omega)
  have hmodel : (FieldElement.fromU64 word).inner = ConstMontyForm.ofNat fieldModulus k := by
    unfold FieldElement.fromU64 ConstMontyForm.new
    rw [U320.fromU64_toNat, h]
  rw [hmodel]
  rw [hk] at hnew
  exact hnew

/-- The constants stand for those of the model. -/
theorem relConstants : Extended.RelConstants FixedMontyForm.Represents
    (CurveConstants.ofWords (FixedMontyForm.ops fieldParams)) modelConstants where
  edwardsA := represents_fromU64 2086388329 2086388329 rfl
  edwardsD := represents_fromU64 301 301 rfl
  two := represents_fromU64 2 2 rfl

theorem fieldRefines : Refines FixedMontyForm.Represents (FixedMontyForm.ops fieldParams)
    (ConstMontyForm.ops 5 fieldModulus) :=
  FixedMontyForm.refines fieldParams_valid

namespace LimbScalar

open FixedMontyForm

theorem represents_radix64 : Represents radix64 Ed301.radix64 := by
  have hnew := Represents.new scalarParams_valid (Uint.ofNat 5 (2 ^ 64))
  have hradix : (U320.fromWords #v[0, 1, 0, 0, 0]).toNat = (Uint.ofNat 5 (2 ^ 64)).toNat := by
    decide +kernel
  rw [← hradix] at hnew
  exact hnew

/-- One round on limbs and one of the model. -/
theorem represents_reduceRound (word : UInt64) {a : MontgomeryScalar} {r : Ed301.MontgomeryScalar}
    (ha : Represents a r) : Represents (reduceRound word a) (Scalar.reduceRound word r) := by
  have hlt := word.toNat_lt
  have hnew := Represents.new scalarParams_valid (Uint.ofNat 5 word.toNat)
  have hword : (Uint.ofNat 5 word.toNat).toNat = (U320.fromU64 word).toNat := by
    rw [U320.fromU64_toNat]
    exact Uint.toNat_ofNat_word (by decide) _ hlt
  rw [hword] at hnew
  exact Represents.add scalarParams_valid (Represents.mul scalarParams_valid ha represents_radix64)
    hnew

/-- Horner's rule on limbs gives the integer of the model. -/
theorem toNat_reduceWords {k : ℕ} (words : Vector UInt64 k) :
    (reduceWords words).toNat = (Scalar.reduceWords words).value := by
  -- The two accumulators stay related from the highest word down.
  have hfold : ∀ l : List UInt64, Represents (l.foldr reduceRound FixedMontyForm.zero)
      (l.foldr Scalar.reduceRound ConstMontyForm.zero) := by
    intro l
    induction l with
    | nil => exact Represents.zero
    | cons word l ih => exact represents_reduceRound word ih
  have hretrieve := Represents.toNat_retrieve scalarParams_valid (hfold words.toList)
  have hvalue := Scalar.retrieve_value (words.toList.foldr Scalar.reduceRound ConstMontyForm.zero)
  rw [ConstMontyForm.toZMod_val] at hvalue
  exact hretrieve.trans hvalue.symm

theorem toNat_reducePrunedLe (bytes : Bytes scalarBytes) :
    (reducePrunedLe bytes).toNat = (Scalar.reducePrunedLe bytes).value :=
  toNat_reduceWords _

theorem toNat_reduceHashLe (bytes : Bytes hashBytes) :
    (reduceHashLe bytes).toNat = (Scalar.reduceHashLe bytes).value :=
  toNat_reduceWords _

/-- The bits of equal integers. -/
theorem bit_eq (a : Uint 5) (s : Scalar) (h : a.toNat = s.value) : a.bit = s.bit := by
  funext index
  rw [Uint.bit_eq_testBit, h]
  rfl

theorem toNat_mul (a b : Uint 5) (s t : Scalar) (ha : a.toNat = s.value) (hb : b.toNat = t.value) :
    (mul a b).toNat = (s.mul t).value := by
  have hleft := Represents.new scalarParams_valid a
  have hright := Represents.new scalarParams_valid b
  have hretrieve := Represents.toNat_retrieve scalarParams_valid
    (Represents.mul scalarParams_valid hleft hright)
  rw [ha, hb] at hretrieve
  have hvalue := Scalar.retrieve_value
    ((ConstMontyForm.new s.integer : Ed301.MontgomeryScalar).mul (ConstMontyForm.new t.integer))
  rw [ConstMontyForm.toZMod_val] at hvalue
  exact hretrieve.trans hvalue.symm

theorem toNat_add (a b : Uint 5) (s t : Scalar) (hs : s.Canonical) (ht : t.Canonical)
    (ha : a.toNat = s.value) (hb : b.toNat = t.value) :
    (add a b).toNat = (s.add t).value := by
  have hmodulus := scalarParams_valid.modulus
  unfold Scalar.Canonical at hs ht
  have hsum : a.toNat + b.toNat < 2 * scalarParams.modulus.toNat := by omega
  have hadd := Uint.toNat_addMod a b scalarParams.modulus hsum
  unfold add
  rw [hadd, hmodulus, Scalar.add_value s t hs ht, ha, hb]
  -- The remainder of the model is at most one subtraction away.
  unfold condSub
  by_cases hlt : s.value + t.value < scalarModulus
  · rw [if_pos hlt, Nat.mod_eq_of_lt hlt]
  · rw [if_neg hlt, Nat.mod_eq_sub_mod (Nat.not_lt.mp hlt), Nat.mod_eq_of_lt (by omega)]

end LimbScalar

/-- Over points and a response that stand for those of the model, the equation
    on limbs is the equation over residues: the bits are the same, and so are
    both sides. -/
theorem LimbVerify.verify_eq (H : Xof) {B K C : Extended (FixedMontyForm fieldParams)}
    {b k c : EdwardsPoint} (hB : StoredPoint B b) (hK : StoredPoint K k) (hC : StoredPoint C c)
    (publicKey commitmentEncoding : Bytes fieldBytes) {response : Uint 5} {s : Scalar}
    (hresponse : response.toNat = s.value) (message : List UInt8) :
    LimbVerify.verify H B K C publicKey commitmentEncoding response message
      = Extended.verifyEquation (ConstMontyForm.ops 5 fieldModulus) modelConstants b.toExtended
        k.toExtended c.toExtended s.bit
        (hashToScalar (challengeHash H commitmentEncoding publicKey message)).bit := by
  have hchallenge := LimbScalar.bit_eq _ _ (LimbScalar.toNat_reduceHashLe
    (challengeHash H commitmentEncoding publicKey message))
  have hequation := Extended.Rel.verifyEquation fieldRefines relConstants hB hK hC response.bit
    (LimbScalar.reduceHashLe (challengeHash H commitmentEncoding publicKey message)).bit
  -- The scalars enter the loop only through their bits.
  rw [hchallenge, LimbScalar.bit_eq response _ hresponse] at hequation
  unfold LimbVerify.verify
  simp only [hchallenge, LimbScalar.bit_eq response _ hresponse]
  exact hequation

end Ed301
