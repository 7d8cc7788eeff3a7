import Ed301.Core.Limbs
import Ed301.Theory.Montgomery
import Mathlib.Tactic.IntervalCases

/-!
# Limb Arithmetic against Numbers

What the operations on limbs and on integers compute, as numbers.

One limb is settled by counting: a sum or a product fits the wide type, and
the two halves of the wide word are its remainder and its quotient. An integer
then follows from the rules for loops. A borrow is a mask, and it is read as
the bit it is made of.

## Main definitions

* `Limb.IsMask`, `Limb.borrowBit`: A borrow, and the bit it stands for.

## Theorems

* `Limb.toNat_carryingAdd`, `Limb.toNat_borrowingSub`,
  `Limb.toNat_carryingMulAdd`: Arithmetic with a carry is exact.
* `Limb.sweep_carryingMulAdd`: One row of a product.
* `Limb.select_eq`, `Limb.isNonzero_iff`: Masking chooses, bits decide.
* `Uint.toNat_carryingAdd`, `Uint.toNat_borrowingSub`: Carries and borrows.
* `Uint.toNat_trySubWithCarry`: The conditional subtraction.
* `Uint.toNat_addMod`, `Uint.toNat_doubleMod`, `Uint.toNat_subMod`,
  `Uint.toNat_negMod`: Modular arithmetic.
* `Uint.isZero_iff`, `Uint.ctEq_iff`, `Uint.lt_iff`: Comparisons.
* `invertOdd_mul`: The inverse of an odd word.
-/

namespace Ed301

open Limbs

namespace WideWord

/-- The two halves of a wide word. -/
theorem toWord_add_high (wide : WideWord) :
    wide.toWord.toNat + 2 ^ 64 * wide.high.toWord.toNat = wide.toNat := by
  have hlt := wide.isLt
  unfold toWord high
  rw [BitVec.toNat_setWidth, BitVec.toNat_setWidth, BitVec.toNat_ushiftRight,
    Nat.shiftRight_eq_div_pow]
  omega

theorem toNat_high (wide : WideWord) : wide.high.toNat = wide.toNat / 2 ^ 64 := by
  unfold high
  rw [BitVec.toNat_ushiftRight, Nat.shiftRight_eq_div_pow]

theorem toNat_toWord (wide : WideWord) : wide.toWord.toNat = wide.toNat % 2 ^ 64 := by
  unfold toWord
  rw [BitVec.toNat_setWidth]

end WideWord

namespace Limb

@[simp] theorem toNat_toWide (word : Limb) : word.toWide.toNat = word.toNat := by
  have hlt := word.isLt
  unfold toWide
  rw [BitVec.toNat_setWidth]
  omega

/-- A product of words leaves room for two more words. -/
theorem mul_add_lt (x y : Limb) : x.toNat * y.toNat + 2 * (2 ^ 64 - 1) < 2 ^ 128 := by
  have hx := x.isLt
  have hy := y.isLt
  have hprod : x.toNat * y.toNat ≤ (2 ^ 64 - 1) * (2 ^ 64 - 1) :=
    Nat.mul_le_mul (by omega) (by omega)
  omega

theorem toNat_carryingAdd (lhs rhs carry : Limb) :
    (carryingAdd lhs rhs carry).1.toNat + 2 ^ 64 * (carryingAdd lhs rhs carry).2.toNat
      = lhs.toNat + rhs.toNat + carry.toNat := by
  have h1 := lhs.isLt
  have h2 := rhs.isLt
  have h3 := carry.isLt
  unfold carryingAdd
  simp only [WideWord.toWord_add_high, BitVec.toNat_add, toNat_toWide]
  omega

theorem toNat_carryingMulAdd (lhs rhs addend carry : Limb) :
    (carryingMulAdd lhs rhs addend carry).1.toNat
        + 2 ^ 64 * (carryingMulAdd lhs rhs addend carry).2.toNat
      = lhs.toNat * rhs.toNat + addend.toNat + carry.toNat := by
  have h1 := mul_add_lt lhs rhs
  have h2 := addend.isLt
  have h3 := carry.isLt
  unfold carryingMulAdd
  simp only [WideWord.toWord_add_high, BitVec.toNat_add, BitVec.toNat_mul, toNat_toWide]
  -- The product is nonlinear, and only its bound matters.
  generalize lhs.toNat * rhs.toNat = p at h1
  omega

/-- The products of one limb with others, added to as many limbs of a list that
    may be longer. -/
theorem sweep_carryingMulAdd (u carry : Limb) (xs l : List Limb) (h : xs.length ≤ l.length) :
    let row := sweep (fun carry (p : Limb × Limb) => carryingMulAdd u p.1 p.2 carry) carry
      (xs.zip l)
    row.1.length = xs.length ∧
      value row.1 + (2 ^ 64) ^ xs.length * row.2.toNat
        = u.toNat * value xs + value (l.take xs.length) + carry.toNat := by
  have hsweep := sweep_add (fun carry (p : Limb × Limb) => carryingMulAdd u p.1 p.2 carry)
    (2 ^ 64) BitVec.toNat (fun p : Limb × Limb => u.toNat * p.1.toNat + p.2.toNat) BitVec.toNat
    (fun _ => True) (fun _ _ _ => trivial)
    (fun carry p _ => toNat_carryingMulAdd u p.1 p.2 carry) (xs.zip l) carry trivial
  have hlen : (xs.zip l).length = xs.length := by
    rw [List.length_zip, Nat.min_eq_left h]
  have hxs : ((xs.zip l).map fun p => p.1.toNat) = xs.map BitVec.toNat := map_zip_fst _ _ _ h
  have hl : ((xs.zip l).map fun p => p.2.toNat) = (l.take xs.length).map BitVec.toNat :=
    map_zip_snd_take _ _ _
  rw [ofDigits_map_add, ofDigits_map_mul, hxs, hl, hlen] at hsweep
  exact ⟨by rw [length_sweep, hlen], hsweep⟩

@[simp] theorem choiceToMask_false : choiceToMask false = 0 := by
  decide

@[simp] theorem choiceToMask_true : choiceToMask true = BitVec.allOnes 64 := by
  decide

/-- Masking chooses. -/
theorem select_eq (a b : Limb) (choice : Choice) :
    select a b choice = if choice then b else a := by
  unfold select
  cases choice with
  | false => simp
  | true => rw [choiceToMask_true, BitVec.allOnes_and, ← BitVec.xor_assoc, BitVec.xor_self]; simp

/-- A word is nonzero if it or its negative has the highest bit set. -/
theorem isNonzero_iff (value : Limb) : isNonzero value = true ↔ value ≠ 0 := by
  have hbit : isNonzero value = (value.msb || (-value).msb) := by
    unfold isNonzero lsbToChoice
    rw [BitVec.getLsbD_ushiftRight, BitVec.getLsbD_or]
    rfl
  -- A word without its highest bit has a negative with it, unless it is zero.
  have hlt := value.isLt
  rw [hbit, Bool.or_eq_true, BitVec.msb_eq_decide, BitVec.msb_eq_decide, decide_eq_true_eq,
    decide_eq_true_eq, BitVec.toNat_neg]
  constructor
  · intro h hzero
    rw [hzero] at h
    simp at h
  · intro h
    have hpos : value.toNat ≠ 0 := fun h0 => h (BitVec.eq_of_toNat_eq h0)
    omega

/-- What a borrow looks like. -/
def IsMask (borrow : Limb) : Prop :=
  borrow = 0 ∨ borrow = BitVec.allOnes 64

/-- The bit a borrow stands for. -/
def borrowBit (borrow : Limb) : ℕ :=
  (lsbToChoice borrow).toNat

theorem isMask_choiceToMask (choice : Choice) : IsMask (choiceToMask choice) := by
  cases choice with
  | false => exact Or.inl choiceToMask_false
  | true => exact Or.inr choiceToMask_true

@[simp] theorem lsbToChoice_choiceToMask (choice : Choice) :
    lsbToChoice (choiceToMask choice) = choice := by
  cases choice <;> decide

theorem borrowBit_choiceToMask (choice : Choice) :
    borrowBit (choiceToMask choice) = choice.toNat := by
  unfold borrowBit
  rw [lsbToChoice_choiceToMask]

theorem isMask_iff (borrow : Limb) (h : IsMask borrow) :
    borrow = choiceToMask (lsbToChoice borrow) := by
  rcases h with h | h
  · rw [h]; decide
  · rw [h]; decide

/-- The highest bit of a borrow is the bit it stands for. -/
theorem toNat_ushiftRight_of_isMask (borrow : Limb) (h : IsMask borrow) :
    (borrow >>> 63).toNat = borrowBit borrow := by
  rcases h with h | h
  · rw [h]; decide
  · rw [h]; decide

theorem isMask_borrowingSub (lhs rhs borrow : Limb) : IsMask (borrowingSub lhs rhs borrow).2 :=
  isMask_choiceToMask _

theorem toNat_borrowingSub (lhs rhs borrow : Limb) (h : IsMask borrow) :
    (borrowingSub lhs rhs borrow).1.toNat + rhs.toNat + borrowBit borrow
      = lhs.toNat + 2 ^ 64 * borrowBit (borrowingSub lhs rhs borrow).2 := by
  have hl := lhs.isLt
  have hr := rhs.isLt
  have hone := toNat_ushiftRight_of_isMask borrow h
  have hbit : borrowBit borrow ≤ 1 := by
    unfold borrowBit
    exact Bool.toNat_le _
  unfold borrowingSub
  rw [borrowBit_choiceToMask]
  simp only [BitVec.lt_def, BitVec.toNat_sub, hone]
  -- The two comparisons cannot both hold.
  by_cases h2 : lhs.toNat < borrowBit borrow
  · have hz : lhs.toNat = 0 ∧ borrowBit borrow = 1 := by omega
    simp only [hz]
    simp
    omega
  · by_cases h1 : (2 ^ 64 - borrowBit borrow + lhs.toNat) % 2 ^ 64 < rhs.toNat
    · simp only [h1, h2, decide_true, decide_false, Bool.true_or, Bool.toNat_true]
      omega
    · simp only [h1, h2, decide_false, Bool.or_self, Bool.toNat_false]
      omega

end Limb

namespace Uint

variable {n : ℕ}

theorem toNat_lt (a : Uint n) : a.toNat < (2 ^ 64) ^ n := by
  have h := value_lt a.limbs
  rwa [a.length_limbs] at h

/-- A nonzero integer has a limb. -/
theorem ne_zero_of_pos (a : Uint n) (h : 0 < a.toNat) : n ≠ 0 := by
  rintro rfl
  have hlt := a.toNat_lt
  rw [pow_zero] at hlt
  omega

theorem toNat_injective (a b : Uint n) (h : a.toNat = b.toNat) : a = b :=
  ext_limbs a b (value_injective _ _ (a.length_limbs.trans b.length_limbs.symm) h)

@[simp] theorem toNat_ofNat (k : ℕ) : (ofNat n k).toNat = k % (2 ^ 64) ^ n :=
  value_words n k

theorem toNat_ofNat_of_lt (k : ℕ) (h : k < (2 ^ 64) ^ n) : (ofNat n k).toNat = k := by
  rw [toNat_ofNat, Nat.mod_eq_of_lt h]

/-- A word fits into an integer that has a limb. -/
theorem toNat_ofNat_word (hn : n ≠ 0) (k : ℕ) (h : k < 2 ^ 64) : (ofNat n k).toNat = k :=
  toNat_ofNat_of_lt k (Nat.lt_of_lt_of_le h (Nat.le_self_pow hn _))

@[simp] theorem toNat_zero : (zero : Uint n).toNat = 0 :=
  value_replicate_zero n

theorem select_eq (a b : Uint n) (choice : Choice) :
    select a b choice = if choice then b else a := by
  have hlen : a.limbs.length = b.limbs.length := a.length_limbs.trans b.length_limbs.symm
  refine ext_limbs _ _ ?_
  unfold select
  simp only [Limb.select_eq]
  cases choice with
  | false =>
      simp only [Bool.false_eq_true, if_false]
      exact List.map_fst_zip (Nat.le_of_eq hlen)
  | true =>
      simp only [if_true]
      exact List.map_snd_zip (Nat.le_of_eq hlen.symm)

/-- Operands of the same length, taken in step. -/
theorem length_zip (a b : Uint n) : (a.limbs.zip b.limbs).length = n := by
  simp [a.length_limbs, b.length_limbs]

theorem ofDigits_zip_fst (a b : Uint n) :
    Nat.ofDigits (2 ^ 64) ((a.limbs.zip b.limbs).map fun p => p.1.toNat) = a.toNat := by
  have hlen : a.limbs.length ≤ b.limbs.length := by rw [a.length_limbs, b.length_limbs]
  rw [map_zip_fst BitVec.toNat _ _ hlen]
  rfl

theorem ofDigits_zip_snd (a b : Uint n) :
    Nat.ofDigits (2 ^ 64) ((a.limbs.zip b.limbs).map fun p => p.2.toNat) = b.toNat := by
  have hlen : b.limbs.length ≤ a.limbs.length := by rw [a.length_limbs, b.length_limbs]
  rw [map_zip_snd BitVec.toNat _ _ hlen]
  rfl

theorem toNat_carryingAdd (a rhs : Uint n) (carry : Limb) :
    (a.carryingAdd rhs carry).1.toNat + (2 ^ 64) ^ n * (a.carryingAdd rhs carry).2.toNat
      = a.toNat + rhs.toNat + carry.toNat := by
  have h := sweep_add (fun carry (p : Limb × Limb) => Limb.carryingAdd p.1 p.2 carry) (2 ^ 64)
    BitVec.toNat (fun p => p.1.toNat + p.2.toNat) BitVec.toNat (fun _ => True)
    (fun _ _ _ => trivial) (fun carry p _ => Limb.toNat_carryingAdd p.1 p.2 carry)
    (a.limbs.zip rhs.limbs) carry trivial
  rwa [ofDigits_map_add, ofDigits_zip_fst, ofDigits_zip_snd, length_zip] at h

theorem toNat_borrowingSub (a rhs : Uint n) (borrow : Limb) (h : Limb.IsMask borrow) :
    (a.borrowingSub rhs borrow).1.toNat + rhs.toNat + Limb.borrowBit borrow
      = a.toNat + (2 ^ 64) ^ n * Limb.borrowBit (a.borrowingSub rhs borrow).2 := by
  have h := sweep_sub (fun borrow (p : Limb × Limb) => Limb.borrowingSub p.1 p.2 borrow) (2 ^ 64)
    BitVec.toNat (fun p => p.1.toNat) (fun p => p.2.toNat) Limb.borrowBit Limb.IsMask
    (fun borrow p _ => Limb.isMask_borrowingSub p.1 p.2 borrow)
    (fun borrow p hb => Limb.toNat_borrowingSub p.1 p.2 borrow hb)
    (a.limbs.zip rhs.limbs) borrow h
  rwa [ofDigits_zip_fst, ofDigits_zip_snd, length_zip] at h

theorem isMask_borrowingSub (a rhs : Uint n) (borrow : Limb) (h : Limb.IsMask borrow) :
    Limb.IsMask (a.borrowingSub rhs borrow).2 :=
  sweep_invariant _ Limb.IsMask (fun borrow p _ => Limb.isMask_borrowingSub p.1 p.2 borrow)
    _ borrow h

/-- A subtraction with no borrow coming in. -/
theorem borrowingSub_zero (a rhs : Uint n) :
    (a.borrowingSub rhs 0).2 = Limb.choiceToMask (decide (a.toNat < rhs.toNat)) ∧
      (a.borrowingSub rhs 0).1.toNat
        = if a.toNat < rhs.toNat then a.toNat + (2 ^ 64) ^ n - rhs.toNat
          else a.toNat - rhs.toNat := by
  have hsub := toNat_borrowingSub a rhs 0 (Or.inl rfl)
  have hmask := isMask_borrowingSub a rhs 0 (Or.inl rfl)
  have hout := (a.borrowingSub rhs 0).1.toNat_lt
  have hrhs := rhs.toNat_lt
  have hzero : Limb.borrowBit 0 = 0 := by decide
  rw [hzero, Nat.add_zero] at hsub
  unfold Limb.borrowBit at hsub
  -- The last borrow is a mask, and its bit tells which of the two is smaller.
  cases hbit : Limb.lsbToChoice (a.borrowingSub rhs 0).2 with
  | false =>
      rw [hbit, Bool.toNat_false, Nat.mul_zero, Nat.add_zero] at hsub
      have hge : ¬ a.toNat < rhs.toNat := by omega
      rw [Limb.isMask_iff _ hmask, hbit, if_neg hge, decide_eq_false hge]
      exact ⟨rfl, by omega⟩
  | true =>
      rw [hbit, Bool.toNat_true, Nat.mul_one] at hsub
      have hlt : a.toNat < rhs.toNat := by omega
      rw [Limb.isMask_iff _ hmask, hbit, if_pos hlt, decide_eq_true hlt]
      exact ⟨rfl, by omega⟩

/-- Subtracting from the integer with a carry above it, and what is handed
    back as the new carry. -/
theorem toNat_trySubWithCarry (a : Uint n) (carry : Limb) (rhs : Uint n)
    (hcarry : carry.toNat ≤ 1)
    (hlt : a.toNat + (2 ^ 64) ^ n * carry.toNat < rhs.toNat + (2 ^ 64) ^ n) :
    (a.trySubWithCarry carry rhs).1.toNat
        = Montgomery.condSub rhs.toNat (a.toNat + (2 ^ 64) ^ n * carry.toNat) ∧
      (a.trySubWithCarry carry rhs).2 = 0 := by
  rcases borrowingSub_zero a rhs with ⟨hborrow, hout⟩
  have ha := a.toNat_lt
  have hrhs := rhs.toNat_lt
  have hcases : carry = 0 ∨ carry = 1 := by
    have h : carry.toNat = 0 ∨ carry.toNat = 1 := by omega
    rcases h with h | h
    · exact Or.inl (BitVec.eq_of_toNat_eq h)
    · exact Or.inr (BitVec.eq_of_toNat_eq h)
  unfold trySubWithCarry
  simp only [hborrow, Limb.lsbToChoice_choiceToMask, select_eq, Limb.select_eq]
  rcases hcases with rfl | rfl
  · -- Without a carry the subtraction is undone if it borrowed.
    have hz : Limb.isZero 0 = true := by decide
    have hzero : ((0 : Limb)).toNat = 0 := rfl
    rw [hz, hzero, Bool.and_true, Nat.mul_zero, Nat.add_zero]
    unfold Montgomery.condSub
    by_cases h : a.toNat < rhs.toNat
    · simp only [h, decide_true, if_true]
      exact ⟨trivial, by decide⟩
    · simp only [h, decide_false, Bool.false_eq_true, if_false]
      rw [if_neg h] at hout
      exact ⟨hout, by decide⟩
  · -- With a carry it stands.
    have hz : Limb.isZero 1 = false := by decide
    have hone : ((1 : Limb)).toNat = 1 := rfl
    rw [hz, hone, Bool.and_false, Nat.mul_one]
    rw [hone, Nat.mul_one] at hlt
    have hge : ¬ a.toNat + (2 ^ 64) ^ n < rhs.toNat := by omega
    have hless : a.toNat < rhs.toNat := by omega
    unfold Montgomery.condSub
    rw [if_pos hless] at hout
    simp only [hge, hless, decide_true, Bool.false_eq_true, if_false]
    exact ⟨hout, by decide⟩

/-- A carry out of a sum or a shift, followed by the subtraction of the
    modulus. -/
theorem toNat_reduceCarry (w : Uint n) (carry : Limb) (p : Uint n) (total : ℕ)
    (h : w.toNat + (2 ^ 64) ^ n * carry.toNat = total) (hlt : total < 2 * p.toNat) :
    (w.trySubWithCarry carry p).1.toNat = Montgomery.condSub p.toNat total := by
  have hp := p.toNat_lt
  -- A total below twice the modulus cannot carry out more than once.
  have hcarry : carry.toNat ≤ 1 := by
    by_contra hbig
    have h2 : (2 ^ 64) ^ n * 2 ≤ (2 ^ 64) ^ n * carry.toNat :=
      Nat.mul_le_mul_left _ (by omega)
    omega
  rw [(toNat_trySubWithCarry w carry p hcarry (by omega)).1, h]

theorem toNat_addMod (a rhs p : Uint n) (h : a.toNat + rhs.toNat < 2 * p.toNat) :
    (a.addMod rhs p).toNat = Montgomery.condSub p.toNat (a.toNat + rhs.toNat) := by
  have hadd := toNat_carryingAdd a rhs 0
  exact toNat_reduceCarry _ _ p _ hadd h

/-- Shifting a limb with a bit coming in. -/
theorem toNat_shl1_step (carry limb : Limb) (h : carry.toNat ≤ 1) :
    (limb <<< 1 ||| carry).toNat + 2 ^ 64 * (limb >>> 63).toNat
      = 2 * limb.toNat + carry.toNat := by
  have hlt := limb.isLt
  have hor : (limb <<< 1 ||| carry).toNat = (limb <<< 1).toNat + carry.toNat := by
    -- The bit comes in at a place that the shift has cleared.
    rw [BitVec.toNat_or]
    have heven : (limb <<< 1).toNat = 2 ^ 1 * (limb.toNat % 2 ^ 63) := by
      rw [BitVec.toNat_shiftLeft, Nat.shiftLeft_eq]
      omega
    rw [heven, ← Nat.two_pow_add_eq_or_of_lt (by omega)]
  rw [hor, BitVec.toNat_shiftLeft, Nat.shiftLeft_eq, BitVec.toNat_ushiftRight,
    Nat.shiftRight_eq_div_pow]
  omega

theorem toNat_shl1WithCarry (a : Uint n) (carry : Limb) (h : carry.toNat ≤ 1) :
    (a.shl1WithCarry carry).1.toNat + (2 ^ 64) ^ n * (a.shl1WithCarry carry).2.toNat
      = 2 * a.toNat + carry.toNat := by
  have hkeep : ∀ (carry limb : Limb), carry.toNat ≤ 1 → (limb >>> 63).toNat ≤ 1 := by
    intro _ limb _
    have hlt := limb.isLt
    rw [BitVec.toNat_ushiftRight, Nat.shiftRight_eq_div_pow]
    omega
  have h := sweep_add (fun carry (limb : Limb) => (limb <<< 1 ||| carry, limb >>> 63)) (2 ^ 64)
    BitVec.toNat (fun limb => 2 * limb.toNat) BitVec.toNat (fun carry => carry.toNat ≤ 1)
    hkeep (fun carry limb hc => toNat_shl1_step carry limb hc) a.limbs carry h
  rw [ofDigits_map_mul, a.length_limbs] at h
  exact h

theorem toNat_doubleMod (a p : Uint n) (h : a.toNat < p.toNat) :
    (a.doubleMod p).toNat = Montgomery.condSub p.toNat (2 * a.toNat) := by
  have hshl := toNat_shl1WithCarry a 0 (by decide)
  exact toNat_reduceCarry _ _ p _ hshl (by omega)

theorem toNat_wrappingAdd (a rhs : Uint n) :
    (a.wrappingAdd rhs).toNat = (a.toNat + rhs.toNat) % (2 ^ 64) ^ n := by
  have hadd := toNat_carryingAdd a rhs 0
  have hlt := (a.carryingAdd rhs 0).1.toNat_lt
  have hzero : ((0 : Limb)).toNat = 0 := rfl
  rw [hzero, Nat.add_zero] at hadd
  rw [← hadd, Nat.add_mul_mod_self_left, Nat.mod_eq_of_lt hlt]
  rfl

/-- Masking all limbs by a borrow keeps the integer or clears it. -/
theorem bitandLimb_choiceToMask (a : Uint n) (choice : Choice) :
    a.bitandLimb (Limb.choiceToMask choice) = if choice then a else zero := by
  refine ext_limbs _ _ ?_
  unfold bitandLimb zero
  cases choice with
  | false =>
      simp [a.length_limbs]
  | true =>
      simp only [Limb.choiceToMask_true, BitVec.and_allOnes, List.map_id', if_true]

theorem toNat_subMod (a rhs p : Uint n) (h : rhs.toNat ≤ a.toNat + p.toNat) :
    (a.subMod rhs p).toNat
      = if a.toNat < rhs.toNat then a.toNat + p.toNat - rhs.toNat
        else a.toNat - rhs.toNat := by
  rcases borrowingSub_zero a rhs with ⟨hborrow, hout⟩
  have ha := a.toNat_lt
  have hp := p.toNat_lt
  have hrhs := rhs.toNat_lt
  unfold subMod
  simp only [hborrow, bitandLimb_choiceToMask, toNat_wrappingAdd, hout]
  by_cases hlt : a.toNat < rhs.toNat
  · -- The borrow is a whole power, and adding the modulus wraps it off again.
    simp only [hlt, decide_true, if_true]
    have hwrap : a.toNat + (2 ^ 64) ^ n - rhs.toNat + p.toNat
        = a.toNat + p.toNat - rhs.toNat + (2 ^ 64) ^ n := by omega
    rw [hwrap, Nat.add_mod_right, Nat.mod_eq_of_lt (by omega)]
  · simp only [hlt, decide_false, Bool.false_eq_true, if_false, toNat_zero, Nat.add_zero]
    exact Nat.mod_eq_of_lt (by omega)

/-- An integer is zero if the disjunction of its limbs is. -/
theorem foldl_or_eq_zero {α : Type*} (f : α → Limb) (l : List α) :
    ∀ acc, l.foldl (fun b x => b ||| f x) acc = 0 ↔ acc = 0 ∧ ∀ x ∈ l, f x = 0 := by
  induction l with
  | nil => intro acc; simp
  | cons x l ih =>
      intro acc
      have hor : (acc ||| f x) = 0 ↔ acc = 0 ∧ f x = 0 := BitVec.or_eq_zero_iff
      rw [List.foldl_cons, ih, hor, List.forall_mem_cons, and_assoc]

theorem toNat_eq_zero_iff (a : Uint n) : a.toNat = 0 ↔ ∀ limb ∈ a.limbs, limb = 0 := by
  constructor
  · intro h
    have hzero : a = zero := toNat_injective a zero (by rw [h, toNat_zero])
    rw [hzero]
    exact fun limb hlimb => List.eq_of_mem_replicate hlimb
  · intro h
    have hrep := List.eq_replicate_of_mem h
    unfold toNat
    rw [hrep]
    exact value_replicate_zero _

theorem isZero_iff (a : Uint n) : a.isZero = true ↔ a.toNat = 0 := by
  have hfold := foldl_or_eq_zero (fun limb : Limb => limb) a.limbs 0
  unfold isZero isNonzero
  rw [Bool.not_eq_true', ← Bool.not_eq_true, Limb.isNonzero_iff, not_not, toNat_eq_zero_iff,
    hfold]
  simp

theorem ctEq_iff (a rhs : Uint n) : a.ctEq rhs = true ↔ a = rhs := by
  have hlen : a.limbs.length = rhs.limbs.length := a.length_limbs.trans rhs.length_limbs.symm
  have hfold := foldl_or_eq_zero (fun p : Limb × Limb => p.1 ^^^ p.2) (a.limbs.zip rhs.limbs) 0
  unfold ctEq
  rw [Bool.not_eq_true', ← Bool.not_eq_true, Limb.isNonzero_iff, not_not, hfold]
  constructor
  · intro h
    -- Limbs that are equal in pairs make equal lists.
    have hall : ∀ p ∈ a.limbs.zip rhs.limbs, p.1 = p.2 := by
      intro p hp
      exact BitVec.xor_eq_zero_iff.mp (h.2 p hp)
    refine ext_limbs _ _ ?_
    rw [← List.map_fst_zip (Nat.le_of_eq hlen), List.map_congr_left hall,
      List.map_snd_zip (Nat.le_of_eq hlen.symm)]
  · intro h
    refine ⟨rfl, fun p hp => ?_⟩
    rw [h, List.zip_eq_zipWith, List.zipWith_self] at hp
    rcases List.mem_map.mp hp with ⟨limb, _, rfl⟩
    exact BitVec.xor_self

/-- A loop of which only the carry is kept. -/
theorem foldl_eq_sweep {α β σ : Type*} (f : σ → α → β × σ) (l : List α) :
    ∀ s, l.foldl (fun s x => (f s x).2) s = (sweep f s l).2 := by
  induction l with
  | nil => intro s; rfl
  | cons x l ih => intro s; exact ih _

theorem lt_iff (a rhs : Uint n) : a.lt rhs = true ↔ a.toNat < rhs.toNat := by
  -- The comparison is a subtraction of which only the borrow is kept.
  have hborrow := (borrowingSub_zero a rhs).1
  have hfold : (a.limbs.zip rhs.limbs).foldl
      (fun borrow p => (Limb.borrowingSub p.1 p.2 borrow).2) 0 = (a.borrowingSub rhs 0).2 :=
    foldl_eq_sweep (fun borrow (p : Limb × Limb) => Limb.borrowingSub p.1 p.2 borrow) _ 0
  unfold lt
  rw [hfold, hborrow, Limb.lsbToChoice_choiceToMask, decide_eq_true_eq]

theorem toNat_conditionalSetZero (a : Uint n) (choice : Choice) :
    (a.conditionalSetZero choice).toNat = if choice then 0 else a.toNat := by
  have h : a.conditionalSetZero choice = if choice then zero else a := by
    refine ext_limbs _ _ ?_
    unfold conditionalSetZero zero
    simp only [Limb.select_eq]
    cases choice with
    | false => simp
    | true => simp only [if_true, List.map_const', a.length_limbs]
  rw [h]
  cases choice <;> simp

theorem toNat_negMod (a p : Uint n) (h : a.toNat ≤ p.toNat) :
    (a.negMod p).toNat = if a.toNat = 0 then 0 else p.toNat - a.toNat := by
  rcases borrowingSub_zero p a with ⟨_, hout⟩
  unfold negMod
  simp only [toNat_conditionalSetZero, isZero_iff, hout, Nat.not_lt.mpr h, if_false]

/-- Subtracting under a mask subtracts the integer or zero. -/
theorem conditionalBorrowingSub_eq (a rhs : Uint n) (choice : Choice) :
    (a.conditionalBorrowingSub rhs choice).1
      = (a.borrowingSub (if choice then rhs else zero) 0).1 := by
  refine ext_limbs _ _ ?_
  unfold conditionalBorrowingSub borrowingSub
  simp only [Limb.select_eq]
  cases choice with
  | false =>
      -- The masked limbs are those of zero.
      have hzip : a.limbs.zip (zero : Uint n).limbs
          = (a.limbs.zip rhs.limbs).map fun p => (p.1, p.2 &&& 0) := by
        have hrhs : rhs.limbs.map (fun limb => limb &&& 0) = (zero : Uint n).limbs := by
          simp [zero, rhs.length_limbs]
        rw [← hrhs, List.zip_map_right]
        rfl
      simp only [Bool.false_eq_true, if_false, hzip, sweep_map]
  | true =>
      simp only [if_true, BitVec.and_allOnes]

/-- The parity of an integer is that of its lowest limb. -/
theorem isOdd_iff (a : Uint (n + 1)) : a.isOdd = true ↔ a.toNat % 2 = 1 := by
  rcases a with ⟨limbs, hlen⟩
  cases limbs with
  | nil => simp at hlen
  | cons limb limbs =>
      unfold isOdd toNat Limb.lsbToChoice
      have hbit : (limb &&& 1).getLsbD 0 = limb.getLsbD 0 := by
        rw [BitVec.getLsbD_and]
        exact Bool.and_true _
      rw [List.headD_cons, value_cons, hbit, BitVec.getLsbD, Nat.testBit_zero,
        decide_eq_true_eq]
      omega

/-- Halving a limb with a bit coming in at the top. -/
theorem toNat_shr1_step (carry limb : Limb) (h : carry = 0 ∨ carry = (1 : Limb) <<< 63) :
    2 * (limb >>> 1 ||| carry).toNat + (limb <<< 63).toNat / 2 ^ 63
      = limb.toNat + 2 ^ 64 * (carry.toNat / 2 ^ 63) := by
  have hlt := limb.isLt
  have hshr : (limb >>> 1).toNat = limb.toNat / 2 := by
    rw [BitVec.toNat_ushiftRight, Nat.shiftRight_eq_div_pow]
  have hshl : (limb <<< 63).toNat = 2 ^ 63 * (limb.toNat % 2) := by
    rw [BitVec.toNat_shiftLeft, Nat.shiftLeft_eq]
    omega
  have hor : (limb >>> 1 ||| carry).toNat = carry.toNat + limb.toNat / 2 := by
    rw [BitVec.or_comm, BitVec.toNat_or, hshr]
    rcases h with rfl | rfl
    · simp
    · exact (Nat.two_pow_add_eq_or_of_lt (i := 63) (by omega) 1).symm
  rw [hor, hshl]
  rcases h with rfl | rfl
  · simp
    omega
  · simp
    omega

theorem toNat_shr1 (a : Uint n) : a.shr1.toNat = a.toNat / 2 := by
  -- What goes down is the lowest bit of a limb, at the highest place.
  have hkeep : ∀ carry limb : Limb, carry = 0 ∨ carry = (1 : Limb) <<< 63 →
      limb <<< 63 = 0 ∨ limb <<< 63 = (1 : Limb) <<< 63 := by
    intro _ limb _
    have hshl : (limb <<< 63).toNat = 2 ^ 63 * (limb.toNat % 2) := by
      have hlt := limb.isLt
      rw [BitVec.toNat_shiftLeft, Nat.shiftLeft_eq]
      omega
    have hbit := Nat.mod_two_eq_zero_or_one limb.toNat
    rcases hbit with hbit | hbit
    · exact Or.inl (BitVec.eq_of_toNat_eq (by rw [hshl, hbit]; rfl))
    · exact Or.inr (BitVec.eq_of_toNat_eq (by rw [hshl, hbit]; rfl))
  rcases sweepDown_div
    (fun carry (limb : Limb) => (limb >>> 1 ||| carry, limb <<< 63)) 2 (2 ^ 64) BitVec.toNat
    BitVec.toNat (fun carry => carry.toNat / 2 ^ 63)
    (fun carry => carry = 0 ∨ carry = (1 : Limb) <<< 63)
    hkeep (fun carry limb hc => toNat_shr1_step carry limb hc) 0 (Or.inl rfl) a.limbs
      with ⟨hcarry, hhalf⟩
  have hzero : ((0 : Limb)).toNat / 2 ^ 63 = 0 := rfl
  rw [hzero, Nat.mul_zero, Nat.add_zero] at hhalf
  have hbit : (sweepDown (fun carry (limb : Limb) => (limb >>> 1 ||| carry, limb <<< 63)) 0
      a.limbs).2.toNat / 2 ^ 63 ≤ 1 := by
    rcases hcarry with h | h
    · rw [h]; decide
    · rw [h]; decide
  have hvalue : 2 * a.shr1.toNat + (sweepDown (fun carry (limb : Limb) =>
      (limb >>> 1 ||| carry, limb <<< 63)) 0 a.limbs).2.toNat / 2 ^ 63 = a.toNat := hhalf
  omega

/-- The pass over the limbs picks one of them. -/
theorem foldl_select_eq (i : ℕ) (l : List Limb) : ∀ (start : ℕ) (acc : Limb),
    (l.zipIdx start).foldl
        (fun result q => result ||| Limb.select 0 q.1 (decide (q.2 = i))) acc
      = acc ||| if start ≤ i then l.getD (i - start) 0 else 0 := by
  induction l with
  | nil => intro start acc; simp
  | cons limb l ih =>
      intro start acc
      rw [List.zipIdx_cons, List.foldl_cons, ih, Limb.select_eq]
      -- Before the position and after it the pass adds zeros.
      by_cases heq : start = i
      · subst heq
        simp
      · by_cases hlt : start < i
        · rcases Nat.exists_eq_add_of_le hlt with ⟨j, rfl⟩
          have h1 : start + 1 + j - (start + 1) = j := by omega
          have h2 : start + 1 + j - start = j + 1 := by omega
          have hor : acc ||| (0 : Limb) = acc := BitVec.or_zero
          simp only [Nat.succ_eq_add_one, heq, decide_false, Bool.false_eq_true, if_false,
            h1, h2, List.getD_cons_succ]
          rw [if_pos (by omega), if_pos (by omega), hor]
        · simp [heq, show ¬ start ≤ i by omega, show ¬ start + 1 ≤ i by omega]

/-- A bit of an integer is a bit of its number. -/
theorem bit_eq_testBit (a : Uint n) (index : ℕ) : a.bit index = a.toNat.testBit index := by
  have hlimb := toNat_getD a.limbs (index / 64)
  have hbit : (a.limbs.getD (index / 64) 0).getLsbD (index % 64) = a.toNat.testBit index := by
    have hmod := Nat.mod_lt index (show 0 < 64 by omega)
    rw [BitVec.getLsbD, hlimb, Nat.testBit_mod_two_pow, ← pow_mul, Nat.testBit_div_two_pow]
    simp only [hmod, decide_true, Bool.true_and]
    congr 1
    omega
  have hor : ∀ limb : Limb, 0 ||| limb = limb := fun _ => BitVec.zero_or
  unfold bit Limb.lsbToChoice
  simp only [foldl_select_eq, Nat.zero_le, if_true, hor, Nat.sub_zero, ← hbit,
    BitVec.getLsbD_ushiftRight, BitVec.getLsbD_and]
  simp [Nat.mod_lt]

/-- Writing the highest bit of a limb that has it clear. -/
theorem toNat_select_top (limb : Limb) (bit : Choice) (h : limb.toNat < 2 ^ 63) :
    (Limb.select (limb &&& ~~~ ((1 : Limb) <<< 63)) (limb ||| (1 : Limb) <<< 63) bit).toNat
      = limb.toNat + 2 ^ 63 * bit.toNat := by
  rw [Limb.select_eq]
  cases bit with
  | false =>
      have hmask : limb &&& ~~~ ((1 : Limb) <<< 63) = limb := by
        have hclear : ~~~ ((1 : Limb) <<< 63) = BitVec.ofNat 64 (2 ^ 63 - 1) := by decide
        apply BitVec.eq_of_toNat_eq
        rw [hclear, BitVec.toNat_and, BitVec.toNat_ofNat]
        exact (Nat.and_two_pow_sub_one_eq_mod limb.toNat 63).trans (Nat.mod_eq_of_lt h)
      simp only [Bool.false_eq_true, if_false, hmask, Bool.toNat_false]
      omega
  | true =>
      have hor : (limb ||| (1 : Limb) <<< 63).toNat = 2 ^ 63 * 1 + limb.toNat := by
        rw [BitVec.or_comm, BitVec.toNat_or, Nat.two_pow_add_eq_or_of_lt h]
        rfl
      simp only [if_true, hor, Bool.toNat_true]
      omega

/-- Writing the highest bit of an integer that has it clear. -/
theorem toNat_setBit_top (a : Uint (n + 1)) (bit : Choice)
    (h : 2 * a.toNat < (2 ^ 64) ^ (n + 1)) :
    2 * (a.setBit (64 * (n + 1) - 1) bit).toNat
      = 2 * a.toNat + (2 ^ 64) ^ (n + 1) * bit.toNat := by
  have hne : a.limbs ≠ [] := by
    intro hnil
    have hlen := a.length_limbs
    rw [hnil] at hlen
    simp at hlen
  obtain ⟨init, top, hsplit⟩ : ∃ init top, a.limbs = init ++ [top] :=
    ⟨_, _, (List.dropLast_concat_getLast hne).symm⟩
  have hlen : init.length = n := by
    have hlen := a.length_limbs
    rw [hsplit] at hlen
    simpa using hlen
  have hdiv : (64 * (n + 1) - 1) / 64 = n := by omega
  have hmod : (64 * (n + 1) - 1) % 64 = 63 := by omega
  -- Only the last limb changes.
  have hlimbs : (a.setBit (64 * (n + 1) - 1) bit).limbs
      = init ++
        [Limb.select (top &&& ~~~ ((1 : Limb) <<< 63)) (top ||| (1 : Limb) <<< 63) bit] := by
    unfold setBit
    simp only [hsplit, hdiv, hmod]
    rw [List.mapIdx_concat, hlen]
    congr 1
    · refine List.ext_getElem (by simp) fun i h1 h2 => ?_
      have hi : i ≠ n := by omega
      simp [Limb.select_eq, hi]
    · simp [Limb.select_eq]
  have hvalue : a.toNat = value init + (2 ^ 64) ^ n * top.toNat := by
    unfold toNat
    rw [hsplit, value_append, hlen]
    simp
  -- The highest bit of the integer is the highest bit of its last limb.
  have htop : top.toNat < 2 ^ 63 := by
    rw [hvalue, pow_succ ((2 : ℕ) ^ 64) n] at h
    have hpos : 0 < (2 ^ 64) ^ n := Nat.pow_pos (Nat.two_pow_pos 64)
    by_contra hbig
    have hmul : (2 ^ 64) ^ n * 2 ^ 63 ≤ (2 ^ 64) ^ n * top.toNat :=
      Nat.mul_le_mul_left _ (Nat.not_lt.mp hbig)
    omega
  have hset : (a.setBit (64 * (n + 1) - 1) bit).toNat
      = value init + (2 ^ 64) ^ n * (top.toNat + 2 ^ 63 * bit.toNat) := by
    rw [toNat, hlimbs, value_append, hlen, value_cons, value_nil, toNat_select_top top bit htop]
    rw [Nat.mul_zero, Nat.add_zero]
  rw [hset, hvalue, pow_succ ((2 : ℕ) ^ 64) n]
  ring

end Uint

/-- The first guess is right on the five lowest bits, since it is on every odd
    word of five bits. -/
theorem invertOdd_guess (value : Limb) (h : value.toNat % 2 = 1) :
    2 ^ 5 ∣ (1 - (value * 3 ^^^ 2) * value).toNat := by
  have hall : ∀ v : BitVec 5, v.toNat % 2 = 1 → (v * 3 ^^^ 2) * v = 1 := by decide
  have hodd : (value.setWidth 5).toNat % 2 = 1 := by
    rw [BitVec.toNat_setWidth]
    omega
  -- Products and sums modulo a word are right in their five lowest bits.
  have hlow : ((value * 3 ^^^ 2) * value).setWidth 5
      = (value.setWidth 5 * 3 ^^^ 2) * value.setWidth 5 := by
    rw [BitVec.setWidth_mul _ _ (by decide), BitVec.setWidth_xor,
      BitVec.setWidth_mul _ _ (by decide)]
    rfl
  have hone := congrArg BitVec.toNat (hlow.trans (hall _ hodd))
  rw [BitVec.toNat_setWidth] at hone
  rw [BitVec.toNat_sub]
  have hvalue : BitVec.toNat (1 : BitVec 5) = 1 := rfl
  have hvalue' : BitVec.toNat (1 : Limb) = 1 := rfl
  rw [hvalue] at hone
  rw [hvalue']
  have hlt := ((value * 3 ^^^ 2) * value).isLt
  generalize ((value * 3 ^^^ 2) * value).toNat = p at hone hlt
  omega

/-- A step of the iteration: an inverse up to an error becomes one up to the
    square of the error. -/
theorem invertOdd_step (x y value : Limb) (h : y = 1 - x * value) :
    y * y = 1 - x * (y + 1) * value := by
  rw [h]
  grind

/-- Squaring doubles the number of zeros at the bottom. -/
theorem dvd_mul_self (y : Limb) (k : ℕ) (hk : 2 * k ≤ 64) (h : 2 ^ k ∣ y.toNat) :
    2 ^ (2 * k) ∣ (y * y).toNat := by
  rw [BitVec.toNat_mul, Nat.dvd_mod_iff (Nat.pow_dvd_pow 2 hk), Nat.two_mul, Nat.pow_add]
  exact Nat.mul_dvd_mul h h

/-- The iteration inverts every odd word: the error of the guess is squared
    until nothing of it is left. -/
theorem invertOdd_mul (value : Limb) (h : value.toNat % 2 = 1) :
    invertOdd value * value = 1 := by
  have h0 := invertOdd_guess value h
  unfold invertOdd
  generalize hx0 : value * 3 ^^^ 2 = x0 at h0
  generalize hy0 : 1 - x0 * value = y0 at h0
  -- Four steps, with errors that are the guess's to the powers of two.
  have e1 := invertOdd_step x0 y0 value hy0.symm
  have e2 := invertOdd_step _ _ value e1
  have e3 := invertOdd_step _ _ value e2
  have e4 := invertOdd_step _ _ value e3
  have d3 := dvd_mul_self _ 20 (by decide) (dvd_mul_self _ 10 (by decide)
    (dvd_mul_self y0 5 (by decide) h0))
  simp only [hy0]
  generalize y0 * y0 * (y0 * y0) * (y0 * y0 * (y0 * y0)) = y3 at d3 e4 ⊢
  -- Three squarings leave 40 zeros, so the fourth leaves more than the word has.
  have hzero : y3 * y3 = 0 := by
    apply BitVec.eq_of_toNat_eq
    rw [BitVec.toNat_mul]
    have hpow : 2 ^ 64 ∣ 2 ^ (2 * 20) * 2 ^ (2 * 20) := Nat.pow_dvd_pow 2 (by decide : 64 ≤ 80)
    exact Nat.mod_eq_zero_of_dvd (hpow.trans (Nat.mul_dvd_mul d3 d3))
  rw [hzero] at e4
  grind

end Ed301
