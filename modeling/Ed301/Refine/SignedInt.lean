import Ed301.Core.Safegcd
import Ed301.Refine.Limbs
import Mathlib.Data.Int.ModEq

/-!
# Signed Integers against Numbers

What the linear combinations behind the division steps compute.

An integer with a limb above it is read as one number (`wide`). Negation is
modulo the range of the wide integer, and a shift divides. A sum of two
products is exact for all words: the magnitudes leave one bit of the upper limb
free, products of one sign are added and those of two signs subtracted, and a
borrow says that the second was larger.

## Main definitions

* `wide`: An integer with a limb above it.
* `signed`: A magnitude with a sign.
* `SignedInt.toInt`: The integer.

## Theorems

* `wide_wideningMul`: The product with a limb.
* `wide_negate`: The negative of a wide integer.
* `wide_shrInPlaceWide`: A shift divides.
* `lincombInt_spec`: The sum of two products is exact.
* `toInt_lincombIntReduceShift`: And its quotient, where it fits.
* `reduceShiftMod_spec`, `lincombIntReduceShiftMod_spec`: The quotient modulo an
  odd modulus.
* `norm_spec`: The residue of a signed integer.
* `SignedInt.lowest_modEq`: The low bits of one.
-/

namespace Ed301

open Limbs

variable {n : ℕ}

/-- An integer with a limb above it. -/
def wide (lo : Uint n) (hi : Limb) : ℕ := lo.toNat + (2 ^ 64) ^ n * hi.toNat

theorem wide_lt (lo : Uint n) (hi : Limb) : wide lo hi < (2 ^ 64) ^ n * 2 ^ 64 := by
  have hlo := lo.toNat_lt
  have hhi : (2 ^ 64) ^ n * (hi.toNat + 1) ≤ (2 ^ 64) ^ n * 2 ^ 64 :=
    Nat.mul_le_mul_left _ hi.isLt
  unfold wide
  rw [Nat.mul_succ] at hhi
  omega

/-- The two parts of a wide integer. -/
theorem wide_parts (lo : Uint n) (hi : Limb) :
    lo.toNat = wide lo hi % (2 ^ 64) ^ n ∧ hi.toNat = wide lo hi / (2 ^ 64) ^ n := by
  have hlo := lo.toNat_lt
  have hpos : 0 < (2 ^ 64) ^ n := by positivity
  unfold wide
  rw [Nat.add_mul_mod_self_left, Nat.mod_eq_of_lt hlo, Nat.add_mul_div_left _ _ hpos,
    Nat.div_eq_of_lt hlo, Nat.zero_add]
  exact ⟨rfl, rfl⟩

/-- The product with a limb. -/
theorem wide_wideningMul (a : Uint n) (rhs : Limb) :
    wide (a.wideningMul rhs).1 (a.wideningMul rhs).2 = a.toNat * rhs.toNat := by
  have hadd := sweep_add (fun lo xi => Limb.carryingMulAdd xi rhs lo 0) (2 ^ 64) BitVec.toNat
    (fun xi : Limb => rhs.toNat * xi.toNat) BitVec.toNat (fun _ => True) (fun _ _ _ => trivial)
    (fun lo xi _ => by
      have hmul := Limb.toNat_carryingMulAdd xi rhs lo 0
      have hzero : ((0 : Limb)).toNat = 0 := rfl
      rw [hzero, Nat.add_zero, Nat.mul_comm xi.toNat] at hmul
      exact hmul) a.limbs 0 trivial
  have hzero : ((0 : Limb)).toNat = 0 := rfl
  rw [hzero, Nat.add_zero, ofDigits_map_mul, a.length_limbs, Nat.mul_comm rhs.toNat] at hadd
  exact hadd

/-- The negation of one limb: the carry is what is not borrowed. -/
theorem toNat_negStep (carry : WideWord) (limb : Limb) (h : carry.toNat ≤ 1) :
    (Limb.negStep carry limb).1.toNat + limb.toNat + (1 - carry.toNat)
        = 0 + 2 ^ 64 * (1 - (Limb.negStep carry limb).2.toNat) ∧
      (Limb.negStep carry limb).2.toNat ≤ 1 := by
  have hlt := limb.isLt
  have hsum : ((~~~limb).toWide + carry).toNat = 2 ^ 64 - 1 - limb.toNat + carry.toNat := by
    rw [BitVec.toNat_add, Limb.toNat_toWide, BitVec.toNat_not]
    omega
  unfold Limb.negStep
  rw [WideWord.toNat_toWord, WideWord.toNat_high, hsum]
  omega

/-- The negative of an integer: something is carried out only of zero. -/
theorem toNat_carryingNeg (a : Uint n) :
    a.carryingNeg.2 = decide (a.toNat = 0) ∧
      a.carryingNeg.1.toNat = if a.toNat = 0 then 0 else (2 ^ 64) ^ n - a.toNat := by
  have hsub := sweep_sub Limb.negStep (2 ^ 64) BitVec.toNat (fun _ : Limb => 0) BitVec.toNat
    (fun carry => 1 - carry.toNat) (fun carry => carry.toNat ≤ 1)
    (fun carry limb h => (toNat_negStep carry limb h).2)
    (fun carry limb h => (toNat_negStep carry limb h).1) a.limbs 1 (by decide)
  have hkeep := sweep_invariant Limb.negStep (fun carry => carry.toNat ≤ 1)
    (fun carry limb h => (toNat_negStep carry limb h).2) a.limbs 1 (by decide)
  have hnull : Nat.ofDigits (2 ^ 64) (a.limbs.map fun _ : Limb => 0) = 0 := by
    rw [List.map_const', Nat.ofDigits_replicate_zero]
  have hone : ((1 : WideWord)).toNat = 1 := rfl
  have hout := a.carryingNeg.1.toNat_lt
  have hlt := a.toNat_lt
  have hvalue : Nat.ofDigits (2 ^ 64) ((sweep Limb.negStep 1 a.limbs).1.map BitVec.toNat)
      = a.carryingNeg.1.toNat := rfl
  have hself : Nat.ofDigits (2 ^ 64) (a.limbs.map BitVec.toNat) = a.toNat := rfl
  have hchoice : a.carryingNeg.2
      = Limb.lsbToChoice (sweep Limb.negStep 1 a.limbs).2.toWord := rfl
  rw [hone, hnull, a.length_limbs, hvalue, hself] at hsub
  -- Of the carry only its two possible values matter from here on.
  generalize (sweep Limb.negStep 1 a.limbs).2 = carry at hsub hkeep hchoice
  rw [hchoice]
  have hcases : carry = 0 ∨ carry = 1 := by
    have h : carry.toNat = 0 ∨ carry.toNat = 1 := by omega
    rcases h with h | h
    · exact Or.inl (BitVec.eq_of_toNat_eq h)
    · exact Or.inr (BitVec.eq_of_toNat_eq h)
  rcases hcases with rfl | rfl
  · have hzero : ((0 : WideWord)).toNat = 0 := rfl
    rw [hzero, Nat.sub_zero, Nat.mul_one] at hsub
    have hne : a.toNat ≠ 0 := by omega
    rw [if_neg hne, decide_eq_false hne]
    exact ⟨by decide, by omega⟩
  · rw [hone, Nat.sub_self, Nat.mul_zero] at hsub
    have heq : a.toNat = 0 := by omega
    rw [if_pos heq, decide_eq_true heq]
    exact ⟨by decide, by omega⟩

/-- The negative of a wide integer, modulo its range. -/
theorem wide_negate (lo : Uint n) (hi : Limb) (flag : Choice) :
    wide (conditionalNegateInPlaceWide lo hi flag).1 (conditionalNegateInPlaceWide lo hi flag).2
      = if flag then ((2 ^ 64) ^ n * 2 ^ 64 - wide lo hi) % ((2 ^ 64) ^ n * 2 ^ 64)
        else wide lo hi := by
  rcases toNat_carryingNeg lo with ⟨hcarry, hneg⟩
  have hlo := lo.toNat_lt
  have hhi := hi.isLt
  unfold conditionalNegateInPlaceWide
  simp only [Uint.select_eq, Limb.select_eq, hcarry]
  cases flag with
  | false => simp
  | true =>
      have hpos : 0 < (2 ^ 64) ^ n := by positivity
      simp only [if_true, decide_eq_true_eq]
      unfold wide
      rw [hneg]
      -- The carry reaches the upper word only over a lower part that is zero.
      by_cases hzero : lo.toNat = 0
      · rw [if_pos hzero, if_pos hzero, hzero, Nat.zero_add, Nat.zero_add, ← Nat.mul_sub,
          Nat.mul_mod_mul_left, BitVec.toNat_add, BitVec.toNat_not]
        congr 1
        have hone : ((1 : Limb)).toNat = 1 := rfl
        rw [hone]
        omega
      · have hnot : (~~~hi + 0).toNat = 2 ^ 64 - 1 - hi.toNat := by
          have hnull : ((0 : Limb)).toNat = 0 := rfl
          rw [BitVec.toNat_add, BitVec.toNat_not, hnull]
          omega
        have hsplit : (2 ^ 64) ^ n * 2 ^ 64 - (lo.toNat + (2 ^ 64) ^ n * hi.toNat)
            = (2 ^ 64) ^ n - lo.toNat + (2 ^ 64) ^ n * (2 ^ 64 - 1 - hi.toNat) := by
          obtain ⟨k, hk⟩ : ∃ k, 2 ^ 64 = hi.toNat + 1 + k := ⟨2 ^ 64 - 1 - hi.toNat, by omega⟩
          have hrest : 2 ^ 64 - 1 - hi.toNat = k := by omega
          rw [hrest]
          have hmul : (2 ^ 64) ^ n * 2 ^ 64
              = (2 ^ 64) ^ n * hi.toNat + (2 ^ 64) ^ n + (2 ^ 64) ^ n * k := by
            calc (2 ^ 64) ^ n * 2 ^ 64 = (2 ^ 64) ^ n * (hi.toNat + 1 + k) := by rw [← hk]
              _ = _ := by ring
          omega
        have hsmall : (2 ^ 64) ^ n - lo.toNat + (2 ^ 64) ^ n * (2 ^ 64 - 1 - hi.toNat)
            < (2 ^ 64) ^ n * 2 ^ 64 := by
          rw [← hsplit]
          have htop : 0 < (2 ^ 64) ^ n * 2 ^ 64 := by positivity
          omega
        rw [if_neg hzero, if_neg hzero, hnot, hsplit, Nat.mod_eq_of_lt hsmall]

/-- A shift that leaves the lowest bits at the top. -/
theorem toNat_shiftLeft_top (limb : Limb) (shift : ℕ) (hshift : shift ≤ 64) :
    (limb <<< (64 - shift)).toNat = 2 ^ (64 - shift) * (limb.toNat % 2 ^ shift) := by
  have hsplit : (2 : ℕ) ^ 64 = 2 ^ (64 - shift) * 2 ^ shift := by
    rw [← pow_add, Nat.sub_add_cancel hshift]
  rw [BitVec.toNat_shiftLeft, Nat.shiftLeft_eq, hsplit, Nat.mul_comm, Nat.mul_mod_mul_left]

/-- The shift of one limb: what comes in and goes out stands at the top of a
    word. -/
theorem toNat_shrStep (shift : ℕ) (hshift : shift ≤ 64) (carry limb : Limb)
    (h : 2 ^ (64 - shift) ∣ carry.toNat) :
    2 ^ shift * (Limb.shrStep shift carry limb).1.toNat
          + (Limb.shrStep shift carry limb).2.toNat / 2 ^ (64 - shift)
        = limb.toNat + 2 ^ 64 * (carry.toNat / 2 ^ (64 - shift)) ∧
      2 ^ (64 - shift) ∣ (Limb.shrStep shift carry limb).2.toNat := by
  have hlt := limb.isLt
  have hsplit : (2 : ℕ) ^ 64 = 2 ^ shift * 2 ^ (64 - shift) := by
    rw [← pow_add, Nat.add_sub_cancel' hshift]
  have hpos : 0 < 2 ^ shift := by positivity
  have htop : 0 < 2 ^ (64 - shift) := by positivity
  have hsmall : limb.toNat / 2 ^ shift < 2 ^ (64 - shift) := by
    rw [Nat.div_lt_iff_lt_mul hpos, Nat.mul_comm, ← hsplit]
    exact hlt
  rcases h with ⟨c, hc⟩
  -- The carry has nothing below its top bits, so joining it adds it.
  have hor : (limb >>> shift ||| carry).toNat = 2 ^ (64 - shift) * c + limb.toNat / 2 ^ shift := by
    rw [BitVec.or_comm, BitVec.toNat_or, BitVec.toNat_ushiftRight, Nat.shiftRight_eq_div_pow, hc]
    exact (Nat.two_pow_add_eq_or_of_lt hsmall c).symm
  unfold Limb.shrStep
  rw [toNat_shiftLeft_top limb shift hshift, hor, hc, Nat.mul_div_cancel_left _ htop,
    Nat.mul_div_cancel_left _ htop]
  refine ⟨?_, Dvd.intro _ rfl⟩
  have hdiv := Nat.div_add_mod limb.toNat (2 ^ shift)
  rw [Nat.mul_add, ← Nat.mul_assoc, ← hsplit]
  omega

/-- Bits put in at the top could as well have been carried in. -/
theorem bitorLast_shrVartime (a : Uint n) (shift : ℕ) (limb : Limb) :
    ((a.shrVartime shift).bitorLast limb).limbs
      = (sweepDown (Limb.shrStep shift) limb a.limbs).1 := by
  have hlist : ∀ l : List Limb,
      (sweepDown (Limb.shrStep shift) 0 l).1.modify (l.length - 1) (fun last => last ||| limb)
        = (sweepDown (Limb.shrStep shift) limb l).1 := by
    intro l
    induction l with
    | nil => rfl
    | cons x l ih =>
        cases l with
        | nil =>
            simp [sweepDown, Limb.shrStep]
        | cons y l =>
            -- What goes out of the limbs above is cut off the lowest of them.
            have hcons : ∀ s, (sweepDown (Limb.shrStep shift) s (x :: y :: l)).1
                = (x >>> shift ||| y <<< (64 - shift)) ::
                  (sweepDown (Limb.shrStep shift) s (y :: l)).1 := fun _ => rfl
            rw [List.length_cons, Nat.add_sub_cancel] at ih ⊢
            rw [hcons, hcons, List.length_cons, List.modify_succ_cons, ih]
  have h := hlist a.limbs
  rw [a.length_limbs] at h
  exact h

/-- The shift divides. -/
theorem wide_shrInPlaceWide (lo : Uint n) (hi : Limb) (shift : ℕ) (hshift : shift ≤ 64) :
    wide (shrInPlaceWide lo hi shift).1 (shrInPlaceWide lo hi shift).2
      = wide lo hi / 2 ^ shift := by
  have hsplit : (2 : ℕ) ^ 64 = 2 ^ shift * 2 ^ (64 - shift) := by
    rw [← pow_add, Nat.add_sub_cancel' hshift]
  have htop : 0 < 2 ^ (64 - shift) := by positivity
  have hpos : 0 < 2 ^ shift := by positivity
  have hcopy := toNat_shiftLeft_top hi shift hshift
  rcases sweepDown_div (Limb.shrStep shift) (2 ^ shift) (2 ^ 64) BitVec.toNat BitVec.toNat
    (fun carry => carry.toNat / 2 ^ (64 - shift)) (fun carry => 2 ^ (64 - shift) ∣ carry.toNat)
    (fun carry limb h => (toNat_shrStep shift hshift carry limb h).2)
    (fun carry limb h => (toNat_shrStep shift hshift carry limb h).1)
    (hi <<< (64 - shift)) (hcopy ▸ Dvd.intro _ rfl) lo.limbs with ⟨_, hdiv⟩
  have hin : Nat.ofDigits (2 ^ 64) (lo.limbs.map BitVec.toNat) = lo.toNat := rfl
  have hout : Nat.ofDigits (2 ^ 64) ((sweepDown (Limb.shrStep shift) (hi <<< (64 - shift))
      lo.limbs).1.map BitVec.toNat) = (shrInPlaceWide lo hi shift).1.toNat := by
    unfold shrInPlaceWide Uint.toNat
    rw [bitorLast_shrVartime]
    rfl
  have hhi : (shrInPlaceWide lo hi shift).2.toNat = hi.toNat / 2 ^ shift := by
    unfold shrInPlaceWide
    rw [BitVec.toNat_ushiftRight, Nat.shiftRight_eq_div_pow]
  -- What falls out at the bottom is less than what is divided by.
  have hrest : (sweepDown (Limb.shrStep shift) (hi <<< (64 - shift)) lo.limbs).2.toNat
      / 2 ^ (64 - shift) < 2 ^ shift := by
    rw [Nat.div_lt_iff_lt_mul htop, ← hsplit]
    exact BitVec.isLt _
  rw [hin, hout, lo.length_limbs, hcopy, Nat.mul_div_cancel_left _ htop] at hdiv
  generalize (sweepDown (Limb.shrStep shift) (hi <<< (64 - shift)) lo.limbs).2.toNat
    / 2 ^ (64 - shift) = rest at hdiv hrest
  have hhalves := Nat.div_add_mod hi.toNat (2 ^ shift)
  unfold wide
  rw [hhi]
  symm
  refine (Nat.div_eq_iff hpos).mpr ?_
  have htotal : lo.toNat + (2 ^ 64) ^ n * hi.toNat
      = 2 ^ shift * ((shrInPlaceWide lo hi shift).1.toNat
          + (2 ^ 64) ^ n * (hi.toNat / 2 ^ shift)) + rest := by
    calc lo.toNat + (2 ^ 64) ^ n * hi.toNat
        = lo.toNat
          + (2 ^ 64) ^ n * (2 ^ shift * (hi.toNat / 2 ^ shift) + hi.toNat % 2 ^ shift) := by
          rw [hhalves]
      _ = lo.toNat + (2 ^ 64) ^ n * (hi.toNat % 2 ^ shift)
          + 2 ^ shift * ((2 ^ 64) ^ n * (hi.toNat / 2 ^ shift)) := by ring
      _ = _ := by rw [← hdiv]; ring
  rw [htotal, Nat.mul_comm]
  omega

/-- The difference of wide integers, with what is borrowed. -/
theorem wide_borrowingSub (x y : Uint n) (xHi yHi : Limb) :
    wide (x.borrowingSub y 0).1 (Limb.borrowingSub xHi yHi (x.borrowingSub y 0).2).1 + wide y yHi
      = wide x xHi + (2 ^ 64) ^ n * 2 ^ 64
          * Limb.borrowBit (Limb.borrowingSub xHi yHi (x.borrowingSub y 0).2).2 := by
  have hlo := Uint.toNat_borrowingSub x y 0 (Or.inl rfl)
  have hhi := Limb.toNat_borrowingSub xHi yHi _ (Uint.isMask_borrowingSub x y 0 (Or.inl rfl))
  have hzero : Limb.borrowBit 0 = 0 := by decide
  rw [hzero, Nat.add_zero] at hlo
  unfold wide
  linear_combination hlo + (2 ^ 64) ^ n * hhi

/-- A mask is nonzero if its bit is set. -/
theorem isNonzero_of_isMask (borrow : Limb) (h : Limb.IsMask borrow) :
    Limb.isNonzero borrow = Limb.lsbToChoice borrow := by
  rcases h with h | h
  · rw [h]; decide
  · rw [h]; decide

/-- A magnitude with a sign. -/
def signed (sign : Choice) (k : ℕ) : ℤ := if sign then -(k : ℤ) else k

theorem signed_mul (s t : Choice) (j k : ℕ) :
    signed (s ^^ t) (j * k) = signed s j * signed t k := by
  unfold signed
  cases s <;> cases t <;> simp

/-- A sign does not matter for congruence. -/
theorem signed_modEq (s : Choice) {m j k : ℕ} (h : j ≡ k [MOD m]) :
    signed s j ≡ signed s k [ZMOD m] := by
  have hint := Int.natCast_modEq_iff.mpr h
  unfold signed
  cases s with
  | false => simpa using hint
  | true => simpa using hint.neg

/-- A difference that changes its sign with its order. -/
theorem signed_sub (s bit : Choice) (X M : ℕ) (horder : if bit then X < M else M ≤ X) :
    signed (s ^^ bit) (if bit then M - X else X - M) = signed s X - signed s M := by
  unfold signed
  cases bit with
  | false =>
      simp only [Bool.false_eq_true, if_false] at horder ⊢
      cases s with
      | false =>
          simp
          omega
      | true =>
          simp
          omega
  | true =>
      simp only [if_true] at horder ⊢
      cases s with
      | false =>
          simp
          omega
      | true =>
          simp
          omega

theorem natAbs_signed (sign : Choice) (k : ℕ) : (signed sign k).natAbs = k := by
  unfold signed
  cases sign <;> simp

theorem signed_zero (sign : Choice) : signed sign 0 = 0 := by
  unfold signed
  cases sign <;> simp

theorem signed_two_pow_mul (sign : Choice) (shift k : ℕ) :
    signed sign (2 ^ shift * k) = 2 ^ shift * signed sign k := by
  unfold signed
  cases sign <;> simp

/-- The integer. -/
def SignedInt.toInt (a : SignedInt n) : ℤ := signed a.sign a.magnitude.toNat

theorem SignedInt.abs_toInt (a : SignedInt n) : |a.toInt| = a.magnitude.toNat := by
  rw [Int.abs_eq_natAbs]
  exact congrArg _ (natAbs_signed _ _)

/-- The absolute value and the sign of a word. -/
theorem absSign_spec (word : Limb) :
    signed (absSign word).2 (absSign word).1.toNat = word.toInt ∧
      (absSign word).1.toNat ≤ 2 ^ 63 := by
  have hlt := word.isLt
  unfold absSign signed
  simp only [Limb.select_eq, BitVec.msb_eq_decide]
  rw [BitVec.toInt_eq_toNat_cond]
  by_cases h : 2 ^ (64 - 1) ≤ word.toNat
  · rw [decide_eq_true h, if_pos rfl, if_pos rfl, BitVec.toNat_neg, if_neg (by omega)]
    omega
  · rw [decide_eq_false h, if_neg (by decide), if_neg (by decide), if_pos (by omega)]
    omega

/-- Subtracting a negative adds, modulo the range `M`. -/
theorem add_of_sub_neg (M X Y W : ℕ) (bit : Bool) (hsum : X + Y < M) (hW : W < M)
    (h : W + (M - Y) % M = X + M * bit.toNat) : W = X + Y := by
  -- The negative of zero is zero and not `M`.
  by_cases hY : Y = 0
  · subst hY
    rw [Nat.sub_zero, Nat.mod_self] at h
    cases bit with
    | false => simpa using h
    | true =>
        rw [Bool.toNat_true] at h
        omega
  · rw [Nat.mod_eq_of_lt (by omega)] at h
    cases bit with
    | false =>
        rw [Bool.toNat_false] at h
        omega
    | true =>
        rw [Bool.toNat_true] at h
        omega

/-- The difference, by its size and its sign. -/
theorem abs_of_sub (M X Y W : ℕ) (bit : Bool) (hY : Y < M)
    (h : W + Y = X + M * bit.toNat) (hW : W < M) :
    (if bit then (M - W) % M else W) = (if bit then Y - X else X - Y) ∧
      (if bit then X < Y else Y ≤ X) := by
  cases bit with
  | false =>
      rw [Bool.toNat_false] at h
      simp
      omega
  | true =>
      rw [Bool.toNat_true] at h
      simp only [if_true]
      rw [Nat.mod_eq_of_lt (by omega)]
      omega

/-- Signed magnitudes, combined by a subtraction modulo `M`: two of one sign are
    added, and of two signs the larger magnitude decides. -/
theorem signed_combine (M X Y W : ℕ) (bit : Bool) (xNeg yNeg : Choice) (hsum : X + Y < M)
    (hW : W < M)
    (h : W + (if !(xNeg ^^ yNeg) then (M - Y) % M else Y) = X + M * bit.toNat) :
    signed ((xNeg && !(bit && (xNeg ^^ yNeg))) || (yNeg && (bit && (xNeg ^^ yNeg))))
        (if bit && (xNeg ^^ yNeg) then (M - W) % M else W)
      = signed xNeg X + signed yNeg Y := by
  by_cases hsame : xNeg = yNeg
  · subst hsame
    simp only [Bool.xor_self, Bool.not_false, if_true] at h
    have hadd := add_of_sub_neg M X Y W bit hsum hW h
    -- The flag is never set here, so nothing is swapped.
    simp only [Bool.xor_self, Bool.and_false, Bool.not_false, Bool.and_true, Bool.or_false,
      Bool.false_eq_true, if_false]
    rw [hadd]
    unfold signed
    cases xNeg with
    | false => simp
    | true =>
        simp
        ring
  · have hother : yNeg = !xNeg := by
      cases xNeg <;> cases yNeg <;> simp_all
    subst hother
    have htrue : (xNeg ^^ !xNeg) = true := by cases xNeg <;> rfl
    rw [htrue] at h ⊢
    rw [Bool.not_true, if_neg (by decide)] at h
    rcases abs_of_sub M X Y W bit (by omega) h hW with ⟨hsize, horder⟩
    rw [Bool.and_true, hsize]
    unfold signed
    -- A borrow says that the second magnitude is larger, and its sign is taken.
    cases bit with
    | false =>
        simp only [Bool.false_eq_true, if_false] at horder ⊢
        cases xNeg with
        | false =>
            simp
            omega
        | true =>
            simp
            omega
    | true =>
        simp only [if_true] at horder ⊢
        cases xNeg with
        | false =>
            simp
            omega
        | true =>
            simp
            omega

/-- The core of the combination: two wide integers that leave a bit free, added
    or subtracted according to their signs. -/
theorem combine_spec (x y : Uint n) (xHi yHi : Limb) (xNeg yNeg : Choice) (oddNeg : Choice)
    (hodd : oddNeg = (xNeg ^^ yNeg)) (hsum : wide x xHi + wide y yHi < (2 ^ 64) ^ n * 2 ^ 64) :
    let y' := conditionalNegateInPlaceWide y yHi (!oddNeg)
    let lo := x.borrowingSub y'.1 0
    let hi := Limb.borrowingSub xHi y'.2 lo.2
    let swap := Limb.isNonzero hi.2 && oddNeg
    let r := conditionalNegateInPlaceWide lo.1 hi.1 swap
    signed ((xNeg && !swap) || (yNeg && swap)) (wide r.1 r.2)
      = signed xNeg (wide x xHi) + signed yNeg (wide y yHi) := by
  intro y' lo hi swap r
  have hy' : wide y'.1 y'.2 = _ := wide_negate y yHi (!oddNeg)
  have hsub : wide lo.1 hi.1 + wide y'.1 y'.2 = _ := wide_borrowingSub x y'.1 xHi y'.2
  have hr : wide r.1 r.2 = _ := wide_negate lo.1 hi.1 swap
  have hmask : Limb.isNonzero hi.2 = Limb.lsbToChoice hi.2 :=
    isNonzero_of_isMask _ (Limb.isMask_borrowingSub _ _ _)
  have hswap : swap = (Limb.lsbToChoice hi.2 && oddNeg) := by rw [← hmask]
  have hbit : Limb.borrowBit hi.2 = (Limb.lsbToChoice hi.2).toNat := rfl
  change _ = wide x xHi + (2 ^ 64) ^ n * 2 ^ 64 * Limb.borrowBit hi.2 at hsub
  rw [hbit, hy', hodd] at hsub
  rw [hr, hswap, hodd]
  exact signed_combine _ _ _ _ _ xNeg yNeg hsum (wide_lt lo.1 hi.1) hsub

namespace SignedInt

/-- A product with a word leaves a bit of the limb above free. -/
theorem product_le (a : SignedInt n) (word : Limb) :
    2 * (a.magnitude.toNat * (absSign word).1.toNat) + 2 ^ 64 ≤ (2 ^ 64) ^ n * 2 ^ 64 := by
  have hlt := a.magnitude.toNat_lt
  have hword := (absSign_spec word).2
  have hprod : a.magnitude.toNat * (absSign word).1.toNat ≤ ((2 ^ 64) ^ n - 1) * 2 ^ 63 :=
    Nat.mul_le_mul (by omega) hword
  have hpos : 0 < (2 ^ 64) ^ n := by positivity
  have hsplit : ((2 ^ 64) ^ n - 1) * 2 ^ 63 + 2 ^ 63 = (2 ^ 64) ^ n * 2 ^ 63 := by
    rw [← Nat.succ_mul, Nat.succ_eq_add_one, Nat.sub_add_cancel hpos]
  omega

/-- The sum of two products is exact. -/
theorem lincombInt_spec (a b : SignedInt n) (c d : Limb) :
    signed (lincombInt a b c d).2.2 (wide (lincombInt a b c d).1 (lincombInt a b c d).2.1)
      = c.toInt * a.toInt + d.toInt * b.toInt := by
  have hx := wide_wideningMul a.magnitude (absSign c).1
  have hy := wide_wideningMul b.magnitude (absSign d).1
  have hxle := product_le a c
  have hyle := product_le b d
  have hcombine := combine_spec (a.magnitude.wideningMul (absSign c).1).1
    (b.magnitude.wideningMul (absSign d).1).1 (a.magnitude.wideningMul (absSign c).1).2
    (b.magnitude.wideningMul (absSign d).1).2 (a.sign ^^ (absSign c).2) (b.sign ^^ (absSign d).2)
    _ rfl (by rw [hx, hy]; omega)
  refine Eq.trans hcombine ?_
  rw [hx, hy, signed_mul, signed_mul, (absSign_spec c).1, (absSign_spec d).1]
  unfold toInt
  ring

/-- The wide integer of a sum of two products is its absolute value. -/
theorem wide_lincombInt (a b : SignedInt n) (c d : Limb) :
    wide (lincombInt a b c d).1 (lincombInt a b c d).2.1
      = (c.toInt * a.toInt + d.toInt * b.toInt).natAbs := by
  rw [← lincombInt_spec, natAbs_signed]

/-- The sum of two products that is divisible, divided. -/
theorem toInt_lincombIntReduceShift (a b : SignedInt n) (c d : Limb) (shift : ℕ)
    (hshift : shift ≤ 64) (q : ℤ) (hq : 2 ^ shift * q = c.toInt * a.toInt + d.toInt * b.toInt)
    (hfits : q.natAbs < (2 ^ 64) ^ n) :
    (lincombIntReduceShift a b c d shift).toInt = q := by
  have hspec := lincombInt_spec a b c d
  have hshr := wide_shrInPlaceWide (lincombInt a b c d).1 (lincombInt a b c d).2.1 shift hshift
  rw [wide_lincombInt, ← hq, Int.natAbs_mul, Int.natAbs_pow] at hshr
  have habs : (2 : ℤ).natAbs = 2 := rfl
  rw [habs, Nat.mul_div_cancel_left _ (by positivity)] at hshr
  -- The limb above is empty after the shift.
  have hlow := (wide_parts (shrInPlaceWide (lincombInt a b c d).1 (lincombInt a b c d).2.1
    shift).1 (shrInPlaceWide (lincombInt a b c d).1 (lincombInt a b c d).2.1 shift).2).1
  rw [hshr, Nat.mod_eq_of_lt hfits] at hlow
  rw [wide_lincombInt, ← hq] at hspec
  have hresult : (lincombIntReduceShift a b c d shift).toInt
      = signed (lincombInt a b c d).2.2 (shrInPlaceWide (lincombInt a b c d).1
          (lincombInt a b c d).2.1 shift).1.toNat := rfl
  rw [hresult, hlow]
  rw [Int.natAbs_mul, Int.natAbs_pow, habs] at hspec
  have hpow : (2 : ℤ) ^ shift ≠ 0 := by positivity
  apply mul_left_cancel₀ hpow
  rw [← hspec]
  unfold signed
  cases (lincombInt a b c d).2.2 with
  | false => simp
  | true => simp

/-- The low bits of a word. -/
theorem toNat_mask (word : Limb) (shift : ℕ) (hshift : shift ≤ 64) :
    (word &&& (BitVec.allOnes 64 >>> (64 - shift))).toNat = word.toNat % 2 ^ shift := by
  have hmask : (BitVec.allOnes 64 >>> (64 - shift)).toNat = 2 ^ shift - 1 := by
    rw [BitVec.toNat_ushiftRight, BitVec.toNat_allOnes, Nat.shiftRight_eq_div_pow]
    have hsplit : (2 : ℕ) ^ 64 = 2 ^ (64 - shift) * 2 ^ shift := by
      rw [← pow_add, Nat.sub_add_cancel hshift]
    have hpos : 0 < 2 ^ shift := by positivity
    have htop : 0 < 2 ^ (64 - shift) := by positivity
    rw [Nat.div_eq_iff htop, hsplit, Nat.sub_mul, Nat.mul_comm (2 ^ shift), Nat.one_mul]
    have hle : 2 ^ (64 - shift) * 1 ≤ 2 ^ (64 - shift) * 2 ^ shift := Nat.mul_le_mul_left _ hpos
    omega
  rw [BitVec.toNat_and, hmask, Nat.and_two_pow_sub_one_eq_mod]

/-- The lowest limb of an integer. -/
theorem toNat_headD (a : Uint n) : (a.limbs.headD 0).toNat = a.toNat % 2 ^ 64 := by
  unfold Uint.toNat
  cases h : a.limbs with
  | nil => rfl
  | cons x l =>
      have hlt := x.isLt
      rw [value_cons, List.headD_cons, Nat.add_mul_mod_self_left, Nat.mod_eq_of_lt hlt]

/-- The multiple of the modulus that agrees with a number on its low bits. -/
theorem clearing_multiple (x : ℕ) (low mi : Limb) (m shift : ℕ) (hshift : shift ≤ 64)
    (hlow : low.toNat = x % 2 ^ 64) (hmi : m * mi.toNat % 2 ^ 64 = 1) :
    let mf := low * mi &&& (BitVec.allOnes 64 >>> (64 - shift))
    mf.toNat < 2 ^ shift ∧ m * mf.toNat ≡ x [MOD 2 ^ shift] := by
  intro mf
  have hmf : mf.toNat = low.toNat * mi.toNat % 2 ^ 64 % 2 ^ shift := by
    rw [toNat_mask _ _ hshift, BitVec.toNat_mul]
  have hdvd : 2 ^ shift ∣ 2 ^ 64 := pow_dvd_pow 2 hshift
  rw [hmf]
  refine ⟨Nat.mod_lt _ (by positivity), ?_⟩
  rw [Nat.mod_mod_of_dvd _ hdvd]
  have hone : m * mi.toNat ≡ 1 [MOD 2 ^ 64] := hmi
  have hx : low.toNat ≡ x [MOD 2 ^ 64] := by
    rw [hlow]
    exact Nat.mod_modEq _ _
  calc m * (low.toNat * mi.toNat % 2 ^ shift)
      ≡ m * (low.toNat * mi.toNat) [MOD 2 ^ shift] :=
        (Nat.mod_modEq _ _).mul_left m
    _ = m * mi.toNat * low.toNat := by ring
    _ ≡ 1 * x [MOD 2 ^ shift] := (hone.mul hx).of_dvd hdvd
    _ = x := Nat.one_mul x

/-- The difference of two numbers that agree on their low bits, shifted. -/
theorem quotient_spec (X M m shift : ℕ) (bit : Bool) (hX : X ≤ 2 ^ shift * m)
    (hM : M ≤ 2 ^ shift * m) (hcong : M ≡ X [MOD 2 ^ shift])
    (horder : if bit then X < M else M ≤ X) :
    (if bit then M - X else X - M) / 2 ^ shift ≤ m ∧
      2 ^ shift * ((if bit then M - X else X - M) / 2 ^ shift)
        = if bit then M - X else X - M := by
  cases bit with
  | false =>
      simp only [Bool.false_eq_true, if_false] at horder ⊢
      have hdvd := (Nat.modEq_iff_dvd' horder).mp hcong
      exact ⟨Nat.div_le_of_le_mul (by omega), Nat.mul_div_cancel' hdvd⟩
  | true =>
      simp only [if_true] at horder ⊢
      have hdvd := (Nat.modEq_iff_dvd' horder.le).mp hcong.symm
      exact ⟨Nat.div_le_of_le_mul (by omega), Nat.mul_div_cancel' hdvd⟩

/-- What is done to a sum of two products: the multiple of the modulus is
    subtracted, and the difference is shifted and reduced. -/
theorem reduceShiftMod_spec (x : Uint n) (xHi : Limb) (sign : Choice) (shift : ℕ)
    (hshift : shift ≤ 64) (m : Uint n) (mi : Limb) (hmi : m.toNat * mi.toNat % 2 ^ 64 = 1)
    (hm : 0 < m.toNat) (hbound : wide x xHi ≤ 2 ^ shift * m.toNat) :
    let mf := x.limbs.headD 0 * mi &&& (BitVec.allOnes 64 >>> (64 - shift))
    let xa := m.wideningMul mf
    let lo := x.borrowingSub xa.1 0
    let hi := Limb.borrowingSub xHi xa.2 lo.2
    let swap := Limb.isNonzero hi.2
    let neg := conditionalNegateInPlaceWide lo.1 hi.1 swap
    let shr := shrInPlaceWide neg.1 neg.2 shift
    let r := (shr.1.trySubWithCarry shr.2 m).1
    r.toNat < m.toNat ∧
      2 ^ shift * signed (sign ^^ swap) r.toNat ≡ signed sign (wide x xHi) [ZMOD m.toNat] := by
  intro mf xa lo hi swap neg shr r
  have hmlt := m.toNat_lt
  have hn : n ≠ 0 := m.ne_zero_of_pos (by omega)
  have hxa : wide xa.1 xa.2 = m.toNat * mf.toNat := wide_wideningMul m mf
  -- The lowest limb is that of the wide integer.
  have hlow : (x.limbs.headD 0).toNat = wide x xHi % 2 ^ 64 := by
    have hdvd : 2 ^ 64 ∣ (2 ^ 64) ^ n := dvd_pow_self _ hn
    rw [toNat_headD]
    unfold wide
    rw [Nat.add_mod, Nat.mod_eq_zero_of_dvd (Dvd.dvd.mul_right hdvd _), Nat.add_zero, Nat.mod_mod]
  rcases clearing_multiple (wide x xHi) _ mi m.toNat shift hshift hlow hmi with ⟨hmf, hcong⟩
  change mf.toNat < _ at hmf
  change m.toNat * mf.toNat ≡ _ [MOD _] at hcong
  -- The multiple is below the modulus times the power of two, as the integer is.
  have hM : m.toNat * mf.toNat ≤ 2 ^ shift * m.toNat := by
    rw [Nat.mul_comm]
    exact Nat.mul_le_mul_right _ hmf.le
  have hsub : wide lo.1 hi.1 + wide xa.1 xa.2 = _ := wide_borrowingSub x xa.1 xHi xa.2
  have hbit : swap = Limb.lsbToChoice hi.2 :=
    isNonzero_of_isMask _ (Limb.isMask_borrowingSub _ _ _)
  change _ = wide x xHi + (2 ^ 64) ^ n * 2 ^ 64 * (Limb.lsbToChoice hi.2).toNat at hsub
  rw [← hbit, hxa] at hsub
  have hMlt : m.toNat * mf.toNat < (2 ^ 64) ^ n * 2 ^ 64 := by
    rw [← hxa]
    exact wide_lt _ _
  rcases abs_of_sub _ _ _ _ swap hMlt hsub (wide_lt _ _) with ⟨hsize, horder⟩
  have hneg : wide neg.1 neg.2 = _ := wide_negate lo.1 hi.1 swap
  have hshr : wide shr.1 shr.2 = _ := wide_shrInPlaceWide neg.1 neg.2 shift hshift
  rw [hneg, hsize] at hshr
  rcases quotient_spec (wide x xHi) (m.toNat * mf.toNat) m.toNat shift swap hbound hM hcong horder
    with ⟨hle, hdiv⟩
  rw [← hshr] at hle hdiv
  -- No limb is left above, so the last step is a subtraction of the modulus.
  rcases wide_parts shr.1 shr.2 with ⟨hpart, htop⟩
  rw [Nat.div_eq_of_lt (by omega)] at htop
  rw [Nat.mod_eq_of_lt (by omega)] at hpart
  have htry := (Uint.toNat_trySubWithCarry shr.1 shr.2 m (by omega) (by rw [htop]; omega)).1
  rw [htop, Nat.mul_zero, Nat.add_zero, hpart] at htry
  change r.toNat = _ at htry
  refine ⟨?_, ?_⟩
  · rw [htry]
    exact Montgomery.condSub_lt _ (by omega)
  · have hcond : r.toNat ≡ wide shr.1 shr.2 [MOD m.toNat] := by
      rw [htry]
      exact Montgomery.condSub_modEq _ _
    have hmultiple : m.toNat * mf.toNat ≡ 0 [MOD m.toNat] :=
      (Nat.modEq_zero_iff_dvd).mpr (Dvd.intro _ rfl)
    calc 2 ^ shift * signed (sign ^^ swap) r.toNat
        ≡ 2 ^ shift * signed (sign ^^ swap) (wide shr.1 shr.2) [ZMOD m.toNat] :=
          (signed_modEq _ hcond).mul_left _
      _ = signed (sign ^^ swap) (2 ^ shift * wide shr.1 shr.2) := by
          rw [← signed_two_pow_mul]
      _ = signed sign (wide x xHi) - signed sign (m.toNat * mf.toNat) := by
          rw [hdiv, signed_sub _ _ _ _ horder]
      _ ≡ signed sign (wide x xHi) - signed sign 0 [ZMOD m.toNat] :=
          (Int.ModEq.refl _).sub (signed_modEq sign hmultiple)
      _ = signed sign (wide x xHi) := by
          rw [signed_zero, sub_zero]

/-- The sum of two products, divided modulo a number. The magnitude stays below
    the modulus. -/
theorem lincombIntReduceShiftMod_spec (a b : SignedInt n) (c d : Limb) (shift : ℕ)
    (hshift : shift ≤ 64) (m : Uint n) (mi : Limb) (hmi : m.toNat * mi.toNat % 2 ^ 64 = 1)
    (hm : 0 < m.toNat)
    (hbound : (c.toInt * a.toInt + d.toInt * b.toInt).natAbs ≤ 2 ^ shift * m.toNat) :
    (lincombIntReduceShiftMod a b c d shift m mi).magnitude.toNat < m.toNat ∧
      2 ^ shift * (lincombIntReduceShiftMod a b c d shift m mi).toInt
        ≡ c.toInt * a.toInt + d.toInt * b.toInt [ZMOD m.toNat] := by
  rw [← wide_lincombInt] at hbound
  have hspec := reduceShiftMod_spec (lincombInt a b c d).1 (lincombInt a b c d).2.1
    (lincombInt a b c d).2.2 shift hshift m mi hmi hm hbound
  rw [← lincombInt_spec]
  exact hspec

theorem isNonzero_eq (a : SignedInt n) : a.isNonzero = !decide (a.magnitude.toNat = 0) := by
  have hzero := Uint.isZero_iff a.magnitude
  unfold isNonzero
  unfold Uint.isZero at hzero
  cases hbit : a.magnitude.isNonzero with
  | false =>
      rw [hbit] at hzero
      rw [decide_eq_true (hzero.mp rfl)]
      rfl
  | true =>
      rw [hbit] at hzero
      rw [decide_eq_false (fun h => by simpa using hzero.mpr h)]
      rfl

/-- The residue of a number below the modulus, or of its negative. -/
theorem norm_spec (a : SignedInt n) (fSign : Choice) (m : Uint n)
    (h : a.magnitude.toNat < m.toNat) :
    (a.norm fSign m).toNat < m.toNat ∧
      ((a.norm fSign m).toNat : ℤ) ≡ signed fSign 1 * a.toInt [ZMOD m.toNat] := by
  have hsub := (Uint.borrowingSub_zero m a.magnitude).2
  have hmul := signed_mul fSign a.sign 1 a.magnitude.toNat
  have hint : a.toInt = signed a.sign a.magnitude.toNat := rfl
  rw [if_neg (by omega)] at hsub
  rw [hint, ← hmul, Nat.one_mul]
  unfold norm
  rw [Uint.select_eq, isNonzero_eq]
  by_cases hzero : a.magnitude.toNat = 0
  · rw [decide_eq_true hzero, Bool.not_true, Bool.and_false, if_neg (by decide), hzero, signed_zero]
    exact ⟨by omega, Int.ModEq.refl _⟩
  · rw [decide_eq_false hzero, Bool.not_false, Bool.and_true]
    unfold signed
    cases fSign ^^ a.sign with
    | false =>
        simp only [Bool.false_eq_true, if_false]
        exact ⟨h, Int.ModEq.refl _⟩
    | true =>
        simp only [if_true]
        rw [hsub]
        refine ⟨by omega, (Int.modEq_iff_dvd).mpr ?_⟩
        rw [Nat.cast_sub h.le]
        exact ⟨-1, by ring⟩

/-- The low bits of a number with a sign. -/
theorem lowest_modEq (a : SignedInt n) : a.lowest.toInt ≡ a.toInt [ZMOD 2 ^ 63] := by
  have hmag : (a.magnitude.limbs.headD 0 &&& (BitVec.allOnes 64 >>> 1)).toNat
      = a.magnitude.toNat % 2 ^ 63 := by
    have hmask := toNat_mask (a.magnitude.limbs.headD 0) 63 (by decide)
    have hdvd : 2 ^ 63 ∣ 2 ^ 64 := pow_dvd_pow 2 (by decide)
    rw [toNat_headD, Nat.mod_mod_of_dvd _ hdvd] at hmask
    exact hmask
  have hlowest : a.lowest.toInt = signed a.sign (a.magnitude.toNat % 2 ^ 63) := by
    have hlt : a.magnitude.toNat % 2 ^ 63 < 2 ^ 63 := Nat.mod_lt _ (by decide)
    unfold lowest signed
    simp only [Limb.select_eq]
    cases a.sign with
    | false =>
        simp only [Bool.false_eq_true, if_false]
        rw [BitVec.toInt_eq_toNat_cond, hmag, if_pos (by omega)]
    | true =>
        simp only [if_true]
        rw [BitVec.toInt_eq_toNat_cond, BitVec.toNat_neg, hmag]
        split
        · omega
        · omega
  rw [hlowest]
  exact signed_modEq a.sign (Nat.mod_modEq _ _)

/-- Whether the magnitude is zero. -/
theorem isZeroVartime_iff (a : SignedInt n) : a.isZeroVartime = true ↔ a.toInt = 0 := by
  have hint : a.toInt = 0 ↔ a.magnitude.toNat = 0 := by
    rw [← natAbs_signed a.sign a.magnitude.toNat, Int.natAbs_eq_zero]
    rfl
  unfold isZeroVartime
  rw [hint, Uint.toNat_eq_zero_iff, List.all_eq_true]
  simp

end SignedInt

end Ed301
