import Ed301.Refine.MontyForm
import Ed301.Refine.SignedInt
import Ed301.Theory.Contraction

/-!
# Division Steps on Words

The steps of the library against division steps on integers.

A word step sees the low bits of two long numbers and gets everything right but
their top bits: sums wrap around and the shift keeps the sign, so what is left
is right modulo a power of two that goes down by one with each step. The
counter and the matrix are exact, since they stay small. With the matrix of 62
steps the long numbers follow exactly, and the coefficients follow modulo the
modulus.

## Main definitions

* `Safegcd.wordState`, `Safegcd.wordMatrix`: What the words stand for.
* `Safegcd.startState`, `Safegcd.lastNumber`: Where the steps begin and end.
* `Safegcd.Tracks`: Long numbers that stand for a state.
* `Safegcd.Solves`: Coefficients that express the numbers by the input.

## Theorems

* `Safegcd.jumpStep_eq`: The two versions of a step agree on all words.
* `Safegcd.jumpStep_agree`: A step on words is right up to the top bit.
* `Safegcd.jump_spec`: Steps on the low words give the counter and the matrix.
* `Safegcd.tracks_gcdBatch`: The long numbers follow the steps.
* `Safegcd.solves_updateDe`: The coefficients follow the numbers.
* `Safegcd.batches_spec`: The loop takes all steps, or stops at zero.
-/

namespace Ed301

open Limbs

variable {n : ℕ}

namespace Safegcd

/-- The sign of a word, spread over a word. -/
theorem toInt_sshiftRight_sign (word : Limb) :
    word.sshiftRight 63 = if word.msb then BitVec.allOnes 64 else 0 := by
  have hlt := word.isLt
  cases hmsb : word.msb with
  | false =>
      rw [BitVec.sshiftRight_eq_of_msb_false hmsb, if_neg (by decide)]
      have hsmall := BitVec.msb_eq_false_iff_two_mul_lt.mp hmsb
      apply BitVec.eq_of_toNat_eq
      rw [BitVec.toNat_ushiftRight, Nat.shiftRight_eq_div_pow, Nat.div_eq_of_lt (by omega)]
      rfl
  | true =>
      rw [BitVec.sshiftRight_eq_of_msb_true hmsb, if_pos rfl]
      have hlarge := BitVec.msb_eq_true_iff_two_mul_ge.mp hmsb
      have hnot : ~~~word >>> 63 = 0 := by
        apply BitVec.eq_of_toNat_eq
        rw [BitVec.toNat_ushiftRight, BitVec.toNat_not, Nat.shiftRight_eq_div_pow,
          Nat.div_eq_of_lt (by omega)]
        rfl
      rw [hnot]
      rfl

/-- The selection of the steps in constant time: a word is positive. -/
theorem isNonzero_positive (delta : Limb) :
    Limb.isNonzero (delta &&& ~~~(delta.sshiftRight 63)) = (0 : Limb).slt delta := by
  have hlt := delta.isLt
  have hzero : (0 : Limb).toInt = 0 := rfl
  rw [toInt_sshiftRight_sign, BitVec.slt_eq_decide, hzero, Bool.eq_iff_iff, Limb.isNonzero_iff,
    decide_eq_true_eq]
  cases hmsb : delta.msb with
  | false =>
      have hsmall := BitVec.msb_eq_false_iff_two_mul_lt.mp hmsb
      have hall : ~~~(0 : Limb) = BitVec.allOnes 64 := rfl
      rw [if_neg (by decide), hall, BitVec.and_allOnes, BitVec.toInt_eq_toNat_cond,
        if_pos hsmall, ne_eq, ← BitVec.toNat_inj]
      have hnull : (0 : Limb).toNat = 0 := rfl
      rw [hnull]
      omega
  | true =>
      have hlarge := BitVec.msb_eq_true_iff_two_mul_ge.mp hmsb
      have hnone : ~~~(BitVec.allOnes 64) = (0 : Limb) := rfl
      have hand : delta &&& (0 : Limb) = 0 := BitVec.and_zero
      rw [if_pos rfl, hnone, hand, BitVec.toInt_eq_toNat_cond, if_neg (by omega)]
      simp
      omega

/-- The lowest bit of a word, in the two ways it is tested. -/
theorem lowest_bit (word : Limb) :
    Limb.lsbToChoice (word &&& 1) = decide (word.toInt % 2 = 1) ∧
      (word &&& 1 ≠ 0 ↔ word.toInt % 2 = 1) := by
  have hone : (1 : Limb).toNat = 1 := rfl
  have hzero : (0 : Limb).toNat = 0 := rfl
  have hparity : word.toInt % 2 = 1 ↔ word.toNat % 2 = 1 := by
    rw [BitVec.toInt_eq_toNat_cond]
    split
    · omega
    · omega
  have hand : (word &&& 1).toNat = word.toNat % 2 := by
    rw [BitVec.toNat_and, hone, Nat.and_one_is_mod]
  constructor
  · unfold Limb.lsbToChoice
    rw [BitVec.getLsbD, hand, Nat.testBit_zero, Nat.mod_mod, decide_eq_decide, hparity]
  · rw [hparity, ne_eq, ← BitVec.toNat_inj, hand, hzero]
    omega

/-- The two versions of a step agree on all words. -/
theorem jumpStep_eq (s : JumpState) : jumpStep s = jumpStepVartime s := by
  rcases lowest_bit s.g with ⟨hselect, hbranch⟩
  have hneg : ∀ x y : Limb, x + -y = x - y := fun x y => (BitVec.sub_eq_add_neg x y).symm
  unfold jumpStep jumpStepVartime
  simp only [isNonzero_positive, hselect, hbranch, Limb.select_eq]
  by_cases hg : s.g.toInt % 2 = 1
  · rw [decide_eq_true hg, if_pos hg]
    cases hdelta : (0 : Limb).slt s.delta with
    | true => simp [hneg]
    | false => simp
  · rw [decide_eq_false hg, if_neg hg]
    simp

/-- The state that the words stand for. -/
def wordState (s : JumpState) : Divstep.State := ⟨s.delta.toInt, s.f.toInt, s.g.toInt⟩

/-- The words of a matrix. -/
def wordMatrix (t : Divstep.Transition) : Matrix :=
  ⟨BitVec.ofInt 64 t.u, BitVec.ofInt 64 t.v, BitVec.ofInt 64 t.q, BitVec.ofInt 64 t.r⟩

theorem toInt_add_modEq (x y : Limb) : (x + y).toInt ≡ x.toInt + y.toInt [ZMOD 2 ^ 64] := by
  rw [BitVec.toInt_add]
  exact Int.bmod_emod

theorem toInt_sub_modEq (x y : Limb) : (x - y).toInt ≡ x.toInt - y.toInt [ZMOD 2 ^ 64] := by
  rw [BitVec.toInt_sub]
  exact Int.bmod_emod

/-- Half of a word that should be even. -/
theorem toInt_half (x : Limb) (a y : ℤ) (h : x.toInt ≡ a [ZMOD 2 ^ 64]) (hy : 2 * y = a) :
    (x.sshiftRight 1).toInt ≡ y [ZMOD 2 ^ 63] := by
  have hparity := Divstep.parity_of_modEq (k := 63) h
  have hhalf : 2 * (x.sshiftRight 1).toInt = x.toInt := by
    rw [BitVec.toInt_sshiftRight, Int.shiftRight_eq_div_pow]
    omega
  exact Divstep.modEq_half (k := 63) h hhalf hy

/-- Small integers fit into a word. -/
theorem toInt_eq_of_modEq (x : Limb) (a : ℤ) (h : x.toInt ≡ a [ZMOD 2 ^ 64]) (ha : |a| < 2 ^ 63) :
    x.toInt = a := by
  have hlo := BitVec.le_two_mul_toInt (x := x)
  have hhi := BitVec.two_mul_toInt_lt (x := x)
  rw [abs_lt] at ha
  unfold Int.ModEq at h
  omega

theorem ofInt_two_mul (a : ℤ) : BitVec.ofInt 64 (2 * a) = BitVec.ofInt 64 a <<< 1 := by
  rw [BitVec.shiftLeft_eq_mul_twoPow, BitVec.ofInt_mul, BitVec.mul_comm]
  rfl

theorem ofInt_sub (a b : ℤ) :
    BitVec.ofInt 64 (a - b) = BitVec.ofInt 64 a - BitVec.ofInt 64 b := by
  rw [sub_eq_add_neg, BitVec.ofInt_add, BitVec.ofInt_neg, ← BitVec.sub_eq_add_neg]

/-- A step on words: what is left of the numbers is right up to the top bit. -/
theorem jumpStep_agree (s : JumpState) (t : Divstep.Transition) (hf : s.f.toInt % 2 = 1)
    (hdelta : |s.delta.toInt| < 2 ^ 62) (ht : s.t = wordMatrix t) :
    Divstep.Agree 63 (Divstep.step (wordState s)) (wordState (jumpStepVartime s)) ∧
      (jumpStepVartime s).t = wordMatrix (Divstep.advance (wordState s) t) := by
  rcases lowest_bit s.g with ⟨_, hbranch⟩
  have hzero : (0 : Limb).toInt = 0 := rfl
  have hplus : (2 + s.delta).toInt = 2 + s.delta.toInt := by
    refine toInt_eq_of_modEq _ _ (toInt_add_modEq 2 s.delta) ?_
    rw [abs_lt] at hdelta ⊢
    omega
  have hminus : (2 - s.delta).toInt = 2 - s.delta.toInt := by
    refine toInt_eq_of_modEq _ _ (toInt_sub_modEq 2 s.delta) ?_
    rw [abs_lt] at hdelta ⊢
    omega
  have hslt : (0 : Limb).slt s.delta = true ↔ 0 < s.delta.toInt := by
    rw [BitVec.slt_eq_decide, hzero, decide_eq_true_eq]
  have hrefl : ∀ x : ℤ, x ≡ x [ZMOD 2 ^ 63] := Int.ModEq.refl
  unfold jumpStepVartime
  -- The branch taken depends on the lowest bit and the counter, and both are
  -- right on words. Only the halved number loses its top bit.
  rcases Divstep.step_cases (wordState s) t hf with ⟨hg, hd, he, h2, hadv⟩ |
    ⟨hg, hpos, hd, he, h2, hadv⟩ | ⟨hg, hneg, hd, he, h2, hadv⟩
  · change s.g.toInt % 2 = 0 at hg
    have heven : ¬ s.g.toInt % 2 = 1 := by omega
    simp only [hbranch, if_neg heven, hadv]
    refine ⟨⟨?_, ?_, ?_⟩, ?_⟩
    · rw [hd]
      exact hplus.symm
    · rw [he]
      exact hrefl _
    · exact (toInt_half s.g _ _ (Int.ModEq.refl _) h2).symm
    · rw [ht]
      simp only [wordMatrix, ofInt_two_mul]
  · have hodd : s.g.toInt % 2 = 1 := hg
    have hswap : 0 < s.delta.toInt := hpos
    simp only [hbranch, if_pos hodd, hslt, if_pos hswap, hadv]
    refine ⟨⟨?_, ?_, ?_⟩, ?_⟩
    · rw [hd]
      exact hminus.symm
    · rw [he]
      exact hrefl _
    · exact (toInt_half (s.g - s.f) _ _ (toInt_sub_modEq _ _) h2).symm
    · rw [ht]
      simp only [wordMatrix, ofInt_two_mul, ofInt_sub]
  · have hodd : s.g.toInt % 2 = 1 := hg
    have hkeep : ¬ 0 < s.delta.toInt := not_lt.mpr hneg
    simp only [hbranch, if_pos hodd, hslt, if_neg hkeep, hadv]
    refine ⟨⟨?_, ?_, ?_⟩, ?_⟩
    · rw [hd]
      exact hplus.symm
    · rw [he]
      exact hrefl _
    · exact (toInt_half (s.g + s.f) _ _ (toInt_add_modEq _ _) h2).symm
    · rw [ht]
      simp only [wordMatrix, ofInt_two_mul, BitVec.ofInt_add]

/-- Steps on words lose a bit each, and none of the matrix. -/
theorem jumpStepVartime_run (w : JumpState) (s : Divstep.State) (hf : s.f % 2 = 1)
    (hagree : Divstep.Agree 63 s (wordState w)) (ht : w.t = wordMatrix .identity) (b : ℕ)
    (hb : b ≤ 62) (hdelta : |s.delta| + 2 * b < 2 ^ 62) :
    Divstep.Agree (63 - b) (Divstep.step^[b] s) (wordState (jumpStepVartime^[b] w)) ∧
      (jumpStepVartime^[b] w).t = wordMatrix (Divstep.jumpStep^[b] (s, .identity)).2 := by
  induction b with
  | zero => exact ⟨hagree, ht⟩
  | succ b ih =>
      push_cast at hdelta
      rcases ih (by omega) (by omega) with ⟨hnow, hmatrix⟩
      have hbits : 63 - b = 63 - (b + 1) + 1 := by omega
      have hodd := Divstep.run_f_odd s hf b
      have hsize := Divstep.abs_delta_run s b
      rw [hbits] at hnow
      -- The words still agree in the lowest bit, since at most 62 have been lost.
      have hword : (jumpStepVartime^[b] w).f.toInt % 2 = 1 :=
        (Divstep.parity_of_modEq hnow.f).symm.trans hodd
      have hcounter : |(jumpStepVartime^[b] w).delta.toInt| < 2 ^ 62 := by
        have hsame : (jumpStepVartime^[b] w).delta.toInt = _ := hnow.delta.symm
        rw [hsame]
        omega
      rcases Divstep.agree_step hodd hnow (Divstep.jumpStep^[b] (s, .identity)).2 with
        ⟨hlow, hadvance⟩
      rcases jumpStep_agree _ _ hword hcounter hmatrix with ⟨hstep, hnext⟩
      rw [Function.iterate_succ_apply', Function.iterate_succ_apply', Function.iterate_succ_apply']
      refine ⟨hlow.trans (hstep.mono (by omega)), ?_⟩
      rw [hnext, ← hadvance, ← Divstep.jumpStep_run_fst s .identity b]
      rfl

/-- Steps on the low words give the counter and the matrix of the steps on the
    numbers, in both versions. -/
theorem jump_spec (vartime : Bool) (f g delta : Limb) (s : Divstep.State) (hf : s.f % 2 = 1)
    (hagree : Divstep.Agree 63 s ⟨delta.toInt, f.toInt, g.toInt⟩) (b : ℕ) (hb : b ≤ 62)
    (hdelta : |s.delta| + 2 * b < 2 ^ 62) :
    (jump vartime f g delta b).1.toInt = (Divstep.step^[b] s).delta ∧
      (jump vartime f g delta b).2 = wordMatrix (Divstep.jumpStep^[b] (s, .identity)).2 := by
  -- The two versions agree on all words, so one of them is enough.
  have hstep : (if vartime then jumpStepVartime else jumpStep) = jumpStepVartime := by
    rw [funext jumpStep_eq, ite_self]
  rcases jumpStepVartime_run ⟨f, g, delta, ⟨1, 0, 0, 1⟩⟩ s hf hagree rfl b hb hdelta with
    ⟨hnow, hmatrix⟩
  unfold jump
  rw [hstep]
  exact ⟨hnow.delta.symm, hmatrix⟩

/-- What is in the rows of a matrix of 62 steps fits into a word. -/
theorem toInt_ofInt_row (b : ℕ) (hb : b ≤ 62) (x y : ℤ) (h : |x| + |y| ≤ 2 ^ b) :
    (BitVec.ofInt 64 x).toInt = x ∧ (BitVec.ofInt 64 y).toInt = y := by
  have hpow : (2 : ℤ) ^ b ≤ 2 ^ 62 := pow_le_pow_right₀ (by decide) hb
  have hx := abs_nonneg x
  have hy := abs_nonneg y
  have hself : ∀ z : ℤ, |z| < 2 ^ 63 → (BitVec.ofInt 64 z).toInt = z := fun z hz => by
    rw [abs_lt] at hz
    exact BitVec.toInt_ofInt_eq_self (by decide) (by omega) (by omega)
  exact ⟨hself x (by omega), hself y (by omega)⟩

/-- The linear combinations of the numbers divide as the steps do. -/
theorem updateFg_spec (f g : SignedInt n) (before after : Divstep.State) (t : Divstep.Transition)
    (b : ℕ) (hb : b ≤ 62) (hcarries : Divstep.Carries b before after t) (hrows : Divstep.Rows b t)
    (hf : f.toInt = before.f) (hg : g.toInt = before.g) (hfit : after.f.natAbs < (2 ^ 64) ^ n)
    (hgit : after.g.natAbs < (2 ^ 64) ^ n) :
    (updateFg f g (wordMatrix t) b).1.toInt = after.f ∧
      (updateFg f g (wordMatrix t) b).2.toInt = after.g := by
  rcases toInt_ofInt_row b hb _ _ hrows.top with ⟨hu, hv⟩
  rcases toInt_ofInt_row b hb _ _ hrows.bottom with ⟨hq, hr⟩
  constructor
  · refine SignedInt.toInt_lincombIntReduceShift f g _ _ b (by omega) _ ?_ hfit
    rw [hcarries.f, hf, hg]
    exact congrArg₂ (fun x y => x * before.f + y * before.g) hu.symm hv.symm
  · refine SignedInt.toInt_lincombIntReduceShift f g _ _ b (by omega) _ ?_ hgit
    rw [hcarries.g, hf, hg]
    exact congrArg₂ (fun x y => x * before.f + y * before.g) hq.symm hr.symm

/-- Long numbers that stand for a state. -/
structure Tracks (w : GcdState n) (s : Divstep.State) : Prop where
  delta : w.delta.toInt = s.delta
  f : w.f.toInt = s.f
  g : w.g.toInt = s.g

/-- The low words of long numbers. -/
theorem Tracks.agree {w : GcdState n} {s : Divstep.State} (h : Tracks w s) :
    Divstep.Agree 63 s ⟨w.delta.toInt, w.f.lowest.toInt, w.g.lowest.toInt⟩ where
  delta := h.delta.symm
  f := h.f ▸ w.f.lowest_modEq.symm
  g := h.g ▸ w.g.lowest_modEq.symm

/-- The long numbers follow the steps, as long as those stay in range. -/
theorem tracks_gcdBatch (vartime : Bool) (w : GcdState n) (s : Divstep.State) (h : Tracks w s)
    (hf : s.f % 2 = 1) (B : ℤ) (hB : B < (2 ^ 64) ^ n) (hfB : |s.f| ≤ B) (hgB : |s.g| ≤ B) (b : ℕ)
    (hb : b ≤ 62) (hdelta : |s.delta| + 2 * b < 2 ^ 62) :
    Tracks (gcdBatch vartime b w) (Divstep.step^[b] s) := by
  rcases jump_spec vartime _ _ _ s hf h.agree b hb hdelta with ⟨hcounter, hmatrix⟩
  rcases Divstep.run_le s hf B hfB hgB b with ⟨hfit, hgit⟩
  -- The numbers never exceed the larger of the two at the start.
  have hfits : ∀ x : ℤ, |x| ≤ B → x.natAbs < (2 ^ 64) ^ n := fun x hx => by
    zify
    omega
  rcases updateFg_spec w.f w.g s _ _ b hb (Divstep.carries_run s hf b) (Divstep.rows_run s b)
    h.f h.g (hfits _ hfit) (hfits _ hgit) with ⟨hfirst, hsecond⟩
  rw [← hmatrix] at hfirst hsecond
  exact ⟨hcounter, hfirst, hsecond⟩

/-- Coefficients below the modulus that express the numbers of a state by the
    input, all times a factor. -/
structure Solves (d e : SignedInt n) (s : Divstep.State) (a m factor : ℕ) : Prop where
  d_lt : d.magnitude.toNat < m
  e_le : e.magnitude.toNat ≤ m
  d_mul : d.toInt * a ≡ s.f * factor [ZMOD m]
  e_mul : e.toInt * a ≡ s.g * factor [ZMOD m]

/-- One coefficient: a row of the matrix, divided modulo the modulus. -/
theorem solves_row (d e : SignedInt n) (s : Divstep.State) (a factor b : ℕ) (m : Uint n)
    (mi : Limb) (hmi : m.toNat * mi.toNat % 2 ^ 64 = 1) (hodd : m.toNat % 2 = 1)
    (h : Solves d e s a m.toNat factor) (hb : b ≤ 62) (x y after : ℤ)
    (hrow : |x| + |y| ≤ 2 ^ b) (hafter : 2 ^ b * after = x * s.f + y * s.g) :
    let r := SignedInt.lincombIntReduceShiftMod d e (.ofInt 64 x) (.ofInt 64 y) b m mi
    r.magnitude.toNat < m.toNat ∧ r.toInt * a ≡ after * factor [ZMOD m.toNat] := by
  intro r
  rcases toInt_ofInt_row b hb x y hrow with ⟨hx, hy⟩
  have hbound : (x * d.toInt + y * e.toInt).natAbs ≤ 2 ^ b * m.toNat := by
    have hd : |d.toInt| ≤ m.toNat := by
      rw [SignedInt.abs_toInt]
      exact_mod_cast h.d_lt.le
    have he : |e.toInt| ≤ m.toNat := by
      rw [SignedInt.abs_toInt]
      exact_mod_cast h.e_le
    zify
    calc |x * d.toInt + y * e.toInt|
        ≤ |x * d.toInt| + |y * e.toInt| := abs_add_le _ _
      _ = |x| * |d.toInt| + |y| * |e.toInt| := by rw [abs_mul, abs_mul]
      _ ≤ |x| * m.toNat + |y| * m.toNat := by gcongr
      _ = (|x| + |y|) * m.toNat := by ring
      _ ≤ 2 ^ b * m.toNat := by gcongr
  have hspec := SignedInt.lincombIntReduceShiftMod_spec d e (.ofInt 64 x) (.ofInt 64 y) b
    (by omega) m mi hmi (by omega) (by rw [hx, hy]; exact hbound)
  rw [hx, hy] at hspec
  refine ⟨hspec.1, ?_⟩
  -- The power of two can be cancelled beside an odd modulus.
  have hcancel : Int.gcd m.toNat (2 ^ b) = 1 := by
    have hcoprime : m.toNat.Coprime (2 ^ b) :=
      (Nat.coprime_two_right.mpr (Nat.odd_iff.mpr hodd)).pow_right b
    exact_mod_cast hcoprime
  have hscaled : 2 ^ b * (r.toInt * a) ≡ 2 ^ b * (after * factor) [ZMOD m.toNat] := by
    calc 2 ^ b * (r.toInt * a) = 2 ^ b * r.toInt * a := by ring
      _ ≡ (x * d.toInt + y * e.toInt) * a [ZMOD m.toNat] := hspec.2.mul_right _
      _ = x * (d.toInt * a) + y * (e.toInt * a) := by ring
      _ ≡ x * (s.f * factor) + y * (s.g * factor) [ZMOD m.toNat] :=
          (h.d_mul.mul_left x).add (h.e_mul.mul_left y)
      _ = (x * s.f + y * s.g) * factor := by ring
      _ = 2 ^ b * (after * factor) := by rw [← hafter]; ring
  rw [Int.modEq_iff_dvd, ← mul_sub] at hscaled
  exact (Int.modEq_iff_dvd).mpr (Int.dvd_of_dvd_mul_right_of_gcd_one hscaled hcancel)

/-- The coefficients follow the numbers. -/
theorem solves_updateDe (d e : SignedInt n) (before after : Divstep.State)
    (t : Divstep.Transition) (a factor b : ℕ) (m : Uint n) (mi : Limb)
    (hmi : m.toNat * mi.toNat % 2 ^ 64 = 1) (hodd : m.toNat % 2 = 1)
    (h : Solves d e before a m.toNat factor) (hb : b ≤ 62)
    (hcarries : Divstep.Carries b before after t) (hrows : Divstep.Rows b t) :
    Solves (updateDe d e m mi (wordMatrix t) b).1 (updateDe d e m mi (wordMatrix t) b).2 after a
      m.toNat factor := by
  rcases solves_row d e before a factor b m mi hmi hodd h hb _ _ _ hrows.top hcarries.f with
    ⟨hd, hdmul⟩
  rcases solves_row d e before a factor b m mi hmi hodd h hb _ _ _ hrows.bottom hcarries.g with
    ⟨he, hemul⟩
  exact ⟨hd, he.le, hdmul, hemul⟩

/-- The loop takes all steps, or stops early at zero. An invariant of the
    batches holds after the steps that were taken. -/
theorem batches_spec {σ : Type} (vartime : Bool) (isZero : σ → Bool) (body : ℕ → σ → σ)
    (P : ℕ → σ → Prop) (total : ℕ)
    (hbody : ∀ k b s, b ≤ 62 → k + b ≤ total → P k s → P (k + b) (body b s))
    (fuel steps k : ℕ) (s : σ) (hfuel : steps ≤ fuel) (htotal : k + steps = total) (h : P k s) :
    ∃ j ≤ total, P j (batches vartime isZero body fuel steps s) ∧
      (j = total ∨ isZero (batches vartime isZero body fuel steps s) = true) := by
  induction fuel generalizing steps k s with
  | zero => exact ⟨k, by omega, h, Or.inl (by omega)⟩
  | succ fuel ih =>
      unfold batches
      by_cases hsteps : steps = 0
      · rw [if_pos hsteps]
        exact ⟨k, by omega, h, Or.inl (by omega)⟩
      · rw [if_neg hsteps]
        by_cases hstop : (vartime && isZero s) = true
        · rw [if_pos hstop]
          rw [Bool.and_eq_true] at hstop
          exact ⟨k, by omega, h, Or.inr hstop.2⟩
        · rw [if_neg hstop]
          have hmin : min steps gcdBatchSize ≤ 62 := min_le_right _ _
          have hle : min steps gcdBatchSize ≤ steps := min_le_left _ _
          have hpos : 0 < min steps gcdBatchSize :=
            lt_min (Nat.pos_of_ne_zero hsteps) (by decide)
          exact ih _ (k + min steps gcdBatchSize) _ (by omega) (by omega)
            (hbody k _ s hmin (by omega) h)

/-- The state from which a greatest common divisor is computed. -/
def startState (f g : Uint n) : Divstep.State := ⟨1, f.toNat, g.toNat⟩

/-- The odd number that a run of so many steps ends with. -/
def lastNumber (total : ℕ) (f g : Uint n) : ℤ := (Divstep.step^[total] (startState f g)).f

/-- A run that stopped at zero ends with the same number. -/
theorem lastNumber_eq (total : ℕ) (f g : Uint n) (j : ℕ) (hj : j ≤ total)
    (h : j = total ∨ (Divstep.step^[j] (startState f g)).g = 0) :
    (Divstep.step^[j] (startState f g)).f = lastNumber total f g :=
  Divstep.run_f_of_stop _ _ _ hj h

theorem startState_odd (f g : Uint n) (hodd : f.toNat % 2 = 1) : (startState f g).f % 2 = 1 := by
  unfold startState
  dsimp only
  omega

theorem lastNumber_odd (total : ℕ) (f g : Uint n) (hodd : f.toNat % 2 = 1) :
    lastNumber total f g % 2 = 1 :=
  Divstep.run_f_odd _ (startState_odd f g hodd) _

/-- The counter stays small in a run whose length fits into a word. -/
theorem counter_lt (f g : Uint n) (k b : ℕ) (hk : k + b < 2 ^ 32) :
    |(Divstep.step^[k] (startState f g)).delta| + 2 * b < 2 ^ 62 := by
  have hdelta := Divstep.abs_delta_run (startState f g) k
  have hone : |(startState f g).delta| = 1 := abs_one
  rw [hone] at hdelta
  omega

/-- The step count fits into a word, whether or not its computation wraps. -/
theorem iterations_lt (bits : ℕ) : iterations bits < 2 ^ 32 := by
  unfold iterations
  omega

/-- A batch within a run keeps to the run. -/
theorem tracks_batch (vartime : Bool) (f g : Uint n) (hodd : f.toNat % 2 = 1) (w : GcdState n)
    (k b : ℕ) (hb : b ≤ 62) (hk : k + b < 2 ^ 32)
    (h : Tracks w (Divstep.step^[k] (startState f g))) :
    Tracks (gcdBatch vartime b w) (Divstep.step^[k + b] (startState f g)) := by
  have hf := startState_odd f g hodd
  have hB : ((max f.toNat g.toNat : ℕ) : ℤ) < (2 ^ 64) ^ n := by
    exact_mod_cast max_lt f.toNat_lt g.toNat_lt
  have hfB : |(startState f g).f| ≤ (max f.toNat g.toNat : ℕ) := by
    have habs : |(startState f g).f| = f.toNat := Nat.abs_cast _
    rw [habs]
    exact_mod_cast le_max_left _ _
  have hgB : |(startState f g).g| ≤ (max f.toNat g.toNat : ℕ) := by
    have habs : |(startState f g).g| = g.toNat := Nat.abs_cast _
    rw [habs]
    exact_mod_cast le_max_right _ _
  rcases Divstep.run_le (startState f g) hf _ hfB hgB k with ⟨hfit, hgit⟩
  rw [Nat.add_comm, Function.iterate_add_apply]
  exact tracks_gcdBatch vartime w _ h (Divstep.run_f_odd _ hf k) _ hB hfit hgit b hb
    (counter_lt f g k b hk)

end Safegcd

open Safegcd

/-- An odd integer has a limb to be odd in. -/
theorem isOdd_of_odd (a : Uint n) (h : a.toNat % 2 = 1) : a.isOdd = true := by
  cases n with
  | zero => exact absurd rfl (a.ne_zero_of_pos (by omega))
  | succ n => exact (Uint.isOdd_iff a).mpr h

/-- The numbers at the end of the loop. -/
theorem batches_gcd (vartime : Bool) (f g : Uint n) (hodd : f.toNat % 2 = 1) (total : ℕ)
    (htotal : total < 2 ^ 32) :
    (batches vartime (fun s : GcdState n => s.g.isZeroVartime) (gcdBatch vartime) total total
      ⟨1, .fromUint f, .fromUint g⟩).f.toInt = lastNumber total f g := by
  rcases batches_spec vartime (fun s : GcdState n => s.g.isZeroVartime) (gcdBatch vartime)
    (fun k w => Tracks w (Divstep.step^[k] (startState f g))) total
    (fun k b w hb hk h => tracks_batch vartime f g hodd w k b hb (by omega) h)
    total total 0 ⟨1, .fromUint f, .fromUint g⟩ le_rfl (Nat.zero_add _) ⟨rfl, rfl, rfl⟩ with
    ⟨j, hj, htracks, hstop⟩
  rw [SignedInt.isZeroVartime_iff, htracks.g] at hstop
  rw [htracks.f]
  exact lastNumber_eq total f g j hj hstop

/-- The greatest common divisor is the last number of all steps, in both
    versions, and it is odd. -/
theorem gcdOdd_spec (vartime : Bool) (f g : Uint n) (hodd : f.toNat % 2 = 1) :
    ∃ r, gcdOdd vartime f g = some r ∧ (r.toNat : ℤ) = |lastNumber (iterations (64 * n)) f g| := by
  have hlast := batches_gcd vartime f g hodd _ (iterations_lt (64 * n))
  have hparity := lastNumber_odd (iterations (64 * n)) f g hodd
  unfold gcdOdd
  dsimp only
  generalize batches vartime (fun s : GcdState n => s.g.isZeroVartime) (gcdBatch vartime)
    (iterations (64 * n)) (iterations (64 * n)) ⟨1, .fromUint f, .fromUint g⟩ = w at hlast
  have habs := w.f.abs_toInt
  rw [hlast] at habs
  have hoddf : w.f.magnitude.isOdd = true := by
    refine isOdd_of_odd _ ?_
    rw [Int.abs_eq_natAbs] at habs
    omega
  rw [if_pos hoddf]
  exact ⟨_, rfl, habs.symm⟩

/-- A batch with coefficients within a run keeps to the run. -/
theorem invert_batch (vartime : Bool) (a m : Uint n) (mi : Limb) (e : Uint n)
    (hodd : m.toNat % 2 = 1) (hmi : m.toNat * mi.toNat % 2 ^ 64 = 1) (w : InvertState n) (k b : ℕ)
    (hb : b ≤ 62) (hk : k + b < 2 ^ 32)
    (htracks : Tracks w.toGcdState (Divstep.step^[k] (startState m a)))
    (hsolves : Solves w.d w.e (Divstep.step^[k] (startState m a)) a.toNat m.toNat e.toNat) :
    Tracks (invertBatch vartime m mi b w).toGcdState (Divstep.step^[k + b] (startState m a)) ∧
      Solves (invertBatch vartime m mi b w).d (invertBatch vartime m mi b w).e
        (Divstep.step^[k + b] (startState m a)) a.toNat m.toNat e.toNat := by
  have hf := Divstep.run_f_odd _ (startState_odd m a hodd) k
  rcases jump_spec vartime _ _ _ _ hf htracks.agree b hb (counter_lt m a k b hk) with ⟨_, hmatrix⟩
  have hsteps := solves_updateDe w.d w.e _ _ _ a.toNat e.toNat b m mi hmi hodd hsolves hb
    (Divstep.carries_run _ hf b) (Divstep.rows_run _ b)
  rw [← hmatrix] at hsteps
  refine ⟨tracks_batch vartime m a hodd _ k b hb hk htracks, ?_⟩
  rw [Nat.add_comm k, Function.iterate_add_apply]
  exact hsteps

/-- The last numbers and the coefficient that goes with them. -/
theorem batches_invert (vartime : Bool) (a m : Uint n) (mi : Limb) (e : Uint n)
    (hodd : m.toNat % 2 = 1) (hmi : m.toNat * mi.toNat % 2 ^ 64 = 1) (he : e.toNat ≤ m.toNat)
    (total : ℕ) (htotal : total < 2 ^ 32) :
    let w := batches vartime (fun s : InvertState n => s.g.isZeroVartime)
      (invertBatch vartime m mi) total total ⟨⟨1, .fromUint m, .fromUint a⟩, .zero, .fromUint e⟩
    w.f.toInt = lastNumber total m a ∧ w.d.magnitude.toNat < m.toNat ∧
      w.d.toInt * a.toNat ≡ lastNumber total m a * e.toNat [ZMOD m.toNat] := by
  intro w
  -- The numbers at the start are the modulus, with coefficient zero, and the
  -- input, with the factor for its coefficient.
  have hstart : Solves .zero (.fromUint e) (startState m a) a.toNat m.toNat e.toNat := by
    have hzero : (SignedInt.zero : SignedInt n).magnitude.toNat = 0 := Uint.toNat_zero
    have hnull : (SignedInt.zero : SignedInt n).toInt = 0 := by
      unfold SignedInt.toInt
      rw [hzero, signed_zero]
    refine ⟨by rw [hzero]; omega, he, ?_, ?_⟩
    · rw [hnull, zero_mul]
      exact (Int.modEq_zero_iff_dvd.mpr (Dvd.intro _ rfl)).symm
    · exact Int.mul_comm (e.toNat : ℤ) a.toNat ▸ Int.ModEq.refl _
  rcases batches_spec vartime (fun s : InvertState n => s.g.isZeroVartime)
    (invertBatch vartime m mi)
    (fun k w => Tracks w.toGcdState (Divstep.step^[k] (startState m a)) ∧
      Solves w.d w.e (Divstep.step^[k] (startState m a)) a.toNat m.toNat e.toNat) total
    (fun k b w hb hk h => invert_batch vartime a m mi e hodd hmi w k b hb (by omega) h.1 h.2)
    total total 0 ⟨⟨1, .fromUint m, .fromUint a⟩, .zero, .fromUint e⟩ le_rfl (Nat.zero_add _)
    ⟨⟨rfl, rfl, rfl⟩, hstart⟩ with ⟨j, hj, ⟨htracks, hsolves⟩, hstop⟩
  rw [SignedInt.isZeroVartime_iff] at hstop
  change j = total ∨ w.toGcdState.g.toInt = 0 at hstop
  rw [htracks.g] at hstop
  have hlast := lastNumber_eq total m a j hj hstop
  rw [← hlast]
  exact ⟨htracks.f, hsolves.d_lt, hsolves.d_mul⟩

/-- The test for one, where there is a limb to hold it. -/
theorem ctEq_one_iff (f : SignedInt n) (hn : n ≠ 0) :
    f.magnitude.ctEq (Uint.ofNat n 1) = true ↔ |f.toInt| = 1 := by
  have hone : (Uint.ofNat n 1).toNat = 1 :=
    Uint.toNat_ofNat_of_lt 1 (Nat.one_lt_pow hn (by decide))
  rw [Uint.ctEq_iff, f.abs_toInt]
  constructor
  · intro h
    rw [h, hone]
    rfl
  · intro h
    refine Uint.toNat_injective _ _ ?_
    rw [hone]
    exact_mod_cast h

theorem isNonzero_iff_ne (a : Uint n) : a.isNonzero = true ↔ a.toNat ≠ 0 := by
  have h : a.isNonzero = !decide (a.toNat = 0) := (SignedInt.fromUint a).isNonzero_eq
  rw [h, Bool.not_eq_true', decide_eq_false_iff_not]

/-- The sign of the last number is put on its coefficient. -/
theorem norm_mul (d f : SignedInt n) (m : Uint n) (a e : ℕ) (hlt : d.magnitude.toNat < m.toNat)
    (hmul : d.toInt * a ≡ f.toInt * e [ZMOD m.toNat]) :
    ((d.norm f.isNegative m).toNat : ℤ) * a ≡ |f.toInt| * e [ZMOD m.toNat] := by
  have hsign : signed f.isNegative 1 * f.toInt = |f.toInt| := by
    rw [f.abs_toInt]
    unfold SignedInt.toInt SignedInt.isNegative signed
    cases f.sign with
    | false => simp
    | true => simp
  calc ((d.norm f.isNegative m).toNat : ℤ) * a
      ≡ signed f.isNegative 1 * d.toInt * a [ZMOD m.toNat] :=
        (SignedInt.norm_spec d f.isNegative m hlt).2.mul_right _
    _ = signed f.isNegative 1 * (d.toInt * a) := by ring
    _ ≡ signed f.isNegative 1 * (f.toInt * e) [ZMOD m.toNat] := hmul.mul_left _
    _ = |f.toInt| * e := by rw [← hsign]; ring

/-- The inverse times a factor, from the last number of all steps: there is one
    if that is one or minus one. -/
theorem invertOddModPrecomp_spec (vartime : Bool) (a m : Uint n) (mi : Limb) (e : Uint n)
    (hodd : m.toNat % 2 = 1) (hmi : m.toNat * mi.toNat % 2 ^ 64 = 1) (he : e.toNat ≤ m.toNat) :
    (invertOddModPrecomp vartime a m mi e).value.toNat < m.toNat ∧
      ((invertOddModPrecomp vartime a m mi e).isSome = true ↔
        |lastNumber (iterations (64 * n)) m a| = 1 ∧ a.toNat ≠ 0) ∧
      ((invertOddModPrecomp vartime a m mi e).value.toNat : ℤ) * a.toNat
        ≡ |lastNumber (iterations (64 * n)) m a| * e.toNat [ZMOD m.toNat] := by
  have hn : n ≠ 0 := m.ne_zero_of_pos (by omega)
  rcases batches_invert vartime a m mi e hodd hmi he _ (iterations_lt (64 * n)) with
    ⟨hlast, hlt, hmul⟩
  unfold invertOddModPrecomp
  dsimp only
  generalize batches vartime (fun s : InvertState n => s.g.isZeroVartime)
    (invertBatch vartime m mi) (iterations (64 * n)) (iterations (64 * n))
    ⟨⟨1, .fromUint m, .fromUint a⟩, .zero, .fromUint e⟩ = w at hlast hlt hmul ⊢
  rw [← hlast] at hmul ⊢
  refine ⟨(SignedInt.norm_spec w.d w.f.isNegative m hlt).1, ?_,
    norm_mul w.d w.f m a.toNat e.toNat hlt hmul⟩
  rw [Bool.and_eq_true, ctEq_one_iff w.f hn, isNonzero_iff_ne]

/-- A last number that is one or minus one has no other divisors to share. -/
theorem coprime_of_lastNumber (total : ℕ) (f g : Uint n) (hodd : f.toNat % 2 = 1)
    (h : |lastNumber total f g| = 1) : f.toNat.Coprime g.toNat := by
  have hgcd := Divstep.gcd_run (startState f g) (startState_odd f g hodd) total
  have habs : (Divstep.step^[total] (startState f g)).f.natAbs = 1 := by
    rw [Int.abs_eq_natAbs] at h
    exact_mod_cast h
  rw [Int.gcd, habs, Nat.gcd_one_left] at hgcd
  exact hgcd.symm

/-- The last number keeps the common divisors. -/
theorem gcd_dvd_lastNumber (total : ℕ) (f g : Uint n) (hodd : f.toNat % 2 = 1) :
    ((f.toNat.gcd g.toNat : ℕ) : ℤ) ∣ lastNumber total f g := by
  have hgcd := Divstep.gcd_run (startState f g) (startState_odd f g hodd) total
  have hdvd := Int.gcd_dvd_left (Divstep.step^[total] (startState f g)).f
    (Divstep.step^[total] (startState f g)).g
  rw [hgcd] at hdvd
  exact hdvd

/-- After enough steps the last number is the greatest common divisor. -/
theorem lastNumber_gcd (total : ℕ) (f g : Uint n) (hodd : f.toNat % 2 = 1) (M : ℕ)
    (hf : f.toNat ≤ M) (hg : g.toNat ≤ M) (henough : 303 * M ^ 2 * 21 ^ total < 265 * 37 ^ total) :
    |lastNumber total f g| = f.toNat.gcd g.toNat := by
  have hgcd := Divstep.gcd_run (startState f g) (startState_odd f g hodd) total
  have hzero : (Divstep.step^[total] (startState f g)).g = 0 :=
    Divstep.steps_suffice f.toNat g.toNat M (startState_odd f g hodd) (by omega)
      (by exact_mod_cast hf) (by omega) (by exact_mod_cast hg) total (by exact_mod_cast henough)
  rw [hzero, Int.gcd_zero_right] at hgcd
  rw [Int.abs_eq_natAbs]
  exact congrArg _ hgcd

/-- The step count is enough for numbers that leave four bits of each limb
    free, unless its computation wraps. -/
theorem iterations_enough (n : ℕ) (hn : n ≤ 1461) :
    303 * (2 ^ (60 * n)) ^ 2 * 21 ^ iterations (64 * n)
      < 265 * 37 ^ iterations (64 * n) := by
  -- 147 steps for each limb shrink the form by the square of 60 bits.
  obtain ⟨r, hr⟩ : ∃ r, iterations (64 * n) = 147 * n + 1 + r := by
    refine Nat.exists_eq_add_of_le ?_
    unfold iterations
    rw [Nat.mod_eq_of_lt (by omega)]
    omega
  have hlimb : (2 : ℕ) ^ 120 * 21 ^ 147 ≤ 37 ^ 147 := by decide +kernel
  have hlimbs : ((2 : ℕ) ^ 120 * 21 ^ 147) ^ n ≤ (37 ^ 147) ^ n := Nat.pow_le_pow_left hlimb n
  have hrest : (21 : ℕ) ^ r ≤ 37 ^ r := Nat.pow_le_pow_left (by decide) r
  have hpos : 0 < ((37 : ℕ) ^ 147) ^ n * 37 ^ r := by positivity
  rw [hr]
  calc 303 * (2 ^ (60 * n)) ^ 2 * 21 ^ (147 * n + 1 + r)
      = 6363 * ((2 ^ 120 * 21 ^ 147) ^ n * 21 ^ r) := by
        rw [mul_pow, ← pow_mul, ← pow_mul, ← pow_mul, pow_add, pow_add]
        ring
    _ ≤ 6363 * ((37 ^ 147) ^ n * 37 ^ r) := by gcongr
    _ < 9805 * ((37 ^ 147) ^ n * 37 ^ r) := by omega
    _ = 265 * 37 ^ (147 * n + 1 + r) := by
        rw [← pow_mul, pow_add, pow_add]
        ring

/-- The last number of limbs with enough steps, and the first without. -/
example : iterations (64 * 1461) = 215390 ∧ iterations (64 * 1462) = 24 := by
  decide

/-- The word of a modulus is the negative of its inverse. -/
theorem mul_mod_of_negInv (m : Uint n) (mi : Limb) (h : NegInv m.limbs (-mi)) :
    m.toNat * mi.toNat % 2 ^ 64 = 1 := by
  have hlt := mi.isLt
  rcases h with ⟨k, hk⟩
  change m.toNat * (-mi).toNat + 1 = _ at hk
  rw [BitVec.toNat_neg] at hk
  by_cases hzero : mi.toNat = 0
  · rw [hzero, Nat.sub_zero, Nat.mod_self, Nat.mul_zero] at hk
    omega
  · rw [Nat.mod_eq_of_lt (by omega), Nat.mul_sub] at hk
    have hle : m.toNat * mi.toNat ≤ m.toNat * 2 ^ 64 := Nat.mul_le_mul_left _ hlt.le
    omega

namespace FixedMontyForm

variable {params : MontyParams n} {m : ℕ} {a : FixedMontyForm params} {r : ConstMontyForm m}

/-- What is stored for a residue is invertible if the residue is. -/
theorem Represents.coprime_iff [NeZero m] (hparams : params.Valid m) (ha : Represents a r) :
    m.Coprime a.montgomeryForm.toNat ↔ r.invert.isSome = true := by
  rw [ConstMontyForm.invert_isSome, Nat.coprime_comm, ← ZMod.isUnit_iff_coprime, ha.cast,
    IsUnit.mul_iff]
  exact and_iff_right (Montgomery.Form.isUnit_factor (coprime_factor m hparams.odd))

/-- The inverse of a stored residue, times the square of the factor, is the
    stored inverse. -/
theorem Represents.invert [NeZero m] (hparams : params.Valid m) (ha : Represents a r)
    (vartime : Bool)
    (h : (invertOddModPrecomp vartime a.montgomeryForm params.modulus params.modInv
      params.r2).isSome = true) :
    r.invert.isSome = true ∧
      Represents (⟨(invertOddModPrecomp vartime a.montgomeryForm params.modulus params.modInv
        params.r2).value⟩ : FixedMontyForm params) r.invert.value := by
  have hpos := Nat.pos_of_neZero m
  have hodd : params.modulus.toNat % 2 = 1 := hparams.modulus.symm ▸ hparams.odd
  have hfactor : params.r2.toNat ≤ params.modulus.toNat := by
    rw [hparams.r2, hparams.modulus]
    exact (Nat.mod_lt _ hpos).le
  rcases invertOddModPrecomp_spec vartime a.montgomeryForm params.modulus params.modInv params.r2
    hodd (mul_mod_of_negInv _ _ hparams.negInv) hfactor with ⟨hlt, hsome, hmul⟩
  have hlast := (hsome.mp h).1
  have hunit : r.invert.isSome = true := by
    have hcoprime := coprime_of_lastNumber _ _ _ hodd hlast
    rw [hparams.modulus] at hcoprime
    exact (coprime_iff hparams ha).mp hcoprime
  refine ⟨hunit, ?_⟩
  rw [hlast, one_mul] at hmul
  rw [hparams.modulus] at hlt hmul
  refine Montgomery.Form.inverse (coprime_factor m hparams.odd) ha (r.toZMod_invert hunit) hlt ?_
  have hcast := (ZMod.natCast_eq_natCast_iff _ _ m).mpr (by exact_mod_cast hmul)
  rw [hparams.r2, ZMod.natCast_mod, sq] at hcast
  exact_mod_cast hcast

/-- After enough steps there is a result exactly for what is invertible. -/
theorem Represents.invert_isSome [NeZero m] (hparams : params.Valid m) (ha : Represents a r)
    (vartime : Bool) (hm : 1 < m)
    (henough : 303 * m ^ 2 * 21 ^ iterations (64 * n) < 265 * 37 ^ iterations (64 * n)) :
    (invertOddModPrecomp vartime a.montgomeryForm params.modulus params.modInv
      params.r2).isSome = r.invert.isSome := by
  have hpos := Nat.pos_of_neZero m
  have hodd : params.modulus.toNat % 2 = 1 := hparams.modulus.symm ▸ hparams.odd
  have hfactor : params.r2.toNat ≤ params.modulus.toNat := by
    rw [hparams.r2, hparams.modulus]
    exact (Nat.mod_lt _ hpos).le
  rcases invertOddModPrecomp_spec vartime a.montgomeryForm params.modulus params.modInv params.r2
    hodd (mul_mod_of_negInv _ _ hparams.negInv) hfactor with ⟨_, hsome, _⟩
  rw [lastNumber_gcd _ _ _ hodd m hparams.modulus.le ha.lt.le henough, hparams.modulus] at hsome
  rw [Bool.eq_iff_iff, hsome, ← coprime_iff hparams ha, Nat.cast_eq_one]
  refine and_iff_left_of_imp fun hcoprime hzero => ?_
  rw [hzero, Nat.gcd_zero_right] at hcoprime
  omega

end FixedMontyForm

end Ed301
