import Ed301.Core.Montgomery
import Ed301.Refine.Limbs

/-!
# Montgomery Arithmetic on Limbs against Numbers

The rows of the library are the steps of the interleaved algorithm.

A row is settled in three parts. One step of its inner loop gives out the low
half of a sum of two products, a limb and a carry, and that sum is short of
overflowing by design: the carry stays at most `2^65 - 2`. The rule for loops
then gives the whole row as one equation between numbers, and the choice of
the multiple of the modulus makes that equation the step of the algorithm. The
bound that the algorithm keeps is what bounds the carry above the highest
limb. Since nothing overflows, checking for overflow does not change anything.

The reduction of an integer of twice the length and the removal of the factor
compute reductions too, by their own loops, and a reduction is unique.

## Main definitions

* `WideArith.Lawful`: Arithmetic that is exact where the result fits.
* `NegInv`: The relation between a modulus and its precomputed word.

## Theorems

* `mulRow_spec`: A row is a step of the interleaved algorithm.
* `montgomeryMultiplyInner_spec`: So are all rows, whether overflow is checked
  or wraps around.
* `multiplyInner_spec`, `montgomeryReductionInner_isRedc`,
  `montgomeryRetrieve_isRedc`: The three loops reduce.
-/

namespace Ed301

open Limbs

/-- Sums and products are exact where the result fits. -/
structure WideArith.Lawful {m : Type → Type} [Monad m] (A : WideArith m) : Prop where
  add : ∀ a b, a.toNat + b.toNat < 2 ^ 128 → A.add a b = pure (a + b)
  mul : ∀ a b, a.toNat * b.toNat < 2 ^ 128 → A.mul a b = pure (a * b)

theorem WideArith.lawful_wrapping : WideArith.wrapping.Lawful where
  add _ _ _ := rfl
  mul _ _ _ := rfl

theorem WideArith.lawful_checked : WideArith.checked.Lawful where
  add _ _ h := if_pos h
  mul _ _ h := if_pos h

/-- The carry of an overflowing sum. -/
theorem toNat_carryOf (a b : WideWord) :
    (carryOf (a + b) (BitVec.uaddOverflow a b)).toNat = (a.toNat + b.toNat) / 2 ^ 64 := by
  have ha := a.isLt
  have hb := b.isLt
  have hsum := BitVec.toNat_add a b
  have hhigh := WideWord.toNat_high (a + b)
  unfold carryOf
  by_cases h : 2 ^ 128 ≤ a.toNat + b.toNat
  · -- The high half is below `2^64`, so setting the bit above it adds it.
    have hc : BitVec.uaddOverflow a b = true := decide_eq_true h
    have hbit : ((BitVec.ofBool true).setWidth 128 <<< 64).toNat = 2 ^ 64 * 1 := by decide
    rw [hc, BitVec.toNat_or, hbit, ← Nat.two_pow_add_eq_or_of_lt (by omega)]
    omega
  · have hc : BitVec.uaddOverflow a b = false := decide_eq_false h
    have hbit : (BitVec.ofBool false).setWidth 128 <<< 64 = 0#128 := by decide
    rw [hc, hbit, BitVec.zero_or]
    omega

/-- The carry of the inner loop. -/
def SmallCarry (carry : WideWord) : Prop :=
  carry.toNat ≤ 2 ^ 65 - 2

section Step

variable {m : Type → Type} [Monad m] [LawfulMonad m] {A : WideArith m}

/-- A product of limbs with a limb added. -/
theorem toNat_mul_add (x y a : Limb) :
    (x.toWide * y.toWide + a.toWide).toNat = x.toNat * y.toNat + a.toNat := by
  have h := Limb.mul_add_lt x y
  have ha := a.isLt
  rw [BitVec.toNat_add, BitVec.toNat_mul, Limb.toNat_toWide, Limb.toNat_toWide,
    Limb.toNat_toWide, Nat.mod_add_mod, Nat.mod_eq_of_lt (by omega)]

/-- A product of limbs with a carry added. -/
theorem toNat_mul_add_carry (u y : Limb) (carry : WideWord) (h : SmallCarry carry) :
    (u.toWide * y.toWide + carry).toNat = u.toNat * y.toNat + carry.toNat := by
  have hmul := Limb.mul_add_lt u y
  unfold SmallCarry at h
  rw [BitVec.toNat_add, BitVec.toNat_mul, Limb.toNat_toWide, Limb.toNat_toWide,
    Nat.mod_add_mod, Nat.mod_eq_of_lt (by omega)]

/-- The sums and products of a step fit. -/
theorem mulStep_eq (hA : A.Lawful) (xi u : Limb) (carry : WideWord) (p : Limb × Limb × Limb)
    (h : SmallCarry carry) :
    mulStep A xi u carry p = pure (mulStep .wrapping xi u carry p).run := by
  have hxy := Limb.mul_add_lt xi p.1
  have hum := Limb.mul_add_lt u p.2.1
  have ha := p.2.2.isLt
  unfold SmallCarry at h
  unfold mulStep
  rw [hA.mul xi.toWide p.1.toWide (by rw [Limb.toNat_toWide, Limb.toNat_toWide]; omega),
    pure_bind,
    hA.add (xi.toWide * p.1.toWide) p.2.2.toWide (by
      rw [BitVec.toNat_mul, Limb.toNat_toWide, Limb.toNat_toWide, Limb.toNat_toWide,
        Nat.mod_eq_of_lt (by omega)]
      omega),
    pure_bind,
    hA.mul u.toWide p.2.1.toWide (by rw [Limb.toNat_toWide, Limb.toNat_toWide]; omega),
    pure_bind,
    hA.add (u.toWide * p.2.1.toWide) carry (by
      rw [BitVec.toNat_mul, Limb.toNat_toWide, Limb.toNat_toWide, Nat.mod_eq_of_lt (by omega)]
      omega),
    pure_bind]
  rfl

/-- What a step computes, and that its carry stays small. -/
theorem mulStep_spec (xi u : Limb) (carry : WideWord) (p : Limb × Limb × Limb)
    (h : SmallCarry carry) :
    SmallCarry (mulStep .wrapping xi u carry p).run.2 ∧
      (mulStep .wrapping xi u carry p).run.1.toNat
          + 2 ^ 64 * (mulStep .wrapping xi u carry p).run.2.toNat
        = xi.toNat * p.1.toNat + u.toNat * p.2.1.toNat + p.2.2.toNat + carry.toNat := by
  have hxy := Limb.mul_add_lt xi p.1
  have hum := Limb.mul_add_lt u p.2.1
  have ha := p.2.2.isLt
  have h1 := toNat_mul_add xi p.1 p.2.2
  have h2 := toNat_mul_add_carry u p.2.1 carry h
  have hlow := WideWord.toNat_toWord
    (xi.toWide * p.1.toWide + p.2.2.toWide + (u.toWide * p.2.1.toWide + carry))
  have hhigh := toNat_carryOf (xi.toWide * p.1.toWide + p.2.2.toWide)
    (u.toWide * p.2.1.toWide + carry)
  rw [BitVec.toNat_add, h1, h2] at hlow
  rw [h1, h2] at hhigh
  unfold SmallCarry at h ⊢
  -- The two products are at most `(2^64 - 1)^2`, so the total is below
  -- `2^129 - 2^64`, and that is all the bound on the carry needs.
  generalize xi.toNat * p.1.toNat = s at *
  generalize u.toNat * p.2.1.toNat = t at *
  constructor
  · exact hhigh.trans_le (by omega)
  · have hboth := congrArg₂ (fun a b => a + 2 ^ 64 * b) hlow hhigh
    exact hboth.trans (by omega)

end Step

/-- The precomputed word is the negative inverse of the modulus. -/
def NegInv (modulus : List Limb) (modNegInv : Limb) : Prop :=
  2 ^ 64 ∣ value modulus * modNegInv.toNat + 1

/-- The bound the algorithm keeps bounds the carry above the highest limb. -/
theorem carry_le_one {n low carry Y M : ℕ} (hY : Y < (2 ^ 64) ^ n) (hM : M < (2 ^ 64) ^ n)
    (h : low + (2 ^ 64) ^ n * carry < Y + M) : carry ≤ 1 := by
  by_contra hbig
  have h2 : (2 ^ 64) ^ n * 2 ≤ (2 ^ 64) ^ n * carry := Nat.mul_le_mul_left _ (by omega)
  omega

section Row

variable {m : Type → Type} [Monad m] [LawfulMonad m] {A : WideArith m}

/-- The inner loop, all steps of which fit. -/
theorem mulLoop_eq (hA : A.Lawful) (xi u : Limb) (carry : WideWord) (h : SmallCarry carry)
    (l : List (Limb × Limb × Limb)) :
    sweepM (mulStep A xi u) carry l
      = pure (sweep (fun carry p => (mulStep .wrapping xi u carry p).run) carry l) :=
  sweepM_eq_pure _ _ SmallCarry (fun _ p hc => (mulStep_spec xi u _ p hc).1)
    (fun _ p hc => mulStep_eq hA xi u _ p hc) l carry h

/-- What the inner loop computes. -/
theorem mulLoop_spec (xi u : Limb) (carry : WideWord) (h : SmallCarry carry)
    (y modulus out : List Limb) (hy : y.length = out.length) (hm : modulus.length = out.length) :
    let row := sweep (fun carry p => (mulStep .wrapping xi u carry p).run) carry
      (y.zip (modulus.zip out))
    SmallCarry row.2 ∧ value row.1 + (2 ^ 64) ^ out.length * row.2.toNat
      = xi.toNat * value y + u.toNat * value modulus + value out + carry.toNat := by
  have hkeep : ∀ (carry : WideWord) (p : Limb × Limb × Limb), SmallCarry carry →
      SmallCarry (mulStep .wrapping xi u carry p).run.2 :=
    fun _ p hc => (mulStep_spec xi u _ p hc).1
  refine ⟨sweep_invariant _ SmallCarry hkeep _ carry h, ?_⟩
  have hsweep := sweep_add (fun carry p => (mulStep .wrapping xi u carry p).run) (2 ^ 64)
    BitVec.toNat (fun p : Limb × Limb × Limb =>
      xi.toNat * p.1.toNat + u.toNat * p.2.1.toNat + p.2.2.toNat) BitVec.toNat SmallCarry hkeep
    (fun _ p hc => (mulStep_spec xi u _ p hc).2) (y.zip (modulus.zip out)) carry h
  have hlen : (y.zip (modulus.zip out)).length = out.length := by simp [hy, hm]
  -- The sum over the triples is split into the three slices.
  have hfst : ((y.zip (modulus.zip out)).map fun p => p.1.toNat) = y.map BitVec.toNat :=
    map_zip_fst _ _ _ (by simp [hy, hm])
  have hmod : ((y.zip (modulus.zip out)).map fun p => p.2.1.toNat) = modulus.map BitVec.toNat :=
    (map_zip_snd (fun p : Limb × Limb => p.1.toNat) _ _ (by simp [hy, hm])).trans
      (map_zip_fst _ _ _ (Nat.le_of_eq hm))
  have hout : ((y.zip (modulus.zip out)).map fun p => p.2.2.toNat) = out.map BitVec.toNat :=
    (map_zip_snd (fun p : Limb × Limb => p.2.toNat) _ _ (by simp [hy, hm])).trans
      (map_zip_snd _ _ _ (Nat.le_of_eq hm.symm))
  rw [ofDigits_map_add, ofDigits_map_add, ofDigits_map_mul, ofDigits_map_mul, hfst, hmod, hout,
    hlen] at hsweep
  exact hsweep

/-- The start of a row: the multiple of the modulus is the quotient of the
    algorithm, and the lowest limb vanishes. -/
theorem rowStart_spec (modNegInv xi y0 m0 out0 : Limb) (modulus : List Limb)
    (hinv : NegInv (m0 :: modulus) modNegInv) :
    let axy := xi.toWide * y0.toWide + out0.toWide
    let u := axy.toWord * modNegInv
    let um := u.toWide * m0.toWide
    let carry := carryOf (um + axy) (BitVec.uaddOverflow um axy)
    u.toNat = Montgomery.quotient (2 ^ 64) modNegInv.toNat (xi.toNat * y0.toNat + out0.toNat) ∧
      SmallCarry carry ∧
      2 ^ 64 * carry.toNat = xi.toNat * y0.toNat + out0.toNat + u.toNat * m0.toNat := by
  intro axy u um carry
  have haxy : axy.toNat = xi.toNat * y0.toNat + out0.toNat := toNat_mul_add xi y0 out0
  have hu : u.toNat
      = Montgomery.quotient (2 ^ 64) modNegInv.toNat (xi.toNat * y0.toNat + out0.toNat) := by
    rw [← haxy]
    simp only [u, BitVec.toNat_mul, WideWord.toNat_toWord, Montgomery.quotient,
      Nat.mod_mul_mod]
  have hxy := Limb.mul_add_lt xi y0
  have hum := Limb.mul_add_lt u m0
  have hout := out0.isLt
  have humNat : um.toNat = u.toNat * m0.toNat := by
    simp only [um, BitVec.toNat_mul, Limb.toNat_toWide]
    exact Nat.mod_eq_of_lt (by omega)
  have hcarry : carry.toNat = (um.toNat + axy.toNat) / 2 ^ 64 := toNat_carryOf um axy
  rw [humNat, haxy] at hcarry
  -- The lowest limb of the modulus stands for the modulus.
  have hdvd := Montgomery.dvd_add_quotient hinv (xi.toNat * y0.toNat + out0.toNat)
  rw [← hu, value_cons, Nat.mul_add, ← Nat.add_assoc, Nat.mul_left_comm] at hdvd
  have hdvd0 := (Nat.dvd_add_left (Nat.dvd_mul_right _ _)).mp hdvd
  refine ⟨hu, ?_, ?_⟩
  · unfold SmallCarry
    rw [hcarry]
    generalize xi.toNat * y0.toNat = s at *
    generalize u.toNat * m0.toNat = t at *
    omega
  · rw [hcarry, Nat.add_comm (u.toNat * m0.toNat)]
    exact Nat.mul_div_cancel' hdvd0

/-- A row on slices that are not empty, in any lawful arithmetic: the multiple
    of the modulus, the carry into the inner loop and what the row gives. -/
theorem mulRow_cons (modNegInv xi y0 m0 out0 : Limb) (y modulus out : List Limb)
    (metaCarry : WideWord) (hmeta : metaCarry.toNat ≤ 1) (hy : y.length = out.length)
    (hm : modulus.length = out.length) (hinv : NegInv (m0 :: modulus) modNegInv) :
    ∃ (u : Limb) (carry : WideWord) (row : List Limb × WideWord),
      u.toNat = Montgomery.quotient (2 ^ 64) modNegInv.toNat (xi.toNat * y0.toNat + out0.toNat) ∧
      2 ^ 64 * carry.toNat = xi.toNat * y0.toNat + out0.toNat + u.toNat * m0.toNat ∧
      row.1.length = out.length ∧
      value row.1 + (2 ^ 64) ^ out.length * row.2.toNat
        = xi.toNat * value y + u.toNat * value modulus + value out + carry.toNat ∧
      (row.2 + metaCarry).toNat = row.2.toNat + metaCarry.toNat ∧
      ∀ {m : Type → Type} [Monad m] [LawfulMonad m] (A : WideArith m), A.Lawful →
        mulRow A modNegInv (y0 :: y) (m0 :: modulus) (out0 :: out, metaCarry) xi
          = pure (row.1 ++ [(row.2 + metaCarry).toWord], (row.2 + metaCarry).high) := by
  rcases rowStart_spec modNegInv xi y0 m0 out0 modulus hinv with ⟨hu, hsmall, hstart⟩
  generalize hcarry : carryOf _ _ = carry at hsmall hstart
  generalize hu' : (xi.toWide * y0.toWide + out0.toWide).toWord * modNegInv = u at hu hstart hcarry
  rcases mulLoop_spec xi u carry hsmall y modulus out hy hm with ⟨hsmallRow, hrow⟩
  generalize hr : sweep (fun carry p => (mulStep .wrapping xi u carry p).run) carry
    (y.zip (modulus.zip out)) = row at hsmallRow hrow
  have hxy := Limb.mul_add_lt xi y0
  have hum := Limb.mul_add_lt u m0
  have hout := out0.isLt
  have hfits : row.2.toNat + metaCarry.toNat < 2 ^ 128 := by
    have hbound : row.2.toNat ≤ 2 ^ 65 - 2 := hsmallRow
    omega
  have hsum : (row.2 + metaCarry).toNat = row.2.toNat + metaCarry.toNat := by
    rw [BitVec.toNat_add, Nat.mod_eq_of_lt hfits]
  have hlen : row.1.length = out.length := by
    rw [← hr]
    simp [hy, hm]
  refine ⟨u, carry, row, hu, hstart, hlen, hrow, hsum, fun A hA => ?_⟩
  have h1 := hA.mul xi.toWide y0.toWide (by rw [Limb.toNat_toWide, Limb.toNat_toWide]; omega)
  have h2 := hA.add (xi.toWide * y0.toWide) out0.toWide (by
    rw [BitVec.toNat_mul, Limb.toNat_toWide, Limb.toNat_toWide, Limb.toNat_toWide,
      Nat.mod_eq_of_lt (by omega)]
    omega)
  have h3 := hA.mul u.toWide m0.toWide (by rw [Limb.toNat_toWide, Limb.toNat_toWide]; omega)
  have h4 := mulLoop_eq hA xi u carry hsmall (y.zip (modulus.zip out))
  have h5 := hA.add row.2 metaCarry hfits
  simp only [mulRow, h1, h2, hu', h3, hcarry, h4, hr, h5, pure_bind]

/-- A row on slices that are not empty is a step of the interleaved algorithm
    on numbers. -/
theorem mulRow_spec (modNegInv xi : Limb) (y modulus : List Limb)
    (q : List Limb × WideWord) (hy : y.length = q.1.length) (hm : modulus.length = q.1.length)
    (hne : q.1 ≠ []) (hinv : NegInv modulus modNegInv)
    (hlt : value q.1 + (2 ^ 64) ^ q.1.length * q.2.toNat < value y + value modulus) :
    ∃ r : List Limb × WideWord, r.1.length = q.1.length ∧
      value r.1 + (2 ^ 64) ^ q.1.length * r.2.toNat
        = Montgomery.step (2 ^ 64) (value modulus) modNegInv.toNat (value y) xi.toNat
          (value q.1 + (2 ^ 64) ^ q.1.length * q.2.toNat) ∧
      ∀ {m : Type → Type} [Monad m] [LawfulMonad m] (A : WideArith m), A.Lawful →
        mulRow A modNegInv y modulus q xi = pure r := by
  have hvy := value_lt y
  have hvm := value_lt modulus
  rw [hy] at hvy
  rw [hm] at hvm
  rcases q with ⟨out, metaCarry⟩
  have hmeta : metaCarry.toNat ≤ 1 := carry_le_one hvy hvm hlt
  cases out with
  | nil => exact absurd rfl hne
  | cons out0 out =>
      cases y with
      | nil => simp at hy
      | cons y0 y =>
          cases modulus with
          | nil => simp at hm
          | cons m0 modulus =>
              simp only [List.length_cons, Nat.add_right_cancel_iff] at hy hm
              rcases mulRow_cons modNegInv xi y0 m0 out0 y modulus out metaCarry hmeta hy hm hinv
                  with ⟨u, carry, row, hu, hstart, hlen, hrow, hsum, hrun⟩
              refine ⟨_, ?_, ?_, hrun⟩
              · simp [hlen]
              · refine Nat.eq_of_mul_eq_mul_left (Nat.two_pow_pos 64) ?_
                have hhalves := Nat.mod_add_div (row.2 + metaCarry).toNat (2 ^ 64)
                rw [hsum] at hhalves
                -- What is added to the lowest limb decides the quotient.
                have htotal : value (out0 :: out) + (2 ^ 64) ^ (out.length + 1) * metaCarry.toNat
                      + xi.toNat * value (y0 :: y)
                    = xi.toNat * y0.toNat + out0.toNat + 2 ^ 64 * (value out
                      + (2 ^ 64) ^ out.length * metaCarry.toNat + xi.toNat * value y) := by
                  rw [value_cons, value_cons, pow_succ' ((2 : ℕ) ^ 64)]
                  ring
                have hquot : u.toNat = Montgomery.quotient (2 ^ 64) modNegInv.toNat
                    (value (out0 :: out) + (2 ^ 64) ^ (out.length + 1) * metaCarry.toNat
                      + xi.toNat * value (y0 :: y)) := by
                  rw [hu, htotal]
                  exact Montgomery.quotient_congr (Nat.add_mul_mod_self_left _ _ _).symm
                rw [List.length_cons, Montgomery.mul_step hinv, ← hquot, htotal, value_append,
                  hlen, value_cons, value_nil, WideWord.toNat_toWord, WideWord.toNat_high, hsum,
                  pow_succ' ((2 : ℕ) ^ 64), value_cons]
                linear_combination 2 ^ 64 * hrow + hstart
                  + 2 ^ 64 * (2 ^ 64) ^ out.length * hhalves

end Row

/-- The rows over the limbs of the first factor. -/
theorem mulRows_spec (modNegInv : Limb) (y modulus : List Limb) (n : ℕ) (hn : 0 < n)
    (hy : y.length = n) (hm : modulus.length = n) (hinv : NegInv modulus modNegInv)
    (x : List Limb) :
    ∀ q : List Limb × WideWord, q.1.length = n →
      value q.1 + (2 ^ 64) ^ n * q.2.toNat < value y + value modulus →
      ∃ r : List Limb × WideWord, r.1.length = n ∧
        value r.1 + (2 ^ 64) ^ n * r.2.toNat
          = Montgomery.run (2 ^ 64) (value modulus) modNegInv.toNat (value y)
            (x.map BitVec.toNat) (value q.1 + (2 ^ 64) ^ n * q.2.toNat) ∧
        ∀ {m : Type → Type} [Monad m] [LawfulMonad m] (A : WideArith m), A.Lawful →
          x.foldlM (mulRow A modNegInv y modulus) q = pure r := by
  induction x with
  | nil => intro q hq _; exact ⟨q, hq, rfl, fun _ _ => rfl⟩
  | cons xi x ih =>
      intro q hq hlt
      have hne : q.1 ≠ [] := by
        intro hnil
        rw [hnil] at hq
        simp at hq
        omega
      rcases mulRow_spec modNegInv xi y modulus q (hy.trans hq.symm)
        (hm.trans hq.symm) hne hinv (by rwa [hq]) with ⟨r, hlen, hstep, hrow⟩
      rw [hq] at hlen hstep
      have hbound := Montgomery.step_lt (Nat.two_pow_pos 64) hinv xi.toNat _ xi.isLt hlt
      rcases ih r hlen (by rwa [hstep]) with ⟨r', hlen', hrun, hrest⟩
      refine ⟨r', hlen', ?_, fun A hA => ?_⟩
      · rw [hrun, hstep]
        rfl
      · rw [List.foldlM_cons, hrow A hA, pure_bind, hrest A hA]

/-- The rows of a product are the interleaved algorithm, in any lawful
    arithmetic. -/
theorem montgomeryMultiplyInner_spec (modNegInv : Limb) (x y out modulus : List Limb)
    (hx : x.length = out.length) (hy : y.length = out.length)
    (hm : modulus.length = out.length) (hinv : NegInv modulus modNegInv)
    (hlt : value out < value y + value modulus) :
    ∃ r : List Limb × Limb,
      value r.1 + (2 ^ 64) ^ out.length * r.2.toNat
        = Montgomery.run (2 ^ 64) (value modulus) modNegInv.toNat (value y)
          (x.map BitVec.toNat) (value out) ∧
      r.2.toNat ≤ 1 ∧
      ∀ {m : Type → Type} [Monad m] [LawfulMonad m] (A : WideArith m), A.Lawful →
        montgomeryMultiplyInner A x y out modulus modNegInv = pure r := by
  by_cases hn : out.length = 0
  · -- Without limbs there are no rows.
    have hx0 : x = [] := List.length_eq_zero_iff.mp (hx.trans hn)
    subst hx0
    refine ⟨(out, 0), ?_, Nat.zero_le _, fun _ _ => pure_bind _ _⟩
    simp [Montgomery.run]
  · rcases mulRows_spec modNegInv y modulus out.length
      (Nat.pos_of_ne_zero hn) hy hm hinv x (out, 0) rfl (by simpa using hlt)
        with ⟨r, hlen, hrun, hfold⟩
    have hvy := value_lt y
    have hvm := value_lt modulus
    rw [hy] at hvy
    rw [hm] at hvm
    have hbound := Montgomery.run_lt (Nat.two_pow_pos 64) hinv (x.map BitVec.toNat)
      (fun d hd => by obtain ⟨limb, _, rfl⟩ := List.mem_map.mp hd; exact limb.isLt) _ hlt
    have hzero : value out + (2 ^ 64) ^ out.length * BitVec.toNat (0 : WideWord) = value out := by
      simp
    simp only at hrun
    rw [hzero] at hrun
    rw [← hrun] at hbound
    have hcarry := carry_le_one hvy hvm hbound
    have hword : r.2.toWord.toNat = r.2.toNat := by
      rw [WideWord.toNat_toWord]
      omega
    refine ⟨(r.1, r.2.toWord), ?_, ?_, fun A hA => ?_⟩
    · simp only [hword]
      exact hrun
    · simp only [hword]
      exact hcarry
    · unfold montgomeryMultiplyInner
      rw [hfold A hA, pure_bind]

/-- The loop both share: the multiple of the modulus, limb by limb. -/
theorem reduceLoop_spec (u carry : Limb) (modulus l : List Limb)
    (h : modulus.length ≤ l.length) :
    let row := sweep (reduceStep u) carry (modulus.zip l)
    row.1.length = modulus.length ∧
      value row.1 + (2 ^ 64) ^ modulus.length * row.2.toNat
        = u.toNat * value modulus + value (l.take modulus.length) + carry.toNat :=
  Limb.sweep_carryingMulAdd u carry modulus l h

/-- The first limb of such a loop vanishes. -/
theorem reduceStart_spec (modNegInv m0 a b : Limb) (modulus : List Limb)
    (hinv : NegInv (m0 :: modulus) modNegInv) :
    let u := (a + b) * modNegInv
    u.toNat = Montgomery.quotient (2 ^ 64) modNegInv.toNat (a.toNat + b.toNat) ∧
      2 ^ 64 * (Limb.carryingMulAdd u m0 a b).2.toNat
        = u.toNat * m0.toNat + a.toNat + b.toNat := by
  intro u
  have hu : u.toNat = Montgomery.quotient (2 ^ 64) modNegInv.toNat (a.toNat + b.toNat) := by
    simp only [u, BitVec.toNat_mul, BitVec.toNat_add, Montgomery.quotient, Nat.mod_mul_mod]
  have hdvd := Montgomery.dvd_add_quotient hinv (a.toNat + b.toNat)
  rw [← hu, value_cons, Nat.mul_add, ← Nat.add_assoc, Nat.mul_left_comm] at hdvd
  have hdvd0 := (Nat.dvd_add_left (Nat.dvd_mul_right _ _)).mp hdvd
  have hsum := Limb.toNat_carryingMulAdd u m0 a b
  have hlow := (Limb.carryingMulAdd u m0 a b).1.isLt
  refine ⟨hu, ?_⟩
  generalize u.toNat * m0.toNat = s at *
  omega

/-- A row of the reduction is a step of the algorithm that takes no digit in.
    The carry left over belongs above the limbs of the modulus. -/
theorem reductionRow_spec (modNegInv : Limb) (modulus : List Limb) (q : List Limb × Limb)
    (hm : modulus ≠ []) (hlen : modulus.length < q.1.length) (hinv : NegInv modulus modNegInv)
    (hcarry : q.2.toNat ≤ 1) :
    (reductionRow modulus modNegInv q).2.toNat ≤ 1 ∧
      value (reductionRow modulus modNegInv q).1
          + (2 ^ 64) ^ modulus.length * (reductionRow modulus modNegInv q).2.toNat
        = Montgomery.step (2 ^ 64) (value modulus) modNegInv.toNat 0 0
          (value q.1 + (2 ^ 64) ^ modulus.length * q.2.toNat) := by
  rcases q with ⟨l, metaCarry⟩
  cases modulus with
  | nil => exact absurd rfl hm
  | cons m0 modulus =>
      cases l with
      | nil => simp at hlen
      | cons lower0 rest =>
          simp only [List.length_cons, Nat.add_lt_add_iff_right] at hlen hcarry
          obtain ⟨top, above, hsplit⟩ : ∃ top above, rest.drop modulus.length = top :: above :=
            List.exists_cons_of_length_pos (by rw [List.length_drop]; omega)
          have hstart := reduceStart_spec modNegInv m0 lower0 0 modulus hinv
          have hzero : lower0 + 0 = lower0 := BitVec.add_zero lower0
          have hzero' : BitVec.toNat (0 : Limb) = 0 := rfl
          rw [hzero, hzero', Nat.add_zero] at hstart
          rcases hstart with ⟨hu, hcarry0⟩
          rw [Nat.add_zero] at hcarry0
          rcases reduceLoop_spec (lower0 * modNegInv)
            (Limb.carryingMulAdd (lower0 * modNegInv) m0 lower0 0).2 modulus rest (by omega)
              with ⟨hrowLen, hrow⟩
          have hadd := Limb.toNat_carryingAdd top (sweep (reduceStep (lower0 * modNegInv))
            (Limb.carryingMulAdd (lower0 * modNegInv) m0 lower0 0).2 (modulus.zip rest)).2 metaCarry
          have hrest : value rest = value (rest.take modulus.length)
              + (2 ^ 64) ^ modulus.length * (top.toNat + 2 ^ 64 * value above) := by
            have happend := value_append (rest.take modulus.length) (rest.drop modulus.length)
            rw [List.take_append_drop, hsplit, value_cons, List.length_take,
              Nat.min_eq_left (by omega)] at happend
            exact happend
          -- The loop runs over the limbs below `top`, and its carry goes into `top`.
          simp only [reductionRow, hsplit, List.headD_cons, List.tail_cons]
          generalize hr : sweep (reduceStep (lower0 * modNegInv))
            (Limb.carryingMulAdd (lower0 * modNegInv) m0 lower0 0).2 (modulus.zip rest) = row
            at hrowLen hrow hadd ⊢
          have hrowTop := row.2.isLt
          have htop := top.isLt
          refine ⟨by omega, ?_⟩
          -- The lowest limb vanishes, so the division by the radix is exact.
          refine Nat.eq_of_mul_eq_mul_left (Nat.two_pow_pos 64) ?_
          have htotal : value (lower0 :: rest)
                + (2 ^ 64) ^ (modulus.length + 1) * metaCarry.toNat + 0 * 0
              = lower0.toNat + 2 ^ 64 * (value rest
                + (2 ^ 64) ^ modulus.length * metaCarry.toNat) := by
            rw [value_cons, pow_succ' ((2 : ℕ) ^ 64)]
            ring
          have hquot : (lower0 * modNegInv).toNat
              = Montgomery.quotient (2 ^ 64) modNegInv.toNat (value (lower0 :: rest)
                + (2 ^ 64) ^ (modulus.length + 1) * metaCarry.toNat + 0 * 0) := by
            rw [hu, htotal]
            exact Montgomery.quotient_congr (Nat.add_mul_mod_self_left _ _ _).symm
          rw [List.length_cons, Montgomery.mul_step hinv, ← hquot, htotal, value_append, hrowLen,
            value_cons, hrest, value_cons, pow_succ' ((2 : ℕ) ^ 64)]
          linear_combination 2 ^ 64 * hrow + hcarry0
            + 2 ^ 64 * (2 ^ 64) ^ modulus.length * hadd

/-- The rows of the reduction of an integer of twice the length. -/
theorem reductionRows_spec (modNegInv : Limb) (modulus : List Limb)
    (hinv : NegInv modulus modNegInv) (hm : modulus ≠ []) (k : ℕ) :
    ∀ q : List Limb × Limb, q.1.length = modulus.length + k → q.2.toNat ≤ 1 →
      ((reductionRow modulus modNegInv)^[k] q).2.toNat ≤ 1 ∧
        value ((reductionRow modulus modNegInv)^[k] q).1
            + (2 ^ 64) ^ modulus.length * ((reductionRow modulus modNegInv)^[k] q).2.toNat
          = Montgomery.run (2 ^ 64) (value modulus) modNegInv.toNat 0 (List.replicate k 0)
            (value q.1 + (2 ^ 64) ^ modulus.length * q.2.toNat) := by
  induction k with
  | zero => intro q _ hq; exact ⟨hq, rfl⟩
  | succ k ih =>
      intro q hlen hq
      rcases reductionRow_spec modNegInv modulus q hm (by omega) hinv hq with ⟨hcarry, hstep⟩
      have hrest := ih _ (length_reductionRow modulus modNegInv q k hm hlen) hcarry
      rw [Function.iterate_succ_apply, List.replicate_succ, Montgomery.run, ← hstep]
      exact hrest

theorem montgomeryReductionInner_spec (modNegInv : Limb) (upper lower modulus : List Limb)
    (hu : upper.length = modulus.length) (hl : lower.length = modulus.length)
    (hinv : NegInv modulus modNegInv) :
    let r := montgomeryReductionInner upper lower modulus modNegInv
    r.2.toNat ≤ 1 ∧
      Montgomery.IsRedc ((2 ^ 64) ^ modulus.length) (value modulus)
        (value lower + (2 ^ 64) ^ modulus.length * value upper)
        (value r.1 + (2 ^ 64) ^ modulus.length * r.2.toNat) := by
  have hzero : BitVec.toNat (0 : Limb) = 0 := rfl
  by_cases hm : modulus = []
  · subst hm
    have hu0 := List.length_eq_zero_iff.mp hu
    have hl0 := List.length_eq_zero_iff.mp hl
    subst hu0 hl0
    exact ⟨Nat.zero_le _, 0, Nat.one_pos, rfl⟩
  · -- As many rows as the modulus has limbs, none of which takes a digit in.
    rcases reductionRows_spec modNegInv modulus hinv hm modulus.length
      (lower ++ upper, 0) (by rw [List.length_append, hu, hl]) (Nat.zero_le _) with ⟨hcarry, hrun⟩
    rw [hzero, Nat.mul_zero, Nat.add_zero, value_append, hl] at hrun
    rcases Montgomery.run_eq (Y := 0) (Nat.two_pow_pos 64) hinv
      (List.replicate modulus.length 0)
      (value lower + (2 ^ 64) ^ modulus.length * value upper) with ⟨U, hU, hrunU⟩
    rw [List.length_replicate, ← hrun, Nat.mul_zero, Nat.add_zero] at hrunU
    rw [List.length_replicate] at hU
    exact ⟨hcarry, U, hU, hrunU⟩

/-- A row of the removal of the factor is a step that takes in a limb of the
    stored residue as a digit times one. -/
theorem retrieveRow_spec (modNegInv xi : Limb) (modulus out : List Limb)
    (hlen : modulus.length = out.length) (hne : out ≠ []) (hinv : NegInv modulus modNegInv) :
    value (retrieveRow modulus modNegInv out xi)
      = Montgomery.step (2 ^ 64) (value modulus) modNegInv.toNat 1 xi.toNat (value out) := by
  cases out with
  | nil => exact absurd rfl hne
  | cons out0 out =>
      cases modulus with
      | nil => simp at hlen
      | cons m0 modulus =>
          simp only [List.length_cons, Nat.add_right_cancel_iff] at hlen
          -- The digit is taken in before the multiple of the modulus is chosen.
          have hstart := reduceStart_spec modNegInv m0 xi out0 modulus hinv
          rw [BitVec.add_comm xi out0] at hstart
          rcases hstart with ⟨hu, hcarry0⟩
          rcases reduceLoop_spec ((out0 + xi) * modNegInv)
            (Limb.carryingMulAdd ((out0 + xi) * modNegInv) m0 xi out0).2 modulus out
            (Nat.le_of_eq hlen) with ⟨hrowLen, hrow⟩
          rw [hlen, List.take_length] at hrow
          rw [hlen] at hrowLen
          refine Nat.eq_of_mul_eq_mul_left (Nat.two_pow_pos 64) ?_
          have htotal : value (out0 :: out) + xi.toNat * 1
              = xi.toNat + out0.toNat + 2 ^ 64 * value out := by
            rw [value_cons]
            ring
          have hquot : ((out0 + xi) * modNegInv).toNat
              = Montgomery.quotient (2 ^ 64) modNegInv.toNat
                (value (out0 :: out) + xi.toNat * 1) := by
            rw [hu, htotal]
            exact Montgomery.quotient_congr (Nat.add_mul_mod_self_left _ _ _).symm
          rw [Montgomery.mul_step hinv, ← hquot, htotal]
          simp only [retrieveRow, value_append, hrowLen, value_cons, value_nil, Nat.mul_zero,
            Nat.add_zero]
          linear_combination 2 ^ 64 * hrow + hcarry0

theorem montgomeryRetrieveInner_spec (modNegInv : Limb) (modulus : List Limb)
    (hinv : NegInv modulus modNegInv) (x : List Limb) :
    ∀ out : List Limb, modulus.length = out.length → out ≠ [] →
      value (montgomeryRetrieveInner x out modulus modNegInv)
        = Montgomery.run (2 ^ 64) (value modulus) modNegInv.toNat 1 (x.map BitVec.toNat)
          (value out) := by
  induction x with
  | nil => intro out _ _; rfl
  | cons xi x ih =>
      intro out hlen hne
      have hrow := length_retrieveRow modulus modNegInv out xi hlen
      have hstep := retrieveRow_spec modNegInv xi modulus out hlen hne hinv
      have hne' : retrieveRow modulus modNegInv out xi ≠ [] := by
        rw [← List.length_pos_iff, hrow]
        exact List.length_pos_iff.mpr hne
      have hrest := ih _ (hlen.trans hrow.symm) hne'
      rw [hstep] at hrest
      exact hrest

section Uint

variable {n : ℕ}

/-- What the product of two integers gives is the reduction of the product,
    with its carry. -/
theorem multiplyInner_spec (a b modulus : Uint n) (modNegInv : Limb)
    (hinv : NegInv modulus.limbs modNegInv) (hpos : 0 < modulus.toNat) :
    (multiplyInner a b modulus modNegInv).2.toNat ≤ 1 ∧
      Montgomery.IsRedc ((2 ^ 64) ^ n) modulus.toNat (a.toNat * b.toNat)
        ((multiplyInner a b modulus modNegInv).1.toNat
          + (2 ^ 64) ^ n * (multiplyInner a b modulus modNegInv).2.toNat) := by
  have hzero : (Uint.zero : Uint n).limbs.length = n := Uint.length_limbs _
  rcases montgomeryMultiplyInner_spec modNegInv a.limbs b.limbs
    (Uint.zero : Uint n).limbs modulus.limbs (a.length_limbs.trans hzero.symm)
    (b.length_limbs.trans hzero.symm) (modulus.length_limbs.trans hzero.symm) hinv
    (by
      have h0 : value (Uint.zero : Uint n).limbs = 0 := Uint.toNat_zero
      rw [h0]
      exact Nat.lt_of_lt_of_le hpos (Nat.le_add_left _ _)) with ⟨r, hvalue, hcarry, hrun⟩
  -- The code runs in wrapping arithmetic, one of the lawful ones.
  have hid := congrArg Id.run (hrun WideArith.wrapping WideArith.lawful_wrapping)
  have hout : (multiplyInner a b modulus modNegInv).1.toNat = value r.1 := by
    unfold multiplyInner Uint.toNat
    simp only [hid]
    rfl
  have hcarry' : (multiplyInner a b modulus modNegInv).2 = r.2 := by
    unfold multiplyInner
    simp only [hid]
    rfl
  have hredc := Montgomery.run_isRedc (Y := value b.limbs) (Nat.two_pow_pos 64) hinv
    (a.limbs.map BitVec.toNat)
  have h0 : value (Uint.zero : Uint n).limbs = 0 := Uint.toNat_zero
  rw [h0, hzero] at hvalue
  rw [← hvalue, List.length_map, a.length_limbs] at hredc
  rw [hout, hcarry']
  exact ⟨hcarry, hredc⟩

/-- Two halves, reduced. -/
theorem montgomeryReductionInner_isRedc (lower upper modulus : Uint n) (modNegInv : Limb)
    (hinv : NegInv modulus.limbs modNegInv) :
    let r := montgomeryReductionInner upper.limbs lower.limbs modulus.limbs modNegInv
    r.2.toNat ≤ 1 ∧
      Montgomery.IsRedc ((2 ^ 64) ^ n) modulus.toNat (lower.toNat + (2 ^ 64) ^ n * upper.toNat)
        (value r.1 + (2 ^ 64) ^ n * r.2.toNat) := by
  have h := montgomeryReductionInner_spec modNegInv upper.limbs lower.limbs modulus.limbs
    (by simp [Uint.length_limbs]) (by simp [Uint.length_limbs]) hinv
  rw [modulus.length_limbs] at h
  exact h

/-- What is retrieved is the reduction of what is stored. -/
theorem montgomeryRetrieve_isRedc (a modulus : Uint n) (modNegInv : Limb)
    (hinv : NegInv modulus.limbs modNegInv) :
    Montgomery.IsRedc ((2 ^ 64) ^ n) modulus.toNat a.toNat
      (montgomeryRetrieve a modulus modNegInv).toNat := by
  have hzero : (Uint.zero : Uint n).limbs.length = n := Uint.length_limbs _
  have h0 : value (Uint.zero : Uint n).limbs = 0 := Uint.toNat_zero
  by_cases hn : n = 0
  · subst hn
    have ha := a.toNat_lt
    have hr := (montgomeryRetrieve a modulus modNegInv).toNat_lt
    exact ⟨0, Nat.one_pos, by omega⟩
  · have hne : (Uint.zero : Uint n).limbs ≠ [] := by
      intro hnil
      rw [hnil] at hzero
      exact hn hzero.symm
    have hrun := montgomeryRetrieveInner_spec modNegInv modulus.limbs hinv a.limbs
      (Uint.zero : Uint n).limbs (modulus.length_limbs.trans hzero.symm) hne
    have hredc := Montgomery.run_isRedc (Y := 1) (Nat.two_pow_pos 64) hinv
      (a.limbs.map BitVec.toNat)
    rw [h0] at hrun
    rw [← hrun, List.length_map, a.length_limbs, Nat.mul_one] at hredc
    exact hredc

end Uint

end Ed301
