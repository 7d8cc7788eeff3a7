import Mathlib.Data.Nat.Digits.Lemmas
import Mathlib.Data.ZMod.Units
import Mathlib.Tactic.Linarith
import Mathlib.Tactic.LinearCombination
import Mathlib.Tactic.Ring

/-!
# Montgomery Reduction

Division by a factor `R`, modulo an odd number, without dividing.

A reduction of `T` is a number `Z` with `R Z = T + U m` for some `U` below `R`.
There is only one, however it is computed, so that two algorithms which both
reduce give the same number, reduced modulo `m` or not. It lies below
`T / R + m`, and modulo `m` it is `T` divided by `R`.

The interleaved algorithm takes the digits of one factor one after the other,
adds the multiple of the other factor, and makes the sum divisible by the base
with a multiple of the modulus. It computes the reduction of the product, and
what it carries stays below the sum of the other factor and the modulus.

A residue `x` is kept as the number `R x` modulo `m`. Multiplying two such
numbers and reducing gives the number of the product, and reducing one of them
gives the residue back.

## Main definitions

* `IsRedc`: Being the reduction of a number.
* `step`, `run`: The interleaved algorithm.
* `condSub`: The final subtraction.
* `Form`: A number standing for a residue.

## Theorems

* `IsRedc.unique`: There is one reduction.
* `IsRedc.lt_add_one_mul`, `IsRedc.lt_add`, `IsRedc.lt_min_add`,
  `IsRedc.le_modulus`: How large it is.
* `run_isRedc`, `run_lt`: The interleaved algorithm reduces the product.
* `Form.mul`, `Form.retrieve`, `Form.new`: Computing with residues.
-/

namespace Ed301

namespace Montgomery

variable {R m : ℕ}

/-- `Z` is the reduction of `T` modulo `m` by the factor `R`. -/
def IsRedc (R m T Z : ℕ) : Prop :=
  ∃ U, U < R ∧ R * Z = T + U * m

namespace IsRedc

variable {T Z : ℕ}

/-- The multiple of the modulus, and with it the reduction, is determined
    modulo the factor. -/
theorem unique {Z' : ℕ} (hR : R.Coprime m) (h : IsRedc R m T Z) (h' : IsRedc R m T Z') :
    Z = Z' := by
  rcases h with ⟨U, hU, hZ⟩
  rcases h' with ⟨U', hU', hZ'⟩
  have hpos : 0 < R := Nat.zero_lt_of_lt hU
  -- Both multiples cancel the same remainder, and the modulus is a unit.
  have hmod : T + U * m ≡ T + U' * m [MOD R] := by
    rw [← hZ, ← hZ']
    exact (Nat.mul_mod_right R Z).trans (Nat.mul_mod_right R Z').symm
  have hUU : U ≡ U' [MOD R] :=
    Nat.ModEq.cancel_right_of_coprime hR (Nat.ModEq.add_left_cancel' T hmod)
  have heq : U = U' := by
    rw [← Nat.mod_eq_of_lt hU, ← Nat.mod_eq_of_lt hU']
    exact hUU
  rw [← heq, ← hZ] at hZ'
  exact (Nat.eq_of_mul_eq_mul_left hpos hZ').symm

/-- A number of `j` moduli times the factor reduces to less than one modulus
    more. -/
theorem lt_add_one_mul (hm : 0 < m) (h : IsRedc R m T Z) (j : ℕ) (hT : T < j * (R * m)) :
    Z < (j + 1) * m := by
  rcases h with ⟨U, hU, hZ⟩
  have hUm : U * m < R * m := Nat.mul_lt_mul_of_pos_right hU hm
  refine Nat.lt_of_mul_lt_mul_left (a := R) ?_
  rw [hZ]
  calc T + U * m < j * (R * m) + R * m := Nat.add_lt_add hT hUm
    _ = R * ((j + 1) * m) := by ring

/-- A number of `j` factors reduces to less than `j` more than the modulus. -/
theorem lt_add (h : IsRedc R m T Z) (j : ℕ) (hT : T < j * R) : Z < j + m := by
  rcases h with ⟨U, hU, hZ⟩
  have hUm : U * m ≤ R * m := Nat.mul_le_mul_right m (Nat.le_of_lt hU)
  refine Nat.lt_of_mul_lt_mul_left (a := R) ?_
  rw [hZ]
  calc T + U * m < j * R + R * m := Nat.add_lt_add_of_lt_of_le hT hUm
    _ = R * (j + m) := by ring

/-- What is below the factor reduces to at most the modulus. -/
theorem le_modulus (h : IsRedc R m T Z) (hm : 0 < m) (hT : T < R) : Z ≤ m := by
  rcases h with ⟨U, hU, hZ⟩
  have hle : (U + 1) * m ≤ R * m := Nat.mul_le_mul_right m hU
  refine Nat.lt_succ_iff.mp (Nat.lt_of_mul_lt_mul_left (a := R) ?_)
  rw [hZ, Nat.mul_succ]
  -- The largest multiple leaves room for what is below the factor.
  have hexp : (U + 1) * m = U * m + m := Nat.succ_mul U m
  omega

/-- What is below the modulus reduces to less than the modulus. -/
theorem lt_modulus (h : IsRedc R m T Z) (hT : T < m) : Z < m := by
  rcases h with ⟨U, hU, hZ⟩
  have hle : (U + 1) * m ≤ R * m := Nat.mul_le_mul_right m hU
  refine Nat.lt_of_mul_lt_mul_left (a := R) ?_
  rw [hZ]
  have hexp : (U + 1) * m = U * m + m := Nat.succ_mul U m
  omega

/-- The reduction of a product exceeds neither factor by the modulus. -/
theorem lt_min_add {a b : ℕ} (hm : 0 < m) (h : IsRedc R m (a * b) Z) (ha : a ≤ R)
    (hb : b ≤ R) : Z < min a b + m := by
  have hfactor : ∀ c d : ℕ, c ≤ R → a * b = c * d → Z < d + m := by
    intro c d hc hcd
    rcases id h with ⟨U, hU, hZ⟩
    have hUm : U * m < R * m := Nat.mul_lt_mul_of_pos_right hU hm
    refine Nat.lt_of_mul_lt_mul_left (a := R) ?_
    rw [hZ, hcd]
    calc c * d + U * m < R * d + R * m :=
          Nat.add_lt_add_of_le_of_lt (Nat.mul_le_mul_right d hc) hUm
      _ = R * (d + m) := (Nat.mul_add R d m).symm
  -- Either factor may be the one that is replaced by the bound.
  have hleft := hfactor b a hb (Nat.mul_comm a b)
  have hright := hfactor a b ha rfl
  omega

/-- A reduction takes at most one subtraction more than the smaller of the
    factors takes. -/
theorem div_le {a b : ℕ} (hm : 0 < m) (h : IsRedc R m (a * b) Z) (ha : a ≤ R) (hb : b ≤ R) :
    Z / m ≤ min (a / m) (b / m) + 1 := by
  have hlt := h.lt_min_add hm ha hb
  have hfactor : ∀ c : ℕ, min a b ≤ c → Z / m ≤ c / m + 1 := by
    intro c hc
    rw [← Nat.add_div_right c hm]
    exact Nat.div_le_div_right (by omega)
  have hleft := hfactor a (Nat.min_le_left a b)
  have hright := hfactor b (Nat.min_le_right a b)
  omega

/-- The modulus itself is the reduction of exactly its multiples up to the
    factor. -/
theorem eq_modulus_iff (hR : R.Coprime m) (hm : 0 < m) (h : IsRedc R m T Z) (hT : T < R) :
    Z = m ↔ 0 < T ∧ m ∣ T := by
  constructor
  · intro hZm
    rcases h with ⟨U, hU, hZ⟩
    rw [hZm] at hZ
    -- The number is what the multiple lacks of the factor times the modulus.
    have hsplit : R * m = (R - U) * m + U * m := by
      rw [← Nat.add_mul, Nat.sub_add_cancel (Nat.le_of_lt hU)]
    have hT' : T = (R - U) * m := by omega
    refine ⟨?_, hT' ▸ Nat.dvd_mul_left m _⟩
    rw [hT']
    exact Nat.mul_pos (Nat.sub_pos_of_lt hU) hm
  · intro hdvd
    rcases hdvd.2 with ⟨t, ht⟩
    have htpos : 0 < t := by
      by_contra hzero
      have : t = 0 := by omega
      rw [ht, this, Nat.mul_zero] at hdvd
      exact absurd hdvd.1 (Nat.lt_irrefl 0)
    have htle : t ≤ R := by
      have : t ≤ m * t := Nat.le_mul_of_pos_left t hm
      omega
    -- The modulus is a reduction too, and there is only one.
    refine unique hR h ⟨R - t, by omega, ?_⟩
    rw [ht, Nat.mul_comm m t, ← Nat.add_mul]
    congr 1
    omega

/-- Modulo `m` the reduction divides by the factor. -/
theorem cast_mul (h : IsRedc R m T Z) : (R : ZMod m) * (Z : ZMod m) = (T : ZMod m) := by
  rcases h with ⟨U, _, hZ⟩
  have hcast := congrArg (fun n : ℕ => (n : ZMod m)) hZ
  simpa using hcast

end IsRedc

section Run

variable (B m k Y : ℕ)

/-- The multiple of the modulus that makes a number divisible by the base. -/
def quotient (T : ℕ) : ℕ := T * k % B

/-- Take in a digit, make the sum divisible and divide. -/
def step (x T : ℕ) : ℕ :=
  (T + x * Y + quotient B k (T + x * Y) * m) / B

/-- Take in digits, the lowest first. -/
def run : List ℕ → ℕ → ℕ
  | [], T => T
  | x :: xs, T => run xs (step B m k Y x T)

variable {B m k Y}

/-- The base divides a number with its multiple of the modulus added. -/
theorem dvd_add_quotient (hk : B ∣ m * k + 1) (T : ℕ) : B ∣ T + quotient B k T * m := by
  -- The multiple counts by its residue, so it may be taken unreduced.
  have hmod : T + quotient B k T * m ≡ T * (m * k + 1) [MOD B] := by
    have hq : quotient B k T * m ≡ T * k * m [MOD B] :=
      Nat.ModEq.mul_right m (Nat.mod_modEq (T * k) B)
    calc T + quotient B k T * m ≡ T + T * k * m [MOD B] := Nat.ModEq.add_left T hq
      _ = T * (m * k + 1) := by ring
  exact (Nat.modEq_zero_iff_dvd).mp
    (hmod.trans ((Nat.modEq_zero_iff_dvd).mpr (Dvd.dvd.mul_left hk T)))

/-- The multiple depends on the lowest digit only. -/
theorem quotient_congr {T T' : ℕ} (h : T ≡ T' [MOD B]) : quotient B k T = quotient B k T' :=
  Nat.ModEq.mul_right k h

theorem quotient_lt (hB : 0 < B) (T : ℕ) : quotient B k T < B := Nat.mod_lt _ hB

/-- The division in a step is exact. -/
theorem mul_step (hk : B ∣ m * k + 1) (x T : ℕ) :
    B * step B m k Y x T = T + x * Y + quotient B k (T + x * Y) * m :=
  Nat.mul_div_cancel' (dvd_add_quotient hk _)

/-- A step keeps what is carried below the factor and the modulus together. -/
theorem step_lt (hB : 0 < B) (hk : B ∣ m * k + 1) (x T : ℕ) (hx : x < B) (hT : T < Y + m) :
    step B m k Y x T < Y + m := by
  have hq := quotient_lt (k := k) hB (T + x * Y)
  refine Nat.lt_of_mul_lt_mul_left (a := B) ?_
  rw [mul_step hk]
  -- A digit below the base leaves room for one more of either summand.
  have hxY : (x + 1) * Y ≤ B * Y := Nat.mul_le_mul_right Y hx
  have hqm : (quotient B k (T + x * Y) + 1) * m ≤ B * m := Nat.mul_le_mul_right m hq
  rw [Nat.succ_mul] at hxY hqm
  rw [Nat.mul_add]
  omega

theorem run_lt (hB : 0 < B) (hk : B ∣ m * k + 1) (xs : List ℕ) (hxs : ∀ x ∈ xs, x < B) :
    ∀ T, T < Y + m → run B m k Y xs T < Y + m := by
  induction xs with
  | nil => intro T hT; exact hT
  | cons x xs ih =>
      intro T hT
      have hx := hxs x List.mem_cons_self
      exact ih (fun y hy => hxs y (List.mem_cons_of_mem x hy)) _ (step_lt hB hk x T hx hT)

/-- Taking in digits divides by the base as many times. -/
theorem run_eq (hB : 0 < B) (hk : B ∣ m * k + 1) (xs : List ℕ) :
    ∀ T, ∃ U, U < B ^ xs.length ∧
      B ^ xs.length * run B m k Y xs T = T + Nat.ofDigits B xs * Y + U * m := by
  induction xs with
  | nil => intro T; exact ⟨0, by simp, by simp [run]⟩
  | cons x xs ih =>
      intro T
      rcases ih (step B m k Y x T) with ⟨U, hU, hrun⟩
      have hstep := mul_step (Y := Y) hk x T
      have hq := quotient_lt (k := k) hB (T + x * Y)
      -- The multiples of the steps are the digits of the multiple of the run.
      refine ⟨quotient B k (T + x * Y) + B * U, ?_, ?_⟩
      · rw [List.length_cons, pow_succ']
        nlinarith
      · simp only [run, List.length_cons, pow_succ', Nat.ofDigits_cons]
        linear_combination B * hrun + hstep

/-- The interleaved algorithm reduces the product. -/
theorem run_isRedc (hB : 0 < B) (hk : B ∣ m * k + 1) (xs : List ℕ) :
    IsRedc (B ^ xs.length) m (Nat.ofDigits B xs * Y) (run B m k Y xs 0) := by
  rcases run_eq (Y := Y) hB hk xs 0 with ⟨U, hU, hrun⟩
  exact ⟨U, hU, by rw [hrun, Nat.zero_add]⟩

end Run

/-- The final subtraction, made if it does not go below zero. -/
def condSub (m Z : ℕ) : ℕ :=
  if Z < m then Z else Z - m

theorem condSub_lt (Z : ℕ) (h : Z < 2 * m) : condSub m Z < m := by
  unfold condSub
  by_cases hlt : Z < m
  · rw [if_pos hlt]
    exact hlt
  · rw [if_neg hlt]
    omega

theorem condSub_modEq (m Z : ℕ) : condSub m Z ≡ Z [MOD m] := by
  unfold condSub
  split
  · rfl
  · rename_i h
    rw [Nat.modEq_iff_dvd' (Nat.sub_le Z m), Nat.sub_sub_self (not_lt.mp h)]

theorem cast_condSub (Z : ℕ) : ((condSub m Z : ℕ) : ZMod m) = (Z : ZMod m) := by
  unfold condSub
  by_cases hlt : Z < m
  · rw [if_pos hlt]
  · rw [if_neg hlt, Nat.cast_sub (Nat.not_lt.mp hlt), ZMod.natCast_self, sub_zero]

/-- A subtraction of the modulus made only if the factor is reached. -/
def dropOverflow (R m Z : ℕ) : ℕ :=
  if Z < R then Z else Z - m

theorem dropOverflow_le (Z : ℕ) : dropOverflow R m Z ≤ Z := by
  unfold dropOverflow
  by_cases hlt : Z < R
  · rw [if_pos hlt]
  · rw [if_neg hlt]
    exact Nat.sub_le Z m

theorem cast_dropOverflow (hmR : m ≤ R) (Z : ℕ) :
    ((dropOverflow R m Z : ℕ) : ZMod m) = (Z : ZMod m) := by
  unfold dropOverflow
  by_cases hlt : Z < R
  · rw [if_pos hlt]
  · rw [if_neg hlt, Nat.cast_sub (by omega), ZMod.natCast_self, sub_zero]

/-- A reduced number that stands for a residue. -/
structure Form (R m a : ℕ) (x : ZMod m) : Prop where
  lt : a < m
  cast : (a : ZMod m) = (R : ZMod m) * x

namespace Form

variable {a b : ℕ} {x y : ZMod m}

theorem isUnit_factor (hR : R.Coprime m) : IsUnit (R : ZMod m) :=
  (ZMod.isUnit_iff_coprime R m).mpr hR

/-- Numbers that stand for the same residue are equal. -/
theorem unique (ha : Form R m a x) (hb : Form R m b x) : a = b := by
  have hcast : (a : ZMod m) = (b : ZMod m) := ha.cast.trans hb.cast.symm
  have hmod := (ZMod.natCast_eq_natCast_iff a b m).mp hcast
  rw [← Nat.mod_eq_of_lt ha.lt, ← Nat.mod_eq_of_lt hb.lt]
  exact hmod

/-- Equal numbers stand for equal residues. -/
theorem injective (hR : R.Coprime m) (ha : Form R m a x) (hb : Form R m a y) : x = y :=
  (isUnit_factor hR).mul_left_cancel (ha.cast.symm.trans hb.cast)

/-- Zero. -/
theorem zero (hm : 0 < m) : Form R m 0 0 where
  lt := hm
  cast := by rw [Nat.cast_zero, mul_zero]

/-- One is stored as the factor. -/
theorem one (hm : 0 < m) : Form R m (R % m) 1 where
  lt := Nat.mod_lt R hm
  cast := by rw [ZMod.natCast_mod, mul_one]

/-- A reduced negative. -/
theorem neg (ha : Form R m a x) : Form R m (if a = 0 then 0 else m - a) (-x) where
  lt := by
    have := ha.lt
    split <;> omega
  cast := by
    have hcast := ha.cast
    -- The negative of zero would be the modulus itself.
    by_cases hzero : a = 0
    · rw [hzero, Nat.cast_zero] at hcast
      rw [if_pos hzero, Nat.cast_zero, mul_neg, ← hcast, neg_zero]
    · rw [if_neg hzero, Nat.cast_sub (Nat.le_of_lt ha.lt), ZMod.natCast_self, hcast]
      ring

/-- A reduced difference. -/
theorem sub (ha : Form R m a x) (hb : Form R m b y) :
    Form R m (if a < b then a + m - b else a - b) (x - y) where
  lt := by
    have := ha.lt
    have := hb.lt
    split <;> omega
  cast := by
    have hblt := hb.lt
    by_cases hlt : a < b
    · rw [if_pos hlt, Nat.cast_sub (by omega), Nat.cast_add, ZMod.natCast_self, ha.cast, hb.cast]
      ring
    · rw [if_neg hlt, Nat.cast_sub (by omega), ha.cast, hb.cast]
      ring

/-- Half of the even one of a number and its sum with the modulus. -/
theorem half (hodd : m % 2 = 1) (ha : Form R m a x) :
    Form R m ((if a % 2 = 1 then a + m else a) / 2) ((2 : ZMod m)⁻¹ * x) where
  lt := by
    have := ha.lt
    split <;> omega
  cast := by
    have htwo : IsUnit (2 : ZMod m) := by
      have h := (ZMod.isUnit_iff_coprime 2 m).mpr
        (by rw [Nat.Coprime, Nat.gcd_rec, hodd, Nat.gcd_one_left])
      exact_mod_cast h
    have hdouble : 2 * ((if a % 2 = 1 then a + m else a) / 2) = if a % 2 = 1 then a + m else a := by
      split <;> omega
    have hcast := congrArg (fun k : ℕ => (k : ZMod m)) hdouble
    have hsum : ((if a % 2 = 1 then a + m else a : ℕ) : ZMod m) = (R : ZMod m) * x := by
      split
      · rw [Nat.cast_add, ZMod.natCast_self, add_zero, ha.cast]
      · exact ha.cast
    simp only [Nat.cast_mul, Nat.cast_ofNat, hsum] at hcast
    -- The half is determined by its double, since two is a unit.
    refine htwo.mul_left_cancel (hcast.trans ?_)
    have hinv : (2 : ZMod m) * (2 : ZMod m)⁻¹ = 1 := ZMod.mul_inv_of_unit 2 htwo
    linear_combination (-(R : ZMod m) * x) * hinv

/-- A reduced sum. -/
theorem add (ha : Form R m a x) (hb : Form R m b y) : Form R m (condSub m (a + b)) (x + y) where
  lt := condSub_lt _ (by have := ha.lt; have := hb.lt; omega)
  cast := by rw [cast_condSub, Nat.cast_add, ha.cast, hb.cast]; ring

/-- A reduction of a number below the factor times the modulus, with the final
    subtraction. -/
theorem of_isRedc (hR : R.Coprime m) (hm : 0 < m) {T Z : ℕ} (h : IsRedc R m T Z)
    (hT : T < R * m) (hcast : (T : ZMod m) = (R : ZMod m) * ((R : ZMod m) * x)) :
    Form R m (condSub m Z) x where
  lt := condSub_lt Z (lt_of_lt_of_eq (h.lt_add_one_mul hm 1 (by omega)) (by ring))
  cast := by
    rw [cast_condSub]
    exact (isUnit_factor hR).mul_left_cancel (h.cast_mul.trans hcast)

/-- The product of a number that stands for a residue and a number that need
    not be reduced. -/
theorem mul (hR : R.Coprime m) {Z : ℕ} (h : IsRedc R m (a * b) Z) (haR : a < R)
    (ha : (a : ZMod m) = (R : ZMod m) * x) (hb : Form R m b y) :
    Form R m (condSub m Z) (x * y) := by
  have hm : 0 < m := Nat.zero_lt_of_lt hb.lt
  refine of_isRedc hR hm h (Nat.mul_lt_mul'' haR hb.lt) ?_
  rw [Nat.cast_mul, ha, hb.cast]
  ring

/-- Entering: a product with the square of the factor. -/
theorem new (hR : R.Coprime m) {r2 Z : ℕ} (h : IsRedc R m (a * r2) Z) (haR : a < R)
    (hr2 : Form R m r2 (R : ZMod m)) : Form R m (condSub m Z) (a : ZMod m) := by
  have hm : 0 < m := Nat.zero_lt_of_lt hr2.lt
  refine of_isRedc hR hm h (Nat.mul_lt_mul'' haR hr2.lt) ?_
  rw [Nat.cast_mul, hr2.cast]
  ring

/-- Leaving: the reduction of the number is the residue, reduced. -/
theorem retrieve (hR : R.Coprime m) {Z : ℕ} (h : IsRedc R m a Z) (ha : Form R m a x) :
    Z < m ∧ (Z : ZMod m) = x :=
  ⟨h.lt_modulus ha.lt, (isUnit_factor hR).mul_left_cancel (h.cast_mul.trans ha.cast)⟩

/-- An inverse times the square of the factor stands for the inverse. -/
theorem inverse (hR : R.Coprime m) (ha : Form R m a x) (hxy : x * y = 1) (hb : b < m)
    (hmul : (b : ZMod m) * (a : ZMod m) = (R : ZMod m) * (R : ZMod m)) : Form R m b y where
  lt := hb
  cast := by
    have hscaled : (R : ZMod m) * ((b : ZMod m) * x) = (R : ZMod m) * (R : ZMod m) := by
      linear_combination hmul - (b : ZMod m) * ha.cast
    -- One factor is cancelled, and the other one is what storing puts on.
    have hfactor := (isUnit_factor hR).mul_left_cancel hscaled
    linear_combination y * hfactor - (b : ZMod m) * hxy

end Form

end Montgomery

end Ed301
