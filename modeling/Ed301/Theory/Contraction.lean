import Ed301.Theory.Divstep
import Mathlib.Algebra.Order.Field.Rat
import Mathlib.Tactic.FieldSimp
import Mathlib.Tactic.Linarith
import Mathlib.Tactic.NormNum
import Mathlib.Tactic.Positivity

/-!
# How Many Division Steps Are Enough

A division step can make the numbers larger relative to each other, so no one
measure of their size shrinks at every step. What shrinks is a measure that
depends on the counter: a quadratic form for each of its values, chosen so that
every step a state can take multiplies the form by at most `rate`.

That the forms shrink is a condition on their coefficients alone, one for each
value of the counter and each kind of step (`Contracts`). `run_g_eq_zero` needs
no more: after enough steps the form is below what it is worth on integers of
which the second, or with a negative counter the first, is not zero. The first
is odd, so the counter is positive then and the second is zero.

`weight` is such a family. Its first coefficients were found by numerical
optimization, which the proof does not rely on; far from one they follow
geometric sequences. A step shrinks the form by `21 / 37`, hence the numbers by
`0.753`.

## Main definitions

* `Form`: A quadratic form in the two numbers.
* `Form.even`, `Form.add`, `Form.swap`: The form after each kind of step.
* `Contracts`: Every step shrinks the forms.
* `Floor`: What the forms are worth at least.
* `weight`: A family of forms that shrink.

## Theorems

* `size_run`: The form after `n` steps.
* `run_g_eq_zero`: The second number vanishes.
* `weight_contracts`: The family shrinks.
* `steps_suffice`: A bound on the steps for numbers up to `M`.
-/

namespace Ed301

namespace Divstep

/-- The quadratic form `a f² + b f g + c g²`. -/
structure Form where
  a : ℚ
  b : ℚ
  c : ℚ

namespace Form

def eval (q : Form) (f g : ℚ) : ℚ := q.a * f ^ 2 + q.b * f * g + q.c * g ^ 2

/-- The form after an even step. -/
def even (q : Form) : Form := ⟨q.a, q.b / 2, q.c / 4⟩

/-- The form after an addition. -/
def add (q : Form) : Form := ⟨q.a + q.b / 2 + q.c / 4, q.b / 2 + q.c / 2, q.c / 4⟩

/-- The form after the numbers traded places. -/
def swap (q : Form) : Form := ⟨q.c / 4, -(q.b / 2) - q.c / 2, q.a + q.b / 2 + q.c / 4⟩

/-- Whether `q` is at most `rate` times `p`, by the coefficients of the
    difference. -/
structure Below (rate : ℚ) (q p : Form) : Prop where
  a : q.a ≤ rate * p.a
  c : q.c ≤ rate * p.c
  disc : (rate * p.b - q.b) ^ 2 ≤ 4 * (rate * p.a - q.a) * (rate * p.c - q.c)

/-- A form without negative values. -/
theorem nonneg_of_disc (a b c f g : ℚ) (ha : 0 ≤ a) (hc : 0 ≤ c) (hdisc : b ^ 2 ≤ 4 * a * c) :
    0 ≤ a * f ^ 2 + b * f * g + c * g ^ 2 := by
  by_cases h : a = 0
  · subst h
    have hb : b = 0 := by nlinarith
    rw [hb]
    nlinarith [sq_nonneg g]
  · have hpos : 0 < a := lt_of_le_of_ne ha (Ne.symm h)
    -- Completing the square leaves the discriminant as the other coefficient.
    have hsq : 0 ≤ 4 * a * (a * f ^ 2 + b * f * g + c * g ^ 2) := by
      have hsum : 4 * a * (a * f ^ 2 + b * f * g + c * g ^ 2)
          = (2 * a * f + b * g) ^ 2 + (4 * a * c - b ^ 2) * g ^ 2 := by ring
      rw [hsum]
      have hrest := mul_nonneg (sub_nonneg.mpr hdisc) (sq_nonneg g)
      have hfirst := sq_nonneg (2 * a * f + b * g)
      linarith
    exact nonneg_of_mul_nonneg_right hsq (by linarith)

theorem Below.eval_le {rate : ℚ} {q p : Form} (h : Below rate q p) (f g : ℚ) :
    q.eval f g ≤ rate * p.eval f g := by
  have hdiff := nonneg_of_disc _ _ _ f g (sub_nonneg.mpr h.a) (sub_nonneg.mpr h.c) h.disc
  unfold eval
  linarith

/-- What a form is worth at least where the second number is not zero. -/
theorem le_eval_of_right (q : Form) (μ f g : ℚ) (ha : 0 < q.a)
    (hμ : 4 * q.a * μ ≤ 4 * q.a * q.c - q.b ^ 2) (hμ0 : 0 ≤ μ) (hg : 1 ≤ g ^ 2) :
    μ ≤ q.eval f g := by
  have hsum : 4 * q.a * q.eval f g
      = (2 * q.a * f + q.b * g) ^ 2 + (4 * q.a * q.c - q.b ^ 2) * g ^ 2 := by
    unfold eval
    ring
  have hpos : 0 ≤ 4 * q.a * μ := by positivity
  have hlow : 4 * q.a * μ ≤ 4 * q.a * q.eval f g := by
    have hfirst := sq_nonneg (2 * q.a * f + q.b * g)
    have hrest : 4 * q.a * μ * 1 ≤ (4 * q.a * q.c - q.b ^ 2) * g ^ 2 :=
      mul_le_mul hμ hg zero_le_one (hpos.trans hμ)
    linarith
  exact le_of_mul_le_mul_left hlow (by linarith)

/-- The same for the first number. -/
theorem le_eval_of_left (q : Form) (μ f g : ℚ) (hc : 0 < q.c)
    (hμ : 4 * q.c * μ ≤ 4 * q.a * q.c - q.b ^ 2) (hμ0 : 0 ≤ μ) (hf : 1 ≤ f ^ 2) :
    μ ≤ q.eval f g := by
  have hswap := le_eval_of_right ⟨q.c, q.b, q.a⟩ μ g f hc (by linarith) hμ0 hf
  unfold eval at hswap ⊢
  linarith

end Form

/-- Every step shrinks the forms. The index of a form is half the counter. -/
structure Contracts (rate : ℚ) (q : ℤ → Form) : Prop where
  even : ∀ k, Form.Below rate (q (k + 1)).even (q k)
  add : ∀ k < 0, Form.Below rate (q (k + 1)).add (q k)
  swap : ∀ k, 0 ≤ k → Form.Below rate (q (-k)).swap (q k)

/-- What the forms are worth at least on integers of which the second, or with
    a negative counter the first, is not zero. -/
structure Floor (μ : ℚ) (q : ℤ → Form) : Prop where
  pos : 0 ≤ μ
  right : ∀ k, 0 ≤ k → 0 < (q k).a ∧ 4 * (q k).a * μ ≤ 4 * (q k).a * (q k).c - (q k).b ^ 2
  left : ∀ k < 0, 0 < (q k).c ∧ 4 * (q k).c * μ ≤ 4 * (q k).a * (q k).c - (q k).b ^ 2

section Run

variable {rate μ : ℚ} {q : ℤ → Form}

/-- The form of a state. -/
def size (q : ℤ → Form) (s : State) : ℚ := (q (s.delta / 2)).eval s.f s.g

theorem size_step (h : Contracts rate q) (s : State) (hf : s.f % 2 = 1)
    (hdelta : s.delta % 2 = 1) : size q (step s) ≤ rate * size q s := by
  unfold size
  rcases step_cases s .identity hf with ⟨_, d, e1, e2, _⟩ | ⟨_, p, d, e1, e2, _⟩
    | ⟨_, p, d, e1, e2, _⟩
  -- The even step, the trade and the addition, in this order.
  · have hindex : (step s).delta / 2 = s.delta / 2 + 1 := by omega
    have hg : (s.g : ℚ) = 2 * ((step s).g : ℚ) := by exact_mod_cast e2.symm
    have hle := (h.even (s.delta / 2)).eval_le s.f s.g
    rw [hindex, e1]
    refine le_trans (le_of_eq ?_) hle
    unfold Form.eval Form.even
    rw [hg]
    ring
  · have hindex : (step s).delta / 2 = -(s.delta / 2) := by omega
    -- The old numbers in terms of the new ones, so that the form is evaluated there.
    have hf' : (s.f : ℚ) = s.g - 2 * ((step s).g : ℚ) := by
      have : s.f = s.g - 2 * (step s).g := by omega
      exact_mod_cast this
    have hle := (h.swap (s.delta / 2) (by omega)).eval_le s.f s.g
    rw [hindex, e1]
    refine le_trans (le_of_eq ?_) hle
    unfold Form.eval Form.swap
    rw [hf']
    ring
  · have hindex : (step s).delta / 2 = s.delta / 2 + 1 := by omega
    have hg : (s.g : ℚ) = 2 * ((step s).g : ℚ) - s.f := by
      have : s.g = 2 * (step s).g - s.f := by omega
      exact_mod_cast this
    have hle := (h.add (s.delta / 2) (by omega)).eval_le s.f s.g
    rw [hindex, e1]
    refine le_trans (le_of_eq ?_) hle
    unfold Form.eval Form.add
    rw [hg]
    ring

theorem delta_odd_run (s : State) (h : s.delta % 2 = 1) (n : ℕ) :
    (step^[n] s).delta % 2 = 1 := by
  induction n with
  | zero => exact h
  | succ n ih =>
      rw [Function.iterate_succ_apply']
      exact delta_odd_step _ ih

/-- The form after `n` steps. -/
theorem size_run (h : Contracts rate q) (hrate : 0 ≤ rate) (s : State) (hf : s.f % 2 = 1)
    (hdelta : s.delta % 2 = 1) (n : ℕ) : size q (step^[n] s) ≤ rate ^ n * size q s := by
  induction n with
  | zero => simp
  | succ n ih =>
      have hstep := size_step h _ (run_f_odd s hf n) (delta_odd_run s hdelta n)
      rw [Function.iterate_succ_apply', pow_succ']
      calc size q (step (step^[n] s)) ≤ rate * size q (step^[n] s) := hstep
        _ ≤ rate * (rate ^ n * size q s) := mul_le_mul_of_nonneg_left ih hrate
        _ = rate * rate ^ n * size q s := by ring

/-- A nonzero integer has a square of at least one. -/
theorem one_le_sq_of_ne_zero (x : ℤ) (h : x ≠ 0) : (1 : ℚ) ≤ (x : ℚ) ^ 2 := by
  have hint : 1 ≤ x ^ 2 := by
    have hpos : 0 < x ^ 2 := by positivity
    omega
  exact_mod_cast hint

/-- The second number vanishes once the form has shrunk below the floor. -/
theorem run_g_eq_zero (h : Contracts rate q) (hfloor : Floor μ q) (hrate : 0 ≤ rate) (s : State)
    (hf : s.f % 2 = 1) (hdelta : s.delta % 2 = 1) (n : ℕ) (hn : rate ^ n * size q s < μ) :
    (step^[n] s).g = 0 := by
  -- The first number is odd and so not zero. If the second were not zero either,
  -- the form would be worth at least the floor.
  have hsize := (size_run h hrate s hf hdelta n).trans_lt hn
  have hodd := run_f_odd s hf n
  by_contra hg
  unfold size at hsize
  by_cases hk : 0 ≤ (step^[n] s).delta / 2
  · rcases hfloor.right _ hk with ⟨ha, hdisc⟩
    have hle := Form.le_eval_of_right _ μ (step^[n] s).f (step^[n] s).g ha hdisc hfloor.pos
      (one_le_sq_of_ne_zero _ hg)
    linarith
  · rcases hfloor.left ((step^[n] s).delta / 2) (by omega) with ⟨hc, hdisc⟩
    have hle := Form.le_eval_of_left _ μ (step^[n] s).f (step^[n] s).g hc hdisc hfloor.pos
      (one_le_sq_of_ne_zero _ (by omega))
    linarith

end Run

/-- The forms of nonnegative index. -/
def weightNonneg : ℕ → Form
  | 0 => ⟨152, -152, 303⟩
  | 1 => ⟨86, -172, 687⟩
  | 2 => ⟨48, -189, 1537⟩
  | 3 => ⟨26, -197, 3374⟩
  | 4 => ⟨14, -191, 7245⟩
  | 5 => ⟨7, -156, 14943⟩
  | i + 6 => ⟨3 * (1 / 2) ^ i, 0, 25704 * (9 / 5) ^ i⟩

/-- The forms of negative index, from minus one down. -/
def weightNeg : ℕ → Form
  | 0 => ⟨341, 0, 195⟩
  | 1 => ⟨772, 101, 104⟩
  | 2 => ⟨1634, 137, 51⟩
  | 3 => ⟨3281, 131, 25⟩
  | 4 => ⟨6496, 98, 12⟩
  | 5 => ⟨13051, 44, 6⟩
  | i + 6 => ⟨25704 * (9 / 5) ^ i, 0, 3 * (1 / 2) ^ i⟩

/-- A form for each index. -/
def weight : ℤ → Form
  | Int.ofNat i => weightNonneg i
  | Int.negSucc i => weightNeg i

/-- The two sequences far from one. -/
theorem tail_bounds (i : ℕ) : 0 < (1 / 2 : ℚ) ^ i ∧ (1 / 2 : ℚ) ^ i ≤ (9 / 5) ^ i :=
  ⟨by positivity, pow_le_pow_left₀ (by norm_num) (by norm_num) i⟩

/-- The forms of nonnegative index shrink where the second number is halved. -/
theorem even_weightNonneg (i : ℕ) :
    Form.Below (21 / 37) (weightNonneg (i + 1)).even (weightNonneg i) := by
  rcases i with _ | _ | _ | _ | _ | _ | i
  iterate 6 constructor <;> norm_num [weightNonneg, Form.even]
  · rcases tail_bounds i with ⟨hpos, hle⟩
    constructor
    · simp only [weightNonneg, Form.even, pow_succ]
      linarith
    · simp only [weightNonneg, Form.even, pow_succ]
      linarith
    · simp only [weightNonneg, Form.even, pow_succ]
      nlinarith

/-- Those of negative index shrink where it is halved. -/
theorem even_weightNeg (i : ℕ) :
    Form.Below (21 / 37) (weightNeg i).even (weightNeg (i + 1)) := by
  rcases i with _ | _ | _ | _ | _ | _ | i
  iterate 6 constructor <;> norm_num [weightNeg, Form.even]
  · rcases tail_bounds i with ⟨hpos, hle⟩
    constructor
    · simp only [weightNeg, Form.even, pow_succ]
      linarith
    · simp only [weightNeg, Form.even, pow_succ]
      linarith
    · simp only [weightNeg, Form.even, pow_succ]
      nlinarith

/-- Those of negative index shrink where the first number is added. -/
theorem add_weightNeg (i : ℕ) :
    Form.Below (21 / 37) (weightNeg i).add (weightNeg (i + 1)) := by
  rcases i with _ | _ | _ | _ | _ | _ | i
  iterate 6 constructor <;> norm_num [weightNeg, Form.add]
  · rcases tail_bounds i with ⟨hpos, hle⟩
    constructor
    · simp only [weightNeg, Form.add, pow_succ]
      linarith
    · simp only [weightNeg, Form.add, pow_succ]
      linarith
    · simp only [weightNeg, Form.add, pow_succ]
      nlinarith

/-- Those of positive index shrink where the numbers trade places. -/
theorem swap_weightNonneg (i : ℕ) :
    Form.Below (21 / 37) (weightNeg i).swap (weightNonneg (i + 1)) := by
  rcases i with _ | _ | _ | _ | _ | _ | i
  iterate 6 constructor <;> norm_num [weightNeg, weightNonneg, Form.swap]
  · rcases tail_bounds i with ⟨hpos, hle⟩
    constructor
    · simp only [weightNeg, weightNonneg, Form.swap, pow_succ]
      linarith
    · simp only [weightNeg, weightNonneg, Form.swap, pow_succ]
      linarith
    · simp only [weightNeg, weightNonneg, Form.swap, pow_succ]
      nlinarith

/-- The steps that lead to the form of index zero. -/
theorem even_weight_zero : Form.Below (21 / 37) (weightNonneg 0).even (weightNeg 0) := by
  constructor <;> norm_num [weightNeg, weightNonneg, Form.even]

theorem add_weight_zero : Form.Below (21 / 37) (weightNonneg 0).add (weightNeg 0) := by
  constructor <;> norm_num [weightNeg, weightNonneg, Form.add]

theorem swap_weight_zero : Form.Below (21 / 37) (weightNonneg 0).swap (weightNonneg 0) := by
  constructor <;> norm_num [weightNonneg, Form.swap]

/-- The family shrinks. -/
theorem weight_contracts : Contracts (21 / 37) weight := by
  constructor
  · intro k
    rcases k with i | i
    · exact even_weightNonneg i
    · rcases i with _ | i
      · exact even_weight_zero
      · exact even_weightNeg i
  · intro k hk
    rcases k with i | i
    · exact absurd (Int.natCast_nonneg i) (not_le.mpr hk)
    · rcases i with _ | i
      · exact add_weight_zero
      · exact add_weightNeg i
  · intro k hk
    rcases k with i | i
    · rcases i with _ | i
      · exact swap_weight_zero
      · exact swap_weightNonneg i
    · exact absurd hk (by omega)

/-- The floor of the family. -/
theorem weight_floor : Floor 265 weight := by
  refine ⟨by norm_num, ?_, ?_⟩
  · intro k hk
    rcases k with i | i
    · rcases i with _ | _ | _ | _ | _ | _ | i
      iterate 6 constructor <;> norm_num [weight, weightNonneg]
      · rcases tail_bounds i with ⟨hpos, hle⟩
        have hone : (1 : ℚ) ≤ (9 / 5) ^ i := one_le_pow₀ (by norm_num)
        constructor
        · simp only [weight, weightNonneg]
          linarith
        · simp only [weight, weightNonneg]
          nlinarith
    · exact absurd hk (by omega)
  · intro k hk
    rcases k with i | i
    · exact absurd (Int.natCast_nonneg i) (not_le.mpr hk)
    · rcases i with _ | _ | _ | _ | _ | _ | i
      iterate 6 constructor <;> norm_num [weight, weightNeg]
      · rcases tail_bounds i with ⟨hpos, hle⟩
        have hone : (1 : ℚ) ≤ (9 / 5) ^ i := one_le_pow₀ (by norm_num)
        constructor
        · simp only [weight, weightNeg]
          linarith
        · simp only [weight, weightNeg]
          nlinarith

/-- The form of two numbers up to `M` to start from. -/
theorem size_start (f g M : ℤ) (hf : 0 ≤ f) (hfM : f ≤ M) (hg : 0 ≤ g) (hgM : g ≤ M) :
    size weight ⟨1, f, g⟩ ≤ 303 * (M : ℚ) ^ 2 := by
  have hint : 152 * f ^ 2 - 152 * (f * g) + 303 * g ^ 2 ≤ 303 * M ^ 2 := by
    nlinarith
  have hcast : size weight ⟨1, f, g⟩ = ((152 * f ^ 2 - 152 * (f * g) + 303 * g ^ 2 : ℤ) : ℚ) := by
    unfold size
    simp only [weight, weightNonneg, Form.eval]
    push_cast
    ring
  rw [hcast]
  exact_mod_cast hint

/-- A bound on the steps for numbers up to `M`. -/
theorem steps_suffice (f g M : ℤ) (hodd : f % 2 = 1) (hf : 0 ≤ f) (hfM : f ≤ M) (hg : 0 ≤ g)
    (hgM : g ≤ M) (n : ℕ) (hn : 303 * M ^ 2 * 21 ^ n < 265 * 37 ^ n) :
    (step^[n] ⟨1, f, g⟩).g = 0 := by
  refine run_g_eq_zero weight_contracts weight_floor (by norm_num) _ hodd rfl n ?_
  have hstart := size_start f g M hf hfM hg hgM
  have hcast : (303 * (M : ℚ) ^ 2 * 21 ^ n) < 265 * 37 ^ n := by exact_mod_cast hn
  calc (21 / 37 : ℚ) ^ n * size weight ⟨1, f, g⟩ ≤ (21 / 37) ^ n * (303 * (M : ℚ) ^ 2) :=
        mul_le_mul_of_nonneg_left hstart (by positivity)
    _ = 303 * (M : ℚ) ^ 2 * 21 ^ n / 37 ^ n := by rw [div_pow]; ring
    _ < 265 := by rwa [div_lt_iff₀ (by positivity)]

end Divstep

end Ed301
