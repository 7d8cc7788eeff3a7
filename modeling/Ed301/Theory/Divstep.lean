import Mathlib.Algebra.Order.Group.Unbundled.Abs
import Mathlib.Algebra.Order.Ring.Abs
import Mathlib.Data.Int.GCD
import Mathlib.Data.Int.ModEq
import Mathlib.Tactic.LinearCombination
import Mathlib.Tactic.Ring

/-!
# Division Steps

The step behind inversion and greatest common divisors in constant time. A
state holds an odd `f`, a `g` and a counter. An even `g` is halved. An odd `g`
is made even by adding or subtracting `f` first, and if the counter is positive
the two trade places. The counter is an odd number that goes up by two, or is
reflected at one when they trade places.

A step needs the sign of the counter and the parity of `g` and nothing else.
So many steps can be taken on the low bits of `f` and `g` alone, as long as
what is done to the two is written down: a step is linear up to the halving,
and `Transition` collects what `k` steps do, times `2 ^ k`. This is what lets
long integers be touched once for many steps.

## Main definitions

* `State`: The counter and the two numbers.
* `step`: One division step.
* `Transition`: The matrix of several steps, times the power of two.
* `advance`: The matrix after one more step.
* `Carries`: What a matrix says about the numbers.
* `Agree`: States that agree on their low bits.

## Theorems

* `step_cases`: The three kinds of step.
* `gcd_step`: The common divisors are kept.
* `carries_run`: The matrix of a run maps the first state to the last one.
* `rows_run`: The rows of the matrix stay below the power of two.
* `agree_step`: A step taken on low bits loses one of them.
* `run_of_zero`: Nothing happens to `f` once `g` is zero.
-/

namespace Ed301

namespace Divstep

/-- The counter and the two numbers. -/
@[ext]
structure State where
  delta : ℤ
  f : ℤ
  g : ℤ

/-- One division step. -/
def step (s : State) : State :=
  if s.g % 2 = 1 then
    if 0 < s.delta then ⟨2 - s.delta, s.g, (s.g - s.f) / 2⟩
    else ⟨2 + s.delta, s.f, (s.g + s.f) / 2⟩
  else ⟨2 + s.delta, s.f, s.g / 2⟩

/-- The matrix of several steps, times the power of two. -/
@[ext]
structure Transition where
  u : ℤ
  v : ℤ
  q : ℤ
  r : ℤ

/-- The matrix of no steps. -/
def Transition.identity : Transition := ⟨1, 0, 0, 1⟩

/-- The matrix after one more step, which is taken from `s`. -/
def advance (s : State) (t : Transition) : Transition :=
  if s.g % 2 = 1 then
    if 0 < s.delta then ⟨2 * t.q, 2 * t.r, t.q - t.u, t.r - t.v⟩
    else ⟨2 * t.u, 2 * t.v, t.q + t.u, t.r + t.v⟩
  else ⟨2 * t.u, 2 * t.v, t.q, t.r⟩

/-- A step together with what it does to the matrix. -/
def jumpStep (p : State × Transition) : State × Transition := (step p.1, advance p.1 p.2)

/-- What a step does, of the three things it can do. -/
theorem step_cases (s : State) (t : Transition) (hf : s.f % 2 = 1) :
    (s.g % 2 = 0 ∧ (step s).delta = 2 + s.delta ∧ (step s).f = s.f ∧ 2 * (step s).g = s.g ∧
      advance s t = ⟨2 * t.u, 2 * t.v, t.q, t.r⟩) ∨
    (s.g % 2 = 1 ∧ 0 < s.delta ∧ (step s).delta = 2 - s.delta ∧ (step s).f = s.g ∧
      2 * (step s).g = s.g - s.f ∧ advance s t = ⟨2 * t.q, 2 * t.r, t.q - t.u, t.r - t.v⟩) ∨
    (s.g % 2 = 1 ∧ s.delta ≤ 0 ∧ (step s).delta = 2 + s.delta ∧ (step s).f = s.f ∧
      2 * (step s).g = s.g + s.f ∧ advance s t = ⟨2 * t.u, 2 * t.v, t.q + t.u, t.r + t.v⟩) := by
  unfold step advance
  by_cases hg : s.g % 2 = 1
  · rw [if_pos hg, if_pos hg]
    by_cases hdelta : 0 < s.delta
    · rw [if_pos hdelta, if_pos hdelta]
      refine Or.inr (Or.inl ⟨hg, hdelta, rfl, rfl, ?_, rfl⟩)
      dsimp only
      omega
    · rw [if_neg hdelta, if_neg hdelta]
      refine Or.inr (Or.inr ⟨hg, by omega, rfl, rfl, ?_, rfl⟩)
      dsimp only
      omega
  · rw [if_neg hg, if_neg hg]
    refine Or.inl ⟨by omega, rfl, rfl, ?_, rfl⟩
    dsimp only
    omega

theorem step_f_odd (s : State) (hf : s.f % 2 = 1) : (step s).f % 2 = 1 := by
  rcases step_cases s .identity hf with ⟨_, _, h, _⟩ | ⟨hg, _, _, h, _⟩ | ⟨_, _, _, h, _⟩
  · rw [h, hf]
  · rw [h, hg]
  · rw [h, hf]

theorem run_f_odd (s : State) (hf : s.f % 2 = 1) (n : ℕ) : (step^[n] s).f % 2 = 1 := by
  induction n with
  | zero => exact hf
  | succ n ih =>
      rw [Function.iterate_succ_apply']
      exact step_f_odd _ ih

/-- The counter moves by one step of two at most, away from one. -/
theorem abs_delta_step (s : State) : |(step s).delta| ≤ |s.delta| + 2 := by
  unfold step
  split
  · split
    · exact (abs_sub _ _).trans_eq (by rw [abs_two, add_comm])
    · exact (abs_add_le _ _).trans_eq (by rw [abs_two, add_comm])
  · exact (abs_add_le _ _).trans_eq (by rw [abs_two, add_comm])

theorem abs_delta_run (s : State) (n : ℕ) : |(step^[n] s).delta| ≤ |s.delta| + 2 * n := by
  induction n with
  | zero => simp
  | succ n ih =>
      have hstep := abs_delta_step (step^[n] s)
      rw [Function.iterate_succ_apply']
      push_cast
      omega

/-- The counter stays odd. -/
theorem delta_odd_step (s : State) (h : s.delta % 2 = 1) : (step s).delta % 2 = 1 := by
  unfold step
  split
  · split
    · dsimp only
      omega
    · dsimp only
      omega
  · dsimp only
    omega

/-- The numbers do not grow beyond a common bound. -/
theorem step_le (s : State) (hf : s.f % 2 = 1) (B : ℤ) (hfB : |s.f| ≤ B) (hgB : |s.g| ≤ B) :
    |(step s).f| ≤ B ∧ |(step s).g| ≤ B := by
  rw [abs_le] at hfB hgB ⊢
  rw [abs_le]
  rcases step_cases s .identity hf with ⟨_, _, h, h2, _⟩ | ⟨_, _, _, h, h2, _⟩ | ⟨_, _, _, h, h2, _⟩
  · rw [h]
    omega
  · rw [h]
    omega
  · rw [h]
    omega

theorem run_le (s : State) (hf : s.f % 2 = 1) (B : ℤ) (hfB : |s.f| ≤ B) (hgB : |s.g| ≤ B) (n : ℕ) :
    |(step^[n] s).f| ≤ B ∧ |(step^[n] s).g| ≤ B := by
  induction n with
  | zero => exact ⟨hfB, hgB⟩
  | succ n ih =>
      rw [Function.iterate_succ_apply']
      exact step_le _ (run_f_odd s hf n) B ih.1 ih.2

/-- A factor of two does not matter beside an odd number. -/
theorem gcd_two_mul (f g : ℤ) (hf : f % 2 = 1) : Int.gcd f (2 * g) = Int.gcd f g := by
  have hcoprime : Int.gcd f 2 = 1 := by
    rw [← Int.gcd_emod, hf]
    rfl
  exact Int.gcd_mul_right_right_of_gcd_eq_one hcoprime

/-- The common divisors are kept. -/
theorem gcd_step (s : State) (hf : s.f % 2 = 1) :
    Int.gcd (step s).f (step s).g = Int.gcd s.f s.g := by
  have hodd := step_f_odd s hf
  -- Twice the new number is an old one, a sum or a difference.
  rw [← gcd_two_mul _ _ hodd]
  rcases step_cases s .identity hf with ⟨_, _, h, h2, _⟩ | ⟨_, _, _, h, h2, _⟩ | ⟨_, _, _, h, h2, _⟩
  · rw [h, h2]
  · rw [h, h2, Int.gcd_self_sub_right, Int.gcd_comm]
  · rw [h, h2, Int.gcd_add_self_right]

theorem gcd_run (s : State) (hf : s.f % 2 = 1) (n : ℕ) :
    Int.gcd (step^[n] s).f (step^[n] s).g = Int.gcd s.f s.g := by
  induction n with
  | zero => rfl
  | succ n ih => rw [Function.iterate_succ_apply', gcd_step _ (run_f_odd s hf n), ih]

theorem step_of_zero (s : State) (hg : s.g = 0) : step s = ⟨2 + s.delta, s.f, 0⟩ := by
  unfold step
  rw [hg]
  rfl

/-- Nothing happens to `f` once `g` is zero. -/
theorem run_of_zero (s : State) (hg : s.g = 0) (n : ℕ) :
    (step^[n] s).f = s.f ∧ (step^[n] s).g = 0 := by
  induction n with
  | zero => exact ⟨rfl, hg⟩
  | succ n ih =>
      rw [Function.iterate_succ_apply', step_of_zero _ ih.2]
      exact ⟨ih.1, rfl⟩

/-- A run that stops at zero ends with the same odd number. -/
theorem run_f_of_stop (s : State) (j total : ℕ) (hj : j ≤ total)
    (h : j = total ∨ (step^[j] s).g = 0) : (step^[j] s).f = (step^[total] s).f := by
  rcases h with h | h
  · rw [h]
  · rcases Nat.exists_eq_add_of_le' hj with ⟨rest, hrest⟩
    -- The steps after the stop only count.
    rw [hrest, Function.iterate_add_apply]
    exact (run_of_zero _ h rest).1.symm

/-- A matrix of `k` steps maps the numbers before the steps to those after
    them, times `2 ^ k`. -/
structure Carries (k : ℕ) (before : State) (after : State) (t : Transition) : Prop where
  f : 2 ^ k * after.f = t.u * before.f + t.v * before.g
  g : 2 ^ k * after.g = t.q * before.f + t.r * before.g

theorem carries_step {k : ℕ} {before s : State} {t : Transition} (hf : s.f % 2 = 1)
    (h : Carries k before s t) : Carries (k + 1) before (step s) (advance s t) := by
  have h1 := h.f
  have h2 := h.g
  rcases step_cases s t hf with ⟨_, _, e1, e2, e3⟩ | ⟨_, _, _, e1, e2, e3⟩ | ⟨_, _, _, e1, e2, e3⟩
  · constructor
    · rw [e1, e3]
      linear_combination 2 * h1
    · rw [e3]
      linear_combination 2 ^ k * e2 + h2
  · constructor
    · rw [e1, e3]
      linear_combination 2 * h2
    · rw [e3]
      linear_combination 2 ^ k * e2 + h2 - h1
  · constructor
    · rw [e1, e3]
      linear_combination 2 * h1
    · rw [e3]
      linear_combination 2 ^ k * e2 + h2 + h1

theorem jumpStep_run_fst (s : State) (t : Transition) (n : ℕ) :
    (jumpStep^[n] (s, t)).1 = step^[n] s := by
  induction n with
  | zero => rfl
  | succ n ih =>
      rw [Function.iterate_succ_apply', Function.iterate_succ_apply', ← ih]
      rfl

/-- The matrix of a run maps the first state to the last one. -/
theorem carries_run (s : State) (hf : s.f % 2 = 1) (n : ℕ) :
    Carries n s (step^[n] s) (jumpStep^[n] (s, .identity)).2 := by
  induction n with
  | zero =>
      constructor
      · simp [Transition.identity]
      · simp [Transition.identity]
  | succ n ih =>
      -- The matrix is advanced from the state the run has reached.
      have hnext := carries_step (run_f_odd s hf n) ih
      rw [← jumpStep_run_fst s .identity n] at hnext
      rw [Function.iterate_succ_apply', Function.iterate_succ_apply',
        ← jumpStep_run_fst s .identity n]
      exact hnext

/-- The rows of a matrix of `k` steps. -/
structure Rows (k : ℕ) (t : Transition) : Prop where
  top : |t.u| + |t.v| ≤ 2 ^ k
  bottom : |t.q| + |t.r| ≤ 2 ^ k

theorem rows_advance {k : ℕ} {s : State} {t : Transition} (h : Rows k t) :
    Rows (k + 1) (advance s t) := by
  have h1 := h.top
  have h2 := h.bottom
  have habs : ∀ x : ℤ, |2 * x| = 2 * |x| := fun x => by rw [abs_mul, abs_two]
  unfold advance
  split
  · split
    · refine ⟨?_, ?_⟩
      · rw [habs, habs, pow_succ]
        omega
      · have e1 := abs_sub t.q t.u
        have e2 := abs_sub t.r t.v
        rw [pow_succ]
        dsimp only
        omega
    · refine ⟨?_, ?_⟩
      · rw [habs, habs, pow_succ]
        omega
      · have e1 := abs_add_le t.q t.u
        have e2 := abs_add_le t.r t.v
        rw [pow_succ]
        dsimp only
        omega
  · refine ⟨?_, ?_⟩
    · rw [habs, habs, pow_succ]
      omega
    · have hq := abs_nonneg t.q
      have hr := abs_nonneg t.r
      rw [pow_succ]
      dsimp only
      omega

/-- The rows of the matrix stay below the power of two. -/
theorem rows_run (s : State) (n : ℕ) : Rows n (jumpStep^[n] (s, .identity)).2 := by
  induction n with
  | zero =>
      constructor
      · simp [Transition.identity]
      · simp [Transition.identity]
  | succ n ih =>
      rw [Function.iterate_succ_apply']
      exact rows_advance ih

/-- States with one counter that agree on `k` bits. -/
structure Agree (k : ℕ) (s s' : State) : Prop where
  delta : s.delta = s'.delta
  f : s.f ≡ s'.f [ZMOD 2 ^ k]
  g : s.g ≡ s'.g [ZMOD 2 ^ k]

theorem Agree.trans {k : ℕ} {s s' s'' : State} (h : Agree k s s') (h' : Agree k s' s'') :
    Agree k s s'' :=
  ⟨h.delta.trans h'.delta, h.f.trans h'.f, h.g.trans h'.g⟩

theorem Agree.mono {j k : ℕ} {s s' : State} (h : Agree k s s') (hjk : j ≤ k) : Agree j s s' :=
  ⟨h.delta, h.f.of_dvd (pow_dvd_pow 2 hjk), h.g.of_dvd (pow_dvd_pow 2 hjk)⟩

/-- Numbers that agree on a bit have one parity. -/
theorem parity_of_modEq {k : ℕ} {a b : ℤ} (h : a ≡ b [ZMOD 2 ^ (k + 1)]) : a % 2 = b % 2 :=
  h.of_dvd (dvd_pow_self 2 (Nat.succ_ne_zero k))

theorem modEq_of_succ {k : ℕ} {a b : ℤ} (h : a ≡ b [ZMOD 2 ^ (k + 1)]) : a ≡ b [ZMOD 2 ^ k] :=
  h.of_dvd (pow_dvd_pow 2 (Nat.le_succ k))

/-- Halves of even numbers agree on one bit less. -/
theorem modEq_half {k : ℕ} {a b x y : ℤ} (h : a ≡ b [ZMOD 2 ^ (k + 1)]) (hx : 2 * x = a)
    (hy : 2 * y = b) : x ≡ y [ZMOD 2 ^ k] := by
  rw [← hx, ← hy, pow_succ'] at h
  exact Int.ModEq.mul_left_cancel' (by decide) h

/-- A step from states that agree does the same to the matrix, and leaves
    states that agree on one bit less. -/
theorem agree_step {k : ℕ} {s s' : State} (hf : s.f % 2 = 1) (h : Agree (k + 1) s s')
    (t : Transition) : Agree k (step s) (step s') ∧ advance s t = advance s' t := by
  -- Both states take the same branch: the branch depends on the lowest bit and on
  -- the counter.
  have hparity := parity_of_modEq h.g
  have hf' : s'.f % 2 = 1 := (parity_of_modEq h.f).symm.trans hf
  have hdelta := h.delta
  rcases step_cases s t hf with ⟨c, d1, f1, g1, t1⟩ | ⟨c, p, d1, f1, g1, t1⟩
    | ⟨c, p, d1, f1, g1, t1⟩
  · rcases step_cases s' t hf' with ⟨c', d2, f2, g2, t2⟩ | ⟨c', _⟩ | ⟨c', _⟩
    · refine ⟨⟨?_, ?_, ?_⟩, ?_⟩
      · rw [d1, d2, hdelta]
      · rw [f1, f2]
        exact modEq_of_succ h.f
      · exact modEq_half h.g g1 g2
      · rw [t1, t2]
    · omega
    · omega
  · rcases step_cases s' t hf' with ⟨c', _⟩ | ⟨c', p', d2, f2, g2, t2⟩ | ⟨c', p', _⟩
    · omega
    · refine ⟨⟨?_, ?_, ?_⟩, ?_⟩
      · rw [d1, d2, hdelta]
      · rw [f1, f2]
        exact modEq_of_succ h.g
      · exact modEq_half (h.g.sub h.f) g1 g2
      · rw [t1, t2]
    · omega
  · rcases step_cases s' t hf' with ⟨c', _⟩ | ⟨c', p', _⟩ | ⟨c', p', d2, f2, g2, t2⟩
    · omega
    · omega
    · refine ⟨⟨?_, ?_, ?_⟩, ?_⟩
      · rw [d1, d2, hdelta]
      · rw [f1, f2]
        exact modEq_of_succ h.f
      · exact modEq_half (h.g.add h.f) g1 g2
      · rw [t1, t2]

end Divstep

end Ed301
