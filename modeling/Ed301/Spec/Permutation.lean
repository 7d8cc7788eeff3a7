import Ed301.Spec.Keccak
import Mathlib.Algebra.Group.Fin.Basic
import Mathlib.Data.Fintype.Pi
import Mathlib.Tactic.FinCases
import Mathlib.Tactic.Abel

/-!
# The Step Mappings are Invertible

A sponge is only as good as its permutation is one. Four of the five step
mappings are invertible for reasons one sees: rotations and transpositions of
positions, an addition of a constant, and a map on rows of five bits that can
be checked on all of them.

Theta is the exception. It adds to each bit the parities of two columns, and
it can be undone once the parities before it are known from those after it.
They are: on column parities theta is a map `mixColumns a b` with offsets
`a` and `b`, whose square is the same map with doubled offsets. After six
squarings the offset along the lane has run once around every lane length
that divides 64, and what remains acts on five bits and has order three.

## Main definitions

* `mixColumns`: The action of theta on column parities.

## Theorems

* `mixColumns_mixColumns`: Squaring doubles the offsets.
* `theta_injective`, `rho_injective`, `pi_injective`, `chi_injective`,
  `iota_injective`: The step mappings.
* `rnd_injective`: A round.
-/

namespace Ed301

namespace Fips202

variable {w : ℕ} [NeZero w]

/-- Add to each parity those of two columns, one of them shifted along the
    lane. -/
def mixColumns (a : Fin 5) (b : Fin w) (P : Fin 5 → Fin w → Bool) : Fin 5 → Fin w → Bool :=
  fun x z => P x z ^^ (P (x - a) z ^^ P (x + a) (z - b))

/-- In the square all mixed terms cancel. -/
theorem mixColumns_mixColumns (a : Fin 5) (b : Fin w) (P : Fin 5 → Fin w → Bool) :
    mixColumns a b (mixColumns a b P) = mixColumns (a + a) (b + b) P := by
  funext x z
  unfold mixColumns
  have hback : x - a + a = x := sub_add_cancel x a
  have hforth : x + a - a = x := add_sub_cancel_right x a
  have hleft : x - a - a = x - (a + a) := sub_sub x a a
  have hright : x + a + a = x + (a + a) := add_assoc x a a
  have hdown : z - b - b = z - (b + b) := sub_sub z b b
  rw [hback, hforth, hleft, hright, hdown]
  generalize P x z = p, P (x - a) z = q, P (x + a) (z - b) = r, P x (z - b) = s,
    P (x - (a + a)) z = t, P (x + (a + a)) (z - (b + b)) = u
  revert p q r s t u
  decide

theorem mixColumns_injective_of_double (a : Fin 5) (n : ℕ)
    (h : Function.Injective (mixColumns (a + a) (Fin.ofNat w (n + n)))) :
    Function.Injective (mixColumns a (Fin.ofNat w n)) := by
  intro P Q hPQ
  refine h ?_
  have hsum : Fin.ofNat w (n + n) = Fin.ofNat w n + Fin.ofNat w n := by
    refine Fin.ext ?_
    rw [Fin.val_add, Fin.val_ofNat, Fin.val_ofNat, ← Nat.add_mod]
  rw [hsum, ← mixColumns_mixColumns, ← mixColumns_mixColumns, hPQ]

/-- Without an offset along the lane the map acts on five bits. -/
theorem mixColumns_four_injective :
    Function.Injective (mixColumns (4 : Fin 5) (0 : Fin w)) := by
  -- Its cube is the identity.
  have hcube : ∀ p : Fin 5 → Bool, ∀ x : Fin 5,
      let q := fun x => p x ^^ (p (x - 4) ^^ p (x + 4))
      let r := fun x => q x ^^ (q (x - 4) ^^ q (x + 4))
      (r x ^^ (r (x - 4) ^^ r (x + 4))) = p x := by decide
  have hinv : ∀ P : Fin 5 → Fin w → Bool,
      mixColumns 4 0 (mixColumns 4 0 (mixColumns 4 0 P)) = P := by
    intro P
    funext x z
    have h := hcube (fun x => P x z) x
    unfold mixColumns
    simp only [sub_zero]
    exact h
  intro P Q hPQ
  rw [← hinv P, ← hinv Q, hPQ]

theorem mixColumns_injective (hw : w ∣ 64) :
    Function.Injective (mixColumns (1 : Fin 5) (1 : Fin w)) := by
  have hround : Fin.ofNat w 64 = 0 := by
    refine Fin.ext ?_
    rw [Fin.val_ofNat, Fin.val_zero]
    exact Nat.mod_eq_zero_of_dvd hw
  have h64 : Function.Injective (mixColumns (4 : Fin 5) (Fin.ofNat w 64)) := by
    rw [hround]
    exact mixColumns_four_injective
  -- Six doublings lead from one to 64, and from one to four modulo five.
  have h32 := mixColumns_injective_of_double (w := w) (2 : Fin 5) 32 h64
  have h16 := mixColumns_injective_of_double (w := w) (1 : Fin 5) 16 h32
  have h8 := mixColumns_injective_of_double (w := w) (3 : Fin 5) 8 h16
  have h4 := mixColumns_injective_of_double (w := w) (4 : Fin 5) 4 h8
  have h2 := mixColumns_injective_of_double (w := w) (2 : Fin 5) 2 h4
  exact mixColumns_injective_of_double (w := w) (1 : Fin 5) 1 h2

/-- A column has odd length, so theta adds its effect to the parity once. -/
theorem parity_theta (A : StateArray w) :
    parity (theta A) = mixColumns 1 1 (parity A) := by
  funext x z
  unfold mixColumns
  rw [parity]
  unfold theta
  generalize (parity A (x - 1) z ^^ parity A (x + 1) (z - 1)) = effect
  unfold parity
  generalize A x 0 z = a, A x 1 z = b, A x 2 z = c, A x 3 z = d, A x 4 z = e
  revert a b c d e effect
  decide

theorem theta_injective (hw : w ∣ 64) : Function.Injective (theta (w := w)) := by
  intro A B h
  have hparity : parity A = parity B := by
    refine mixColumns_injective hw ?_
    rw [← parity_theta, ← parity_theta, h]
  funext x y z
  have hbit := congrFun (congrFun (congrFun h x) y) z
  unfold theta at hbit
  rwa [hparity, Bool.xor_left_inj] at hbit

theorem rho_injective : Function.Injective (rho (w := w)) := by
  intro A B h
  funext x y z
  have hbit := congrFun (congrFun (congrFun h x) y) (z + Fin.ofNat w (offset x y))
  unfold rho at hbit
  rwa [add_sub_cancel_right] at hbit

omit [NeZero w] in
theorem pi_injective : Function.Injective (pi (w := w)) := by
  intro A B h
  -- The coordinates that read a given position.
  have hread : ∀ u v : Fin 5, v + 3 * (2 * u + 3 * v) = u := by decide
  funext u v z
  have hbit := congrFun (congrFun (congrFun h v) (2 * u + 3 * v)) z
  unfold pi at hbit
  rwa [hread] at hbit

/-- The map of chi on one row. -/
def chiRow (a : Fin 5 → Bool) : Fin 5 → Bool := fun x =>
  a x ^^ (!(a (x + 1)) && a (x + 2))

theorem chiRow_injective : Function.Injective chiRow := by
  -- No two of the 32 rows have the same image.
  have hall : ∀ a b : Fin 5 → Bool, chiRow a = chiRow b → a = b := by decide +kernel
  intro a b h
  exact hall a b h

omit [NeZero w] in
theorem chi_injective : Function.Injective (chi (w := w)) := by
  intro A B h
  funext x y z
  have hrow : chiRow (fun x => A x y z) = chiRow (fun x => B x y z) := by
    funext u
    exact congrFun (congrFun (congrFun h u) y) z
  exact congrFun (chiRow_injective hrow) x

omit [NeZero w] in
theorem iota_injective (l round : ℕ) :
    Function.Injective fun A : StateArray w => iota l A round := by
  intro A B h
  funext x y z
  have hbit := congrFun (congrFun (congrFun h x) y) z
  simp only [iota] at hbit
  by_cases h0 : x = 0 ∧ y = 0
  · rwa [if_pos h0, if_pos h0, Bool.xor_left_inj] at hbit
  · rwa [if_neg h0, if_neg h0] at hbit

theorem rnd_injective (hw : w ∣ 64) (l round : ℕ) :
    Function.Injective fun A : StateArray w => rnd l A round := by
  intro A B h
  exact theta_injective hw (rho_injective (pi_injective (chi_injective
    (iota_injective l round h))))

theorem keccakP_injective (hw : w ∣ 64) (l rounds : ℕ) :
    Function.Injective (keccakP (w := w) l rounds) := by
  unfold keccakP
  generalize 12 + 2 * l - rounds = first
  induction rounds with
  | zero =>
      intro A B h
      exact h
  | succ rounds ih =>
      intro A B h
      simp only [List.range_succ, List.foldl_append, List.foldl_cons, List.foldl_nil] at h
      exact ih (rnd_injective hw l _ h)

end Fips202

end Ed301
