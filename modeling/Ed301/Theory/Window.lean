import Mathlib.Algebra.BigOperators.Group.List.Basic
import Mathlib.Tactic.Ring

/-!
# Windows of an Exponent

The loop behind a windowed power: walk the words of an exponent from the top
down, and the windows of each word from the top down, and let each window
update an accumulator. The top word may have fewer windows than the others,
and the top window fewer bits.

`scan_inv` numbers the windows of the whole exponent. An invariant that goes
down by one window at each update holds at the end for no windows left, and
nothing that uses it sees the words any more.

The invariant of a power is that the accumulator is the power by the windows
read so far, and `prod_window` is the step: raise to the size of a window, and
multiply by the power by the window. It is stated for a product of powers, so
that several bases may share one loop.

## Main definitions

* `countDown`: A loop that counts down.
* `scan`: The windows of the words.

## Theorems

* `countDown_inv`, `scan_inv`: An invariant that goes down with the loop.
* `window_of_mod`, `top_of_mod`: The windows of the low bits of a number.
* `prod_window`: One window of a product of powers.
-/

namespace Ed301

namespace Window

section Loop

variable {α : Type*}

/-- Update with the positions below `n`, the highest first. -/
def countDown (step : ℕ → α → α) : ℕ → α → α
  | 0, acc => acc
  | i + 1, acc => countDown step i (step i acc)

theorem countDown_inv (P : ℕ → α → Prop) (step : ℕ → α → α) :
    ∀ (n : ℕ), (∀ i acc, i < n → P (i + 1) acc → P i (step i acc)) →
      ∀ acc, P n acc → P 0 (countDown step n acc) := by
  intro n
  induction n with
  | zero => intro _ acc h; exact h
  | succ n ih =>
      intro hstep acc h
      exact ih (fun i acc hi => hstep i acc (Nat.lt_succ_of_lt hi)) _
        (hstep n acc (Nat.lt_succ_self n) h)

/-- Update with the windows of the words up to `top`, of which the top one has
    windows up to `topWindow`. -/
def scan (body : ℕ → ℕ → α → α) (perWord top topWindow : ℕ) : α → α :=
  countDown (fun word => countDown (body word) (if word = top then topWindow + 1 else perWord))
    (top + 1)

theorem scan_inv (P : ℕ → α → Prop) (body : ℕ → ℕ → α → α) (perWord top topWindow : ℕ)
    (hstep : ∀ word window acc, word ≤ top →
      window < (if word = top then topWindow + 1 else perWord) →
      P (perWord * word + window + 1) acc → P (perWord * word + window) (body word window acc))
    (acc : α) (h : P (perWord * top + topWindow + 1) acc) :
    P 0 (scan body perWord top topWindow acc) := by
  have hword : ∀ word acc, word < top + 1 →
      P (if word + 1 = top + 1 then perWord * top + topWindow + 1 else perWord * (word + 1)) acc →
      P (if word = top + 1 then perWord * top + topWindow + 1 else perWord * word)
        (countDown (body word) (if word = top then topWindow + 1 else perWord) acc) := by
    intro word acc hle hacc
    -- The windows of one word take the invariant from above it to below it.
    have hwindow := countDown_inv (fun window acc => P (perWord * word + window) acc) (body word)
      (if word = top then topWindow + 1 else perWord)
      (fun window acc hlt => hstep word window acc (Nat.lt_succ_iff.mp hle) hlt)
    have hne : word ≠ top + 1 := by omega
    simp only [hne, if_false]
    refine hwindow acc ?_
    by_cases htop : word = top
    · subst htop
      simpa [Nat.add_assoc] using hacc
    · have hne' : word + 1 ≠ top + 1 := by omega
      simpa [htop, hne', Nat.mul_succ] using hacc
  have hall := countDown_inv
    (fun word acc =>
      P (if word = top + 1 then perWord * top + topWindow + 1 else perWord * word) acc)
    _ (top + 1) hword acc (by simpa using h)
  simpa [scan] using hall

end Loop

/-- A window within the low bits is a window of the number. -/
theorem window_of_mod (e bits p w : ℕ) (h : p + w ≤ bits) :
    e % 2 ^ bits / 2 ^ p % 2 ^ w = e / 2 ^ p % 2 ^ w := by
  rcases Nat.exists_eq_add_of_le h with ⟨rest, rfl⟩
  rw [Nat.add_assoc, pow_add, Nat.mod_mul_right_div_self]
  exact Nat.mod_mod_of_dvd _ (Nat.pow_dvd_pow 2 (Nat.le_add_right w rest))

/-- The top window has what is left of the low bits. -/
theorem top_of_mod (e bits p : ℕ) (h : p ≤ bits) :
    e % 2 ^ bits / 2 ^ p = e / 2 ^ p % 2 ^ (bits - p) := by
  rcases Nat.exists_eq_add_of_le h with ⟨rest, rfl⟩
  rw [pow_add, Nat.mod_mul_right_div_self, Nat.add_sub_cancel_left]

/-- One window of a product of powers. -/
theorem prod_window {M : Type*} [CommMonoid M] (l : List (M × ℕ)) (p w : ℕ) :
    (l.map fun q => q.1 ^ (q.2 / 2 ^ (p + w))).prod ^ 2 ^ w
        * (l.map fun q => q.1 ^ (q.2 / 2 ^ p % 2 ^ w)).prod
      = (l.map fun q => q.1 ^ (q.2 / 2 ^ p)).prod := by
  induction l with
  | nil => simp
  | cons q l ih =>
      have hsplit : q.2 / 2 ^ p = q.2 / 2 ^ (p + w) * 2 ^ w + q.2 / 2 ^ p % 2 ^ w := by
        rw [pow_add, ← Nat.div_div_eq_div_mul, Nat.div_add_mod']
      have hhead : (q.1 ^ (q.2 / 2 ^ (p + w))) ^ 2 ^ w * q.1 ^ (q.2 / 2 ^ p % 2 ^ w)
          = q.1 ^ (q.2 / 2 ^ p) := by
        rw [← pow_mul, ← pow_add, ← hsplit]
      simp only [List.map_cons, List.prod_cons]
      rw [← hhead, ← ih, mul_pow, mul_mul_mul_comm]

end Window

end Ed301
