import Ed301.Core.Montgomery
import Ed301.Refine.Limbs

/-!
# Schoolbook Squaring

The square of an integer takes half of the multiplication grid, doubles it and
adds the diagonal.

The rows below the diagonal are taken in order. After `k` of them the list of
results holds the grid of the lowest `k + 1` limbs in its first `2 k + 1`
limbs and zeros above, which is why the carry of a row can be written over the
limb above it, and why the highest limb is empty before the doubling. The
square of the lowest limbs is twice that grid and the diagonal, and no carry is
left at the end because a square fits twice the length.

## Main definitions

* `belowDiagonal`, `diagonal`: The two parts of a square.

## Theorems

* `value_squareWide`: The square is the square.
-/

namespace Ed301

open Limbs

/-- The grid below the diagonal, up to a row. -/
def belowDiagonal (limbs : List Limb) : ℕ → ℕ
  | 0 => 0
  | k + 1 => belowDiagonal limbs k
    + (2 ^ 64) ^ (k + 1) * ((limbs.getD (k + 1) 0).toNat * value (limbs.take (k + 1)))

/-- The squares of the limbs at their places. -/
def diagonal : List Limb → ℕ
  | [] => 0
  | x :: limbs => x.toNat * x.toNat + (2 ^ 64) ^ 2 * diagonal limbs

theorem diagonal_concat (limbs : List Limb) (x : Limb) :
    diagonal (limbs ++ [x])
      = diagonal limbs + ((2 ^ 64) ^ limbs.length) ^ 2 * (x.toNat * x.toNat) := by
  induction limbs with
  | nil => simp [diagonal]
  | cons a limbs ih =>
      simp only [List.cons_append, diagonal, ih, List.length_cons, pow_succ]
      ring

/-- The square of the lowest limbs by its two parts. -/
theorem value_take_sq (limbs : List Limb) (k : ℕ) (hk : k < limbs.length) :
    value (limbs.take (k + 1)) ^ 2
      = 2 * belowDiagonal limbs k + diagonal (limbs.take (k + 1)) := by
  induction k with
  | zero =>
      cases limbs with
      | nil => simp at hk
      | cons x limbs => simp [belowDiagonal, diagonal, sq]
  | succ k ih =>
      have hsq := ih (by omega)
      have htake : limbs.take (k + 2) = limbs.take (k + 1) ++ [limbs.getD (k + 1) 0] := by
        rw [List.getD_eq_getElem _ _ hk, List.take_append_getElem]
      have hlen : (limbs.take (k + 1)).length = k + 1 := by
        rw [List.length_take]
        omega
      rw [htake, value_append, diagonal_concat, hlen, belowDiagonal, value_cons, value_nil]
      linear_combination hsq

/-- One row: it adds its products to the grid, and takes two of the zeros above
    the grid into it. -/
theorem squareRow_spec (limbs grid : List Limb) (k c : ℕ) (hk : k < limbs.length)
    (hlen : grid.length = 2 * k + 1) :
    ∃ grid' : List Limb, grid'.length = 2 * (k + 1) + 1 ∧
      value grid' = value grid
        + (2 ^ 64) ^ (k + 1) * ((limbs.getD (k + 1) 0).toNat * value (limbs.take (k + 1))) ∧
      squareRow limbs (grid ++ List.replicate (c + 2) 0) (k + 1)
        = grid' ++ List.replicate c 0 := by
  have hxs : (limbs.take (k + 1)).length = k + 1 := by
    rw [List.length_take]
    omega
  have hdropped : (grid ++ List.replicate (c + 2) 0).drop (k + 1)
      = grid.drop (k + 1) ++ List.replicate (c + 2) 0 :=
    List.drop_append_of_le_length (by omega)
  have hupper : (grid.drop (k + 1)).length = k := by
    rw [List.length_drop]
    omega
  -- The row runs over the upper limbs of the grid and one limb that is still
  -- zero.
  have htaken : (grid.drop (k + 1) ++ List.replicate (c + 2) 0).take (k + 1)
      = grid.drop (k + 1) ++ List.replicate 1 0 := by
    rw [List.take_append, List.take_of_length_le (by omega), hupper, List.take_replicate]
    congr 2
    omega
  have hfits : (limbs.take (k + 1)).length
      ≤ (grid.drop (k + 1) ++ List.replicate (c + 2) (0 : Limb)).length := by
    rw [hxs, List.length_append, hupper, List.length_replicate]
    omega
  rcases Limb.sweep_carryingMulAdd (limbs.getD (k + 1) 0) 0 (limbs.take (k + 1))
    (grid.drop (k + 1) ++ List.replicate (c + 2) 0) hfits with ⟨hrowLen, hrow⟩
  rw [hxs, htaken, value_append_zeros] at hrow
  rw [hxs] at hrowLen
  unfold squareRow
  dsimp only
  rw [hdropped]
  generalize sweep (fun carry (p : Limb × Limb) =>
    Limb.carryingMulAdd (limbs.getD (k + 1) 0) p.1 p.2 carry) 0 ((limbs.take (k + 1)).zip
      (grid.drop (k + 1) ++ List.replicate (c + 2) 0)) = row at hrow hrowLen ⊢
  have hlow : (grid.take (k + 1)).length = k + 1 := by
    rw [List.length_take]
    omega
  refine ⟨grid.take (k + 1) ++ row.1 ++ [row.2], ?_, ?_, ?_⟩
  · rw [List.length_append, List.length_append, hlow, hrowLen, List.length_singleton]
    omega
  · have hsplit := value_append (grid.take (k + 1)) (grid.drop (k + 1))
    rw [List.take_append_drop, hlow] at hsplit
    rw [List.append_assoc, value_append, value_append, hlow, hrowLen, value_cons, value_nil,
      hsplit]
    have hzero : BitVec.toNat (0 : Limb) = 0 := rfl
    rw [hzero, Nat.add_zero] at hrow
    linear_combination (2 ^ 64) ^ (k + 1) * hrow
  · -- The carry is written over the second of the two zeros.
    have hdrop : (grid ++ List.replicate (c + 2) 0).drop (2 * (k + 1) + 1)
        = List.replicate c (0 : Limb) := by
      rw [List.drop_append, List.drop_of_length_le (by omega), hlen, List.nil_append,
        List.drop_replicate]
      congr 1
      omega
    rw [List.take_append_of_le_length (by omega), hdrop, List.append_assoc, List.append_assoc,
      List.append_assoc, List.singleton_append]

/-- The results after `k` rows: the grid so far, with zeros above it. -/
theorem squareRows_spec (limbs : List Limb) (k : ℕ) (hk : k < limbs.length) :
    ∃ grid : List Limb, grid.length = 2 * k + 1 ∧ value grid = belowDiagonal limbs k ∧
      (List.range k).foldl (fun acc i => squareRow limbs acc (i + 1))
          (List.replicate (2 * limbs.length) 0)
        = grid ++ List.replicate (2 * limbs.length - (2 * k + 1)) 0 := by
  induction k with
  | zero =>
      refine ⟨[0], rfl, rfl, ?_⟩
      have hlen : 2 * limbs.length = (2 * limbs.length - 1) + 1 := by omega
      rw [List.range_zero, List.foldl_nil, hlen, List.replicate_succ]
      rfl
  | succ k ih =>
      rcases ih (by omega) with ⟨grid, hlen, hvalue, hrows⟩
      have hzeros : 2 * limbs.length - (2 * k + 1)
          = (2 * limbs.length - (2 * (k + 1) + 1)) + 2 := by omega
      rw [List.range_succ, List.foldl_append, List.foldl_cons, List.foldl_nil, hrows, hzeros,
        belowDiagonal, ← hvalue]
      exact squareRow_spec limbs grid k _ (by omega) hlen

/-- The sum of two words, with the carry. -/
theorem toNat_overflowingAdd (lhs rhs : Limb) :
    (Limb.overflowingAdd lhs rhs).1.toNat + 2 ^ 64 * (Limb.overflowingAdd lhs rhs).2.toNat
      = lhs.toNat + rhs.toNat := by
  have hl := lhs.isLt
  have hr := rhs.isLt
  unfold Limb.overflowingAdd
  by_cases h : 2 ^ 64 ≤ lhs.toNat + rhs.toNat
  · have hc : BitVec.uaddOverflow lhs rhs = true := decide_eq_true h
    have hbit : ((BitVec.ofBool true).setWidth 64).toNat = 1 := by decide
    simp only [hc, hbit, BitVec.toNat_add]
    omega
  · have hc : BitVec.uaddOverflow lhs rhs = false := decide_eq_false h
    have hbit : ((BitVec.ofBool false).setWidth 64).toNat = 0 := by decide
    simp only [hc, hbit, BitVec.toNat_add]
    omega

/-- Adding the diagonal, with what is carried out of it. -/
theorem squareDiagonal_spec (limbs : List Limb) : ∀ (carry : Limb) (acc : List Limb),
    acc.length = 2 * limbs.length →
      ∃ out : ℕ, value (squareDiagonal carry limbs acc) + ((2 ^ 64) ^ limbs.length) ^ 2 * out
        = value acc + diagonal limbs + carry.toNat := by
  induction limbs with
  | nil =>
      intro carry acc h
      have hacc := List.length_eq_zero_iff.mp h
      subst hacc
      exact ⟨carry.toNat, by simp [squareDiagonal, diagonal]⟩
  | cons x limbs ih =>
      intro carry acc h
      simp only [List.length_cons] at h
      rcases acc with _ | ⟨acc0, _ | ⟨acc1, acc⟩⟩
      · simp only [List.length_nil] at h
        omega
      · simp only [List.length_cons, List.length_nil] at h
        omega
      · simp only [List.length_cons] at h
        have h0 := Limb.toNat_carryingMulAdd x x acc0 carry
        have h1 := toNat_overflowingAdd acc1 (Limb.carryingMulAdd x x acc0 carry).2
        rcases ih (Limb.overflowingAdd acc1
          (Limb.carryingMulAdd x x acc0 carry).2).2 acc (by omega) with ⟨out, hout⟩
        refine ⟨out, ?_⟩
        simp only [squareDiagonal, value_cons, diagonal, List.length_cons, pow_succ]
        simp only [pow_succ] at hout
        linear_combination h0 + 2 ^ 64 * h1 + 2 ^ 64 * 2 ^ 64 * hout

/-- The square of an integer, in twice its length. -/
theorem value_squareWide (limbs : List Limb) (h : 0 < limbs.length) :
    value (squareWide limbs) = value limbs ^ 2 := by
  rcases squareRows_spec limbs (limbs.length - 1) (by omega) with ⟨grid, hlen, hvalue, hrows⟩
  have hsq := value_take_sq limbs (limbs.length - 1) (by omega)
  rw [Nat.sub_add_cancel h, List.take_length] at hsq
  have htake : (grid ++ List.replicate (2 * limbs.length - (2 * (limbs.length - 1) + 1)) 0).take
      (2 * limbs.length - 1) = grid := by
    rw [List.take_append_of_le_length (by omega), List.take_of_length_le (by omega)]
  obtain ⟨hdouble, hdoubleLen⟩ : value (sweep (fun carry (limb : Limb) =>
        (limb <<< 1 ||| carry, limb >>> 63)) 0 grid).1
        + (2 ^ 64) ^ grid.length * (sweep (fun carry (limb : Limb) =>
          (limb <<< 1 ||| carry, limb >>> 63)) 0 grid).2.toNat = 2 * value grid ∧
      (sweep (fun carry (limb : Limb) => (limb <<< 1 ||| carry, limb >>> 63)) 0 grid).1.length
        = grid.length :=
    ⟨Uint.toNat_shl1WithCarry ⟨grid, rfl⟩ 0 (by decide), length_sweep _ _ _⟩
  have hwide := length_squareWide limbs h
  have hlt := value_lt (squareWide limbs)
  rw [hwide] at hlt
  unfold squareWide at hlt hwide ⊢
  simp only [hrows, htake] at hlt hwide ⊢
  generalize sweep (fun carry (limb : Limb) => (limb <<< 1 ||| carry, limb >>> 63)) 0 grid
    = doubled at hdouble hdoubleLen hlt hwide ⊢
  rcases squareDiagonal_spec limbs 0 (doubled.1 ++ [doubled.2]) (by
    rw [List.length_append, hdoubleLen, hlen, List.length_singleton]
    omega) with ⟨out, hout⟩
  have hsum : value (doubled.1 ++ [doubled.2]) = 2 * value grid := by
    rw [value_append, value_cons, value_nil, hdoubleLen]
    exact hdouble
  have hzero : BitVec.toNat (0 : Limb) = 0 := rfl
  rw [hsum, hvalue, hzero, Nat.add_zero, ← hsq] at hout
  -- Nothing is carried out, since the square fits.
  have hfits : value limbs ^ 2 < ((2 ^ 64) ^ limbs.length) ^ 2 :=
    Nat.pow_lt_pow_left (value_lt limbs) (by decide)
  have hnone : out = 0 := by
    by_contra hne
    have hle : ((2 ^ 64) ^ limbs.length) ^ 2 * 1 ≤ ((2 ^ 64) ^ limbs.length) ^ 2 * out :=
      Nat.mul_le_mul_left _ (Nat.pos_of_ne_zero hne)
    omega
  rw [hnone, Nat.mul_zero, Nat.add_zero] at hout
  exact hout

/-- The two halves of the square. -/
theorem toNat_wideningSquare {n : ℕ} (a : Uint (n + 1)) :
    (wideningSquare a).1.toNat + (2 ^ 64) ^ (n + 1) * (wideningSquare a).2.toNat
      = a.toNat ^ 2 := by
  have hpos : 0 < a.limbs.length := by
    rw [a.length_limbs]
    omega
  have hlen := length_squareWide a.limbs hpos
  rw [a.length_limbs] at hlen
  have happend := value_append ((squareWide a.limbs).take (n + 1))
    ((squareWide a.limbs).drop (n + 1))
  rw [List.take_append_drop, value_squareWide a.limbs hpos, List.length_take, hlen,
    Nat.min_eq_left (by omega)] at happend
  exact happend.symm

end Ed301
