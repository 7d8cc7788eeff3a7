import Ed301.Core.Keccak
import Ed301.Spec.Keccak
import Mathlib.Data.List.GetD
import Mathlib.Data.List.Nodup
import Mathlib.Tactic.FinCases

/-!
# The Permutation against the Standard

The loops of a round compute the step mappings of the standard.

A lane is read bit by bit, so that every step becomes a statement about one
output bit. Only the loop of rho and pi needs an argument: it runs around one
cycle of lanes in place, and `rhoPi_get` says where each lane ends up. The
tables enter through a comparison of each consecutive pair of the cycle with
the standard's coordinates, done once for all lane sizes.

## Main definitions

* `toArray`: The state array of a state.

## Theorems

* `toArray_theta`, `toArray_rhoPi`, `toArray_chi`, `toArray_iota`: The steps.
* `toArray_round`: A round.
* `toArray_keccakP`: The permutation, for every lane size and number of
  rounds.
* `toArray_f1600`: The permutation of the hash.
-/

namespace Ed301

namespace LaneSize

/-- The binary logarithm of the lane size. -/
def log : LaneSize → ℕ
  | .u8 => 3
  | .u16 => 4
  | .u32 => 5
  | .u64 => 6

theorem bits_eq (L : LaneSize) : L.bits = 2 ^ L.log := by
  cases L <;> rfl

theorem keccakFRoundCount_eq (L : LaneSize) : L.keccakFRoundCount = 12 + 2 * L.log := by
  cases L <;> rfl

theorem bits_dvd (L : LaneSize) : L.bits ∣ 64 := by
  cases L <;> decide

instance (L : LaneSize) : NeZero L.bits :=
  ⟨by cases L <;> decide⟩

end LaneSize

namespace Keccak

section Access

variable {w : ℕ}

theorem get_setLane (state : State w) (i j : Fin 25) (v : BitVec w) :
    (setLane state i v).get j = if i = j then v else state.get j := by
  change (state.set i.val v i.isLt)[j.val] = _
  rw [Vector.getElem_set]
  by_cases h : i = j
  · rw [if_pos h, if_pos (congrArg Fin.val h)]
  · rw [if_neg h, if_neg (fun hval => h (Fin.ext hval))]
    rfl

theorem get_ofFn {α : Type*} {n : ℕ} (f : Fin n → α) (i : Fin n) :
    (Vector.ofFn f).get i = f i := by
  change (Vector.ofFn f)[i.val] = _
  rw [Vector.getElem_ofFn]

/-- A state is determined by its lanes. -/
theorem state_ext (s t : State w) (h : ∀ i, s.get i = t.get i) : s = t := by
  refine Vector.ext (fun i hi => ?_)
  exact h ⟨i, hi⟩

@[simp] theorem column_lane (x y : Fin 5) : column (lane x y) = x := by
  refine Fin.ext ?_
  unfold column lane
  simp only
  omega

@[simp] theorem row_lane (x y : Fin 5) : row (lane x y) = y := by
  refine Fin.ext ?_
  unfold row lane
  simp only
  omega

@[simp] theorem lane_column_row (i : Fin 25) : lane (column i) (row i) = i := by
  refine Fin.ext ?_
  unfold column row lane
  simp only
  omega

end Access

section Steps

variable {w : ℕ} [NeZero w]

/-- The state array of a state: bit `z` of the lane at `x`, `y`. -/
def toArray (state : State w) : Fips202.StateArray w := fun x y z =>
  (state.get (lane x y)).getLsbD z.val

omit [NeZero w] in
/-- The array forgets nothing. -/
theorem toArray_injective (s t : State w) (h : toArray s = toArray t) : s = t := by
  refine state_ext s t (fun i => ?_)
  refine BitVec.eq_of_getLsbD_eq (fun z hz => ?_)
  have hbit := congrFun (congrFun (congrFun h (column i)) (row i)) ⟨z, hz⟩
  unfold toArray at hbit
  rwa [lane_column_row] at hbit

/-- A rotation reads the bit that many positions below, around the lane. -/
theorem getLsbD_rotateLeft (a : BitVec w) (r : ℕ) (z : Fin w) :
    (a.rotateLeft r).getLsbD z.val = a.getLsbD (z - Fin.ofNat w r).val := by
  have hr := Nat.mod_lt r (Nat.pos_of_neZero w)
  have hz := z.isLt
  rw [BitVec.getLsbD_rotateLeft, Fin.val_sub, Fin.val_ofNat]
  by_cases hlt : z.val < r % w
  · have hsmall : w - r % w + z.val < w := by omega
    rw [decide_eq_true hlt, cond_true, Nat.mod_eq_of_lt hsmall]
  · -- The difference wraps around in `Fin`, the position read does not.
    have hwrap : w - r % w + z.val = w + (z.val - r % w) := by omega
    have hsmall : z.val - r % w < w := by omega
    rw [decide_eq_false hlt, cond_false, decide_eq_true hz, Bool.true_and, hwrap,
      Nat.add_mod_left, Nat.mod_eq_of_lt hsmall]

omit [NeZero w] in
theorem getLsbD_parities (state : State w) (x : Fin 5) (z : Fin w) :
    ((parities state).get x).getLsbD z.val = Fips202.parity (toArray state) x z := by
  unfold parities
  rw [get_ofFn]
  have hrows : List.finRange 5 = [0, 1, 2, 3, 4] := by decide
  rw [hrows]
  simp only [List.foldl_cons, List.foldl_nil, BitVec.getLsbD_xor]
  rw [show (0 : BitVec w).getLsbD z.val = false from BitVec.getLsbD_zero, Bool.false_xor]
  rfl

theorem toArray_theta (state : State w) :
    toArray (theta state) = Fips202.theta (toArray state) := by
  funext x y z
  unfold toArray theta Fips202.theta
  -- The column four further on is the one before.
  have hprev : x + 4 = x - 1 := by revert x; decide
  have hone : (Fin.ofNat w 1) = (1 : Fin w) := rfl
  rw [get_ofFn, column_lane]
  simp only [BitVec.getLsbD_xor]
  rw [getLsbD_rotateLeft, getLsbD_parities, getLsbD_parities, hprev, hone]
  rfl

omit [NeZero w] in
theorem toArray_chi (state : State w) :
    toArray (chi state) = Fips202.chi (toArray state) := by
  funext x y z
  unfold toArray chi Fips202.chi
  rw [get_ofFn, column_lane, row_lane]
  simp only [BitVec.getLsbD_xor, BitVec.getLsbD_and, BitVec.getLsbD_not, z.isLt, decide_true,
    Bool.true_and]

omit [NeZero w] in
theorem rhoPiStep_get (q : State w × BitVec w) (step : Fin 25 × ℕ) (i : Fin 25) :
    (rhoPiStep q step).1.get i = if step.1 = i then q.2.rotateLeft step.2 else q.1.get i :=
  get_setLane _ _ _ _

omit [NeZero w] in
/-- The loop leaves alone what it does not visit. -/
theorem rhoPi_get_of_not_mem (steps : List (Fin 25 × ℕ)) (i : Fin 25) :
    ∀ q : State w × BitVec w, i ∉ steps.map Prod.fst →
      (steps.foldl rhoPiStep q).1.get i = q.1.get i := by
  induction steps with
  | nil =>
      intro q _
      rfl
  | cons step steps ih =>
      intro q h
      rw [List.map_cons, List.mem_cons, not_or] at h
      rw [List.foldl_cons, ih _ h.2, rhoPiStep_get, if_neg (fun heq => h.1 heq.symm)]

omit [NeZero w] in
/-- Each visited lane receives the old value of the lane visited before it. -/
theorem rhoPi_get_of_mem (steps : List (Fin 25 × ℕ)) :
    ∀ (start : Fin 25) (state : State w) (hand : BitVec w),
      (steps.map Prod.fst).Nodup → ∀ (old : State w), hand = old.get start →
        (∀ i ∈ steps.map Prod.fst, state.get i = old.get i) →
          ∀ (src i : Fin 25) (r : ℕ),
            (src, i, r) ∈ (start :: steps.map Prod.fst).zip steps →
              (steps.foldl rhoPiStep (state, hand)).1.get i = (old.get src).rotateLeft r := by
  induction steps with
  | nil =>
      intro start state hand _ old _ _ src i r hmem
      simp at hmem
  | cons step steps ih =>
      intro start state hand hnodup old hhand hold src i r hmem
      rw [List.map_cons, List.nodup_cons] at hnodup
      rw [List.map_cons, List.zip_cons_cons, List.mem_cons] at hmem
      rw [List.foldl_cons]
      rcases hmem with hfirst | hrest
      · -- The lane written now is not visited again.
        rw [Prod.mk.injEq] at hfirst
        rcases hfirst with ⟨hsrc, hstep⟩
        have hi : step.1 = i := by rw [← hstep]
        have hr : step.2 = r := by rw [← hstep]
        rw [rhoPi_get_of_not_mem steps i _ (hi ▸ hnodup.1), rhoPiStep_get, if_pos hi, hr, hsrc,
          hhand]
      · -- The others find the values they had.
        have hvisit : step.1 ∈ (step :: steps).map Prod.fst := by simp
        have hkept : ∀ j ∈ steps.map Prod.fst,
            (rhoPiStep (state, hand) step).1.get j = old.get j := by
          intro j hj
          rw [rhoPiStep_get, if_neg (fun heq : step.1 = j => hnodup.1 (heq ▸ hj))]
          exact hold j (by rw [List.map_cons]; exact List.mem_cons_of_mem _ hj)
        exact ih step.1 _ _ hnodup.2 old (hold _ hvisit) hkept src i r hrest

/-- The tables agree with the standard: each lane but the first is written
    once, from the lane the standard reads, with its offset modulo 64. -/
theorem rhoPi_table (x y : Fin 5) (h : ¬ (x = 0 ∧ y = 0)) :
    (lane (x + 3 * y) x, lane x y, Fips202.offset (x + 3 * y) x % 64)
      ∈ ((1 : Fin 25) :: pi).zip (pi.zip rho) := by
  revert x y
  decide +kernel

omit [NeZero w] in
/-- Where each lane ends up. -/
theorem rhoPi_get (state : State w) (x y : Fin 5) :
    (rhoPi state).get (lane x y)
      = (state.get (lane (x + 3 * y) x)).rotateLeft (Fips202.offset (x + 3 * y) x % 64) := by
  have hfst : (pi.zip rho).map Prod.fst = pi := by decide
  have hnodup : ((pi.zip rho).map Prod.fst).Nodup := by rw [hfst]; decide
  by_cases h : x = 0 ∧ y = 0
  · -- The first lane is not in the tables, and its offset is zero.
    rcases h with ⟨rfl, rfl⟩
    have hmiss : lane 0 0 ∉ (pi.zip rho).map Prod.fst := by rw [hfst]; decide
    have hoffset : Fips202.offset (0 + 3 * 0) 0 % 64 = 0 := by decide
    unfold rhoPi
    rw [rhoPi_get_of_not_mem _ _ _ hmiss, hoffset]
    refine BitVec.eq_of_getLsbD_eq (fun z hz => ?_)
    rw [BitVec.getLsbD_rotateLeft, Nat.zero_mod]
    simp [hz]
  · refine rhoPi_get_of_mem (pi.zip rho) 1 state (state.get 1) hnodup state rfl
      (fun _ _ => rfl) _ _ _ ?_
    rw [hfst]
    exact rhoPi_table x y h

theorem toArray_rhoPi (hw : w ∣ 64) (state : State w) :
    toArray (rhoPi state) = Fips202.pi (Fips202.rho (toArray state)) := by
  funext x y z
  unfold toArray Fips202.pi Fips202.rho
  -- An offset modulo 64 rotates a lane whose length divides 64 as the offset does.
  have hoffset : Fin.ofNat w (Fips202.offset (x + 3 * y) x % 64)
      = Fin.ofNat w (Fips202.offset (x + 3 * y) x) := by
    refine Fin.ext ?_
    rw [Fin.val_ofNat, Fin.val_ofNat, Nat.mod_mod_of_dvd _ hw]
  rw [rhoPi_get, getLsbD_rotateLeft, hoffset]

omit [NeZero w] in
theorem toArray_iota (l round : ℕ) (state : State w) (rc : BitVec w)
    (h : ∀ z : Fin w, rc.getLsbD z.val = Fips202.roundConstant l round z.val) :
    toArray (iota state rc) = Fips202.iota l (toArray state) round := by
  funext x y z
  have hfirst : ∀ x y, (0 = lane x y) ↔ (x = 0 ∧ y = 0) := by decide
  replace hfirst := hfirst x y
  unfold toArray iota Fips202.iota
  rw [get_setLane]
  by_cases h0 : x = 0 ∧ y = 0
  · rw [if_pos (hfirst.mpr h0), if_pos h0, BitVec.getLsbD_xor, h z, hfirst.mpr h0]
  · rw [if_neg (fun hh => h0 (hfirst.mp hh)), if_neg h0]

theorem toArray_round (hw : w ∣ 64) (l index : ℕ) (state : State w) (rc : BitVec w)
    (h : ∀ z : Fin w, rc.getLsbD z.val = Fips202.roundConstant l index z.val) :
    toArray (round state rc) = Fips202.rnd l (toArray state) index := by
  unfold round Fips202.rnd
  rw [toArray_iota l index _ rc h, toArray_chi, toArray_rhoPi hw, toArray_theta]

end Steps

/-- The table of the 64-bit lanes is the output of the feedback register. -/
theorem rc_table : ∀ index : Fin 24, ∀ z : Fin 64,
    (rc.getD index.val 0).getLsbD z.val = Fips202.roundConstant 6 index.val z.val := by
  decide +kernel

/-- Shorter lanes see the bits of the constant that fit. -/
theorem roundConstant_mono (l z index : ℕ) (hl : l ≤ 6) (hz : z < 2 ^ l) :
    Fips202.roundConstant l index z = Fips202.roundConstant 6 index z := by
  unfold Fips202.roundConstant
  rw [Bool.eq_iff_iff, List.any_eq_true, List.any_eq_true]
  constructor
  · intro h
    rcases h with ⟨j, hj, hbit⟩
    rw [List.mem_range] at hj
    exact ⟨j, List.mem_range.mpr (by omega), hbit⟩
  · intro h
    rcases h with ⟨j, _, hbit⟩
    refine ⟨j, List.mem_range.mpr ?_, hbit⟩
    rw [Bool.and_eq_true, decide_eq_true_eq] at hbit
    -- A set position below the lane size belongs to a small index.
    by_contra hlt
    have hpow : 2 ^ (l + 1) ≤ 2 ^ j := Nat.pow_le_pow_right (by omega) (by omega)
    have hpos : 0 < 2 ^ l := Nat.pow_pos (by omega)
    rw [pow_succ] at hpow
    omega

theorem truncateRc_bit (L : LaneSize) (index : ℕ) (hindex : index < 24) (z : Fin L.bits) :
    (L.truncateRc (rc.getD index 0)).getLsbD z.val
      = Fips202.roundConstant L.log index z.val := by
  have hz : z.val < 2 ^ L.log := Nat.lt_of_lt_of_eq z.isLt L.bits_eq
  have hlog : L.log ≤ 6 := by cases L <;> decide
  have hz64 : z.val < 64 := Nat.lt_of_lt_of_le hz (Nat.pow_le_pow_right (by omega) hlog)
  unfold LaneSize.truncateRc
  rw [BitVec.getLsbD_setWidth, decide_eq_true z.isLt, Bool.true_and,
    roundConstant_mono L.log z.val index hlog hz]
  exact rc_table ⟨index, hindex⟩ ⟨z.val, hz64⟩

/-- Rounds with the constants of consecutive indices. -/
theorem toArray_rounds (L : LaneSize) (first : ℕ) :
    ∀ (rounds : ℕ), first + rounds ≤ 24 → ∀ (state : State L.bits),
      toArray (((List.range rounds).map fun i =>
          L.truncateRc (rc.getD (first + i) 0)).foldl round state)
        = (List.range rounds).foldl (fun A i => Fips202.rnd L.log A (first + i))
            (toArray state) := by
  intro rounds
  -- The last round is split off, since the constants are numbered from the first.
  induction rounds with
  | zero =>
      intro _ state
      rfl
  | succ rounds ih =>
      intro h state
      rw [List.range_succ, List.map_append, List.foldl_append, List.foldl_append,
        List.map_singleton, List.foldl_cons, List.foldl_nil, List.foldl_cons, List.foldl_nil,
        ← ih (by omega)]
      exact toArray_round L.bits_dvd L.log (first + rounds) _ _
        (fun z => truncateRc_bit L (first + rounds) (by omega) z)

theorem keccakFRoundCount_le (L : LaneSize) : L.keccakFRoundCount ≤ 24 := by
  cases L <;> decide

theorem length_rc_take (L : LaneSize) : (rc.take L.keccakFRoundCount).length
    = L.keccakFRoundCount := by
  have hlen : rc.length = 24 := by decide
  rw [List.length_take, hlen]
  exact Nat.min_eq_left (keccakFRoundCount_le L)

/-- The constants used are the last ones of Keccak-f. -/
theorem roundConsts_eq (L : LaneSize) (rounds : ℕ) (h : rounds ≤ L.keccakFRoundCount) :
    roundConsts L rounds
      = some ((List.range rounds).map fun i =>
          L.truncateRc (rc.getD (L.keccakFRoundCount - rounds + i) 0)) := by
  have hlen : rc.length = 24 := by decide
  have hcount := keccakFRoundCount_le L
  unfold roundConsts
  simp only [length_rc_take]
  rw [if_pos h]
  refine congrArg some (List.ext_getElem ?_ (fun i h1 h2 => ?_))
  · rw [List.length_map, List.length_drop, length_rc_take, List.length_map, List.length_range]
    omega
  · rw [List.length_map, List.length_range] at h2
    rw [List.getElem_map, List.getElem_map, List.getElem_drop, List.getElem_take,
      List.getElem_range, List.getD_eq_getElem _ _ (by omega)]

theorem roundConsts_eq_none (L : LaneSize) (rounds : ℕ) (h : ¬ rounds ≤ L.keccakFRoundCount) :
    roundConsts L rounds = none := by
  unfold roundConsts
  simp only [length_rc_take]
  rw [if_neg h]

/-- With at most all rounds the permutation is the standard's. -/
theorem toArray_keccakP (L : LaneSize) (rounds : ℕ) (state : State L.bits)
    (h : rounds ≤ L.keccakFRoundCount) :
    ∃ out, keccakP L rounds state = some out ∧
      toArray out = Fips202.keccakP L.log rounds (toArray state) := by
  have hcount := keccakFRoundCount_le L
  have hrounds := toArray_rounds L (L.keccakFRoundCount - rounds) rounds (by omega) state
  refine ⟨_, ?_, hrounds.trans ?_⟩
  · unfold keccakP
    rw [roundConsts_eq L rounds h, Option.map_some]
  · unfold Fips202.keccakP
    rw [L.keccakFRoundCount_eq]

/-- With more rounds than there are constants there is no result. -/
theorem keccakP_eq_none (L : LaneSize) (rounds : ℕ) (state : State L.bits)
    (h : ¬ rounds ≤ L.keccakFRoundCount) : keccakP L rounds state = none := by
  unfold keccakP
  rw [roundConsts_eq_none L rounds h, Option.map_none]

/-- The hash permutes with all rounds. -/
theorem keccakP_f1600 (state : State 64) :
    keccakP .u64 LaneSize.u64.keccakFRoundCount state = some (f1600 state) := by
  have hconsts := roundConsts_eq .u64 LaneSize.u64.keccakFRoundCount (Nat.le_refl _)
  generalize (List.range _).map _ = consts at hconsts
  unfold f1600 keccakP
  rw [hconsts, Option.map_some, Option.getD_some]

/-- The permutation of the hash is the standard's. -/
theorem toArray_f1600 (state : State 64) :
    toArray (f1600 state) = Fips202.keccakP 6 24 (toArray state) := by
  rcases toArray_keccakP .u64 _ state (Nat.le_refl _) with ⟨out, hout, harray⟩
  rw [keccakP_f1600, Option.some.injEq] at hout
  rw [hout]
  exact harray

end Keccak

end Ed301
