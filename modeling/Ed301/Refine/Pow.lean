import Ed301.Core.Pow
import Ed301.Refine.MontyForm
import Mathlib.Data.List.Iterate
import Mathlib.Tactic.IntervalCases

/-!
# Powers

The windowed loops compute powers, and products of powers.

A bound on the bits that is too large reads all of the exponent, and one that
is too small reads its low bits. With `E` for the bits that are read, the
accumulator stands for the product of the powers by `E / 2^(4 p)`, where `p`
windows are left. No window is left in the end.

Whether the result is reduced depends on the variant. In constant time each
window ends with a product by an entry of the table, which is reduced, so the
product is. In variable time the last window may be zero, and then what is
returned comes out of repeated squaring, which reduces for some moduli only.
The third variant carries at most two moduli too much along, whatever the
modulus: an entry of its table is at most one modulus too large, so a product
with it is at most two too large.

## Main definitions

* `PowerTable`: A table of reduced powers.

## Theorems

* `toNat_windowIndex`: The windows of an exponent.
* `lookup_eq`: The pass over the table finds the entry.
* `multiExponentiateMontgomeryForm_spec`: The product of powers.
* `form_powMontgomeryFormAmm`: The power by almost reduced products.
* `Uint.lt_two_pow_bitsVartime`: The bits of an exponent cover it.
-/

namespace Ed301

open Limbs Montgomery Window

variable {n k : ℕ}

theorem Limb.choiceFromEq_iff (x y : Limb) : choiceFromEq x y = true ↔ x = y := by
  have hxor : x ^^^ y = 0 ↔ x = y := BitVec.xor_eq_zero_iff
  unfold choiceFromEq
  rw [Bool.not_eq_true', Bool.eq_false_iff, Ne, Limb.isNonzero_iff, not_not, hxor]

/-- A pass over a table whose entries are numbered from `start` on. -/
theorem lookup_foldl (idx : Limb) (l : List (Uint n)) :
    ∀ (start : ℕ) (acc : Uint n), start + l.length ≤ 2 ^ 64 →
      (l.zipIdx start).foldl
          (fun power q => Uint.select power q.1 (Limb.choiceFromEq (BitVec.ofNat 64 q.2) idx)) acc
        = if start ≤ idx.toNat ∧ idx.toNat < start + l.length
          then l.getD (idx.toNat - start) Uint.zero else acc := by
  induction l with
  | nil =>
      intro start acc _
      have hempty : ¬ (start ≤ idx.toNat ∧ idx.toNat < start + ([] : List (Uint n)).length) := by
        simp only [List.length_nil]
        omega
      rw [if_neg hempty]
      rfl
  | cons power l ih =>
      intro start acc hlen
      rw [List.length_cons] at hlen
      have hchoice : Limb.choiceFromEq (BitVec.ofNat 64 start) idx = true ↔ start = idx.toNat := by
        rw [Limb.choiceFromEq_iff, ← BitVec.toNat_inj, BitVec.toNat_ofNat,
          Nat.mod_eq_of_lt (by omega)]
      rw [List.zipIdx_cons, List.foldl_cons, ih (start + 1) _ (by omega), List.length_cons,
        Uint.select_eq]
      -- Later entries have other numbers, so a selected entry is kept.
      by_cases heq : start = idx.toNat
      · rw [if_pos (hchoice.mpr heq), if_neg (by omega), if_pos (by omega), heq, Nat.sub_self,
          List.getD_cons_zero]
      · have hne : ¬ Limb.choiceFromEq (BitVec.ofNat 64 start) idx = true := fun h =>
          heq (hchoice.mp h)
        rw [if_neg hne]
        by_cases hin : start + 1 ≤ idx.toNat ∧ idx.toNat < start + 1 + l.length
        · rcases Nat.exists_eq_add_of_le hin.1 with ⟨j, hj⟩
          rw [if_pos hin, if_pos (by omega), hj]
          have h1 : start + 1 + j - (start + 1) = j := by omega
          have h2 : start + 1 + j - start = j + 1 := by omega
          rw [h1, h2, List.getD_cons_succ]
        · rw [if_neg hin, if_neg (by omega)]

/-- The pass over the table finds the entry. -/
theorem lookup_eq (powers : List (Uint n)) (idx : Limb) (hlt : idx.toNat < powers.length)
    (hlen : powers.length ≤ 2 ^ 64) : lookup powers idx = powers.getD idx.toNat Uint.zero := by
  cases powers with
  | nil => simp at hlt
  | cons power powers =>
      rw [List.length_cons] at hlt hlen
      unfold lookup
      rw [List.tail_cons, List.headD_cons, lookup_foldl idx powers 1 power (by omega)]
      cases hidx : idx.toNat with
      | zero => simp
      | succ j => simp [show j < powers.length by omega, Nat.add_comm]

theorem toNat_startingWindowMask (c : ℕ) (h : c < 4) :
    BitVec.toNat ((1 : Limb) <<< (c + 1) - 1) = 2 ^ (c + 1) - 1 := by
  interval_cases c <;> rfl

/-- Four bits of a limb of an exponent. -/
theorem toNat_window (exponent : Uint k) (limbNum windowNum : ℕ) (h : windowNum < 16) :
    BitVec.toNat (exponent.limbs.getD limbNum 0 >>> (windowNum * 4) &&& 15)
      = exponent.toNat / 2 ^ (4 * (16 * limbNum + windowNum)) % 2 ^ 4 := by
  have hlimb := toNat_getD exponent.limbs limbNum
  have hmask : BitVec.toNat (15 : Limb) = 2 ^ 4 - 1 := rfl
  have hpos : 64 * limbNum + 4 * windowNum = 4 * (16 * limbNum + windowNum) := by ring
  rw [BitVec.toNat_and, hmask, Nat.and_two_pow_sub_one_eq_mod, BitVec.toNat_ushiftRight,
    Nat.shiftRight_eq_div_pow, hlimb, Nat.mul_comm windowNum 4,
    window_of_mod _ 64 (4 * windowNum) 4 (by omega), Nat.div_div_eq_div_mul, ← pow_mul,
    ← pow_add, hpos]
  rfl

/-- A window of the bits of the exponent that are read. -/
theorem toNat_windowIndex (exponent : Uint k) (exponentBits limbNum windowNum : ℕ)
    (hbits : 0 < exponentBits) (hlimb : limbNum ≤ (exponentBits - 1) / 64)
    (hwindow : windowNum < (if limbNum = (exponentBits - 1) / 64
      then (exponentBits - 1) % 64 / 4 + 1 else 16)) :
    (windowIndex exponent limbNum windowNum
        (limbNum == (exponentBits - 1) / 64 && windowNum == (exponentBits - 1) % 64 / 4)
        ((1 : Limb) <<< ((exponentBits - 1) % 64 % 4 + 1) - 1)).toNat
      = exponent.toNat % 2 ^ exponentBits / 2 ^ (4 * (16 * limbNum + windowNum)) % 2 ^ 4 := by
  have hlt : windowNum < 16 := by
    split at hwindow <;> omega
  have hw := toNat_window exponent limbNum windowNum hlt
  unfold windowIndex
  by_cases hfirst : limbNum = (exponentBits - 1) / 64 ∧ windowNum = (exponentBits - 1) % 64 / 4
  · -- The mask keeps what is left of the bits.
    have hleft : exponentBits - 4 * (16 * limbNum + windowNum)
        = (exponentBits - 1) % 64 % 4 + 1 := by omega
    have hr : (exponentBits - 1) % 64 % 4 < 4 := Nat.mod_lt _ (by omega)
    have hdvd : 2 ^ ((exponentBits - 1) % 64 % 4 + 1) ∣ 2 ^ 4 := Nat.pow_dvd_pow 2 (by omega)
    have hbool : (limbNum == (exponentBits - 1) / 64
        && windowNum == (exponentBits - 1) % 64 / 4) = true := by simp [hfirst]
    rw [hbool, if_pos rfl, BitVec.toNat_and, hw, toNat_startingWindowMask _ hr,
      Nat.and_two_pow_sub_one_eq_mod, Nat.mod_mod_of_dvd _ hdvd, top_of_mod _ _ _ (by omega), hleft]
    refine (Nat.mod_eq_of_lt ?_).symm
    exact Nat.lt_of_lt_of_le (Nat.mod_lt _ (Nat.two_pow_pos _)) (Nat.le_of_dvd (by decide) hdvd)
  · have hbool : (limbNum == (exponentBits - 1) / 64
        && windowNum == (exponentBits - 1) % 64 / 4) = false := by
      rw [Bool.eq_false_iff]
      simpa using hfirst
    -- Below the first window all four bits are among those that are read.
    have hle : 4 * (16 * limbNum + windowNum) + 4 ≤ exponentBits := by
      by_cases htop : limbNum = (exponentBits - 1) / 64
      · rw [if_pos htop] at hwindow
        have hne : windowNum ≠ (exponentBits - 1) % 64 / 4 := fun h => hfirst ⟨htop, h⟩
        omega
      · omega
    rw [hbool, if_neg (by simp), hw, window_of_mod _ _ _ _ hle]

/-- The powers of `x` below the sixteenth, reduced. -/
structure PowerTable (params : MontyParams n) (powers : List (Uint n))
    (x : ZMod params.modulus.toNat) : Prop where
  length : powers.length = 16
  entry : ∀ i, i < 16 →
    Form ((2 ^ 64) ^ n) params.modulus.toNat (powers.getD i Uint.zero).toNat (x ^ i)

section Powers

variable {params : MontyParams n}

theorem form_one (hparams : params.Valid params.modulus.toNat) :
    Form ((2 ^ 64) ^ n) params.modulus.toNat params.one.toNat 1 := by
  have hpos := hparams.odd
  rw [hparams.one]
  exact Form.one (by omega)

theorem powerTable_computePowers (hparams : params.Valid params.modulus.toNat) (a : Uint n)
    {x : ZMod params.modulus.toNat}
    (ha : Form ((2 ^ 64) ^ n) params.modulus.toNat a.toNat x) :
    PowerTable params (computePowers a params) x where
  length := by simp [computePowers]
  entry := by
    have hstep : ∀ i, Form ((2 ^ 64) ^ n) params.modulus.toNat
        ((fun power => mulMontgomeryForm power a params.modulus params.modNegInv)^[i] a).toNat
        (x ^ (i + 1)) := by
      intro i
      induction i with
      | zero => simpa using ha
      | succ i ih =>
          rw [Function.iterate_succ_apply', pow_succ x]
          exact form_mulMontgomeryForm _ _ hparams.negInv hparams.odd ih.cast ha
    intro i hi
    unfold computePowers
    cases i with
    | zero => simpa using form_one hparams
    | succ i =>
        rw [List.getD_cons_succ, List.getD_eq_getElem?_getD,
          List.getElem?_iterate _ _ 15 i (by omega)]
        exact hstep i

section Step

variable {powers : List (Uint n)} {x y : ZMod params.modulus.toNat}

/-- The product with one power. -/
theorem cast_multiplyWindow (vartime : Bool) (hparams : params.Valid params.modulus.toNat)
    (htable : PowerTable params powers x) (idx : Limb) (hidx : idx.toNat < 16) (z : Uint n)
    (hz : (z.toNat : ZMod params.modulus.toNat) = ((2 ^ 64) ^ n : ℕ) * y) :
    ((multiplyWindow vartime params idx powers z).toNat : ZMod params.modulus.toNat)
      = ((2 ^ 64) ^ n : ℕ) * (y * x ^ idx.toNat) := by
  have hmul := (form_mulMontgomeryForm z _ hparams.negInv hparams.odd hz
    (htable.entry idx.toNat hidx)).cast
  have hlen := htable.length
  unfold multiplyWindow
  cases vartime with
  | false =>
      rw [if_neg (by simp), lookup_eq _ _ (by omega) (by omega)]
      exact hmul
  | true =>
      rw [if_pos rfl]
      by_cases hpos : 0 < idx
      · rw [if_pos hpos]
        exact hmul
      · -- The product that is skipped is by the zeroth power.
        have hzero : idx.toNat = 0 := by
          rw [BitVec.lt_def] at hpos
          have h0 : BitVec.toNat (0 : Limb) = 0 := rfl
          omega
        rw [if_neg hpos, hzero, pow_zero, mul_one]
        exact hz

/-- In constant time the product is reduced, whatever the first factor. -/
theorem multiplyWindow_lt (vartime : Bool) (hparams : params.Valid params.modulus.toNat)
    (htable : PowerTable params powers x) (idx : Limb) (hidx : idx.toNat < 16) (z : Uint n)
    (h : z.toNat < params.modulus.toNat ∨ vartime = false) :
    (multiplyWindow vartime params idx powers z).toNat < params.modulus.toNat := by
  have hmul := mulMontgomeryForm_lt z _ hparams.negInv (htable.entry idx.toNat hidx).lt
  have hlen := htable.length
  unfold multiplyWindow
  cases vartime with
  | false =>
      rw [if_neg (by simp), lookup_eq _ _ (by omega) (by omega)]
      exact hmul
  | true =>
      rw [if_pos rfl]
      by_cases hpos : 0 < idx
      · rw [if_pos hpos]
        exact hmul
      · rw [if_neg hpos]
        simpa using h

end Step

/-- Tables and exponents, and the residues and the bits that are read. -/
abbrev Bases (params : MontyParams n) (exponentBits : ℕ)
    (l : List (List (Uint n) × Uint k)) (l' : List (ZMod params.modulus.toNat × ℕ)) : Prop :=
  List.Forall₂ (fun q r => PowerTable params q.1 r.1 ∧ q.2.toNat % 2 ^ exponentBits = r.2) l l'

section Window

variable {vartime : Bool} {exponentBits p : ℕ} {idx : Uint k → Limb}
  {l : List (List (Uint n) × Uint k)} {l' : List (ZMod params.modulus.toNat × ℕ)}

/-- One window of every base. -/
theorem cast_foldl_multiplyWindow (hparams : params.Valid params.modulus.toNat)
    (hidx : ∀ e : Uint k, (idx e).toNat = e.toNat % 2 ^ exponentBits / 2 ^ p % 2 ^ 4)
    (hbases : Bases params exponentBits l l') :
    ∀ (z : Uint n) (y : ZMod params.modulus.toNat),
      (z.toNat : ZMod params.modulus.toNat) = ((2 ^ 64) ^ n : ℕ) * y →
      ((l.foldl (fun z q => multiplyWindow vartime params (idx q.2) q.1 z) z).toNat
          : ZMod params.modulus.toNat)
        = ((2 ^ 64) ^ n : ℕ) * (y * (l'.map fun r => r.1 ^ (r.2 / 2 ^ p % 2 ^ 4)).prod) := by
  induction hbases with
  | nil => intro z y hz; simpa using hz
  | @cons q r l l' hq _ ih =>
      intro z y hz
      have hlt : (idx q.2).toNat < 16 := by
        rw [hidx]
        exact Nat.mod_lt _ (by decide)
      have hone := cast_multiplyWindow vartime hparams hq.1 _ hlt z hz
      have hrest := ih _ _ hone
      rw [hidx, hq.2] at hrest
      rw [List.foldl_cons, List.map_cons, List.prod_cons, ← mul_assoc y]
      exact hrest

theorem foldl_multiplyWindow_lt (hparams : params.Valid params.modulus.toNat)
    (hidx : ∀ e : Uint k, (idx e).toNat = e.toNat % 2 ^ exponentBits / 2 ^ p % 2 ^ 4)
    (hbases : Bases params exponentBits l l') :
    ∀ z : Uint n, z.toNat < params.modulus.toNat ∨ (vartime = false ∧ l ≠ []) →
      (l.foldl (fun z q => multiplyWindow vartime params (idx q.2) q.1 z) z).toNat
        < params.modulus.toNat := by
  induction hbases with
  | nil => intro z h; simpa using h
  | @cons q r l l' hq _ ih =>
      intro z h
      have hlt : (idx q.2).toNat < 16 := by
        rw [hidx]
        exact Nat.mod_lt _ (by decide)
      have hone := multiplyWindow_lt vartime hparams hq.1 _ hlt z
        (h.imp_right And.left)
      exact ih _ (Or.inl hone)

end Window

/-- Above the bits that are read the windows are empty. -/
theorem prod_above {M : Type*} [CommMonoid M] (l : List (M × ℕ)) (bits p : ℕ) (h : bits ≤ p)
    (hl : ∀ r ∈ l, r.2 < 2 ^ bits) : (l.map fun r => r.1 ^ (r.2 / 2 ^ p)).prod = 1 := by
  refine List.prod_eq_one fun x hx => ?_
  rcases List.mem_map.mp hx with ⟨r, hr, rfl⟩
  have hlt := Nat.lt_of_lt_of_le (hl r hr) (Nat.pow_le_pow_right (by decide) h)
  rw [Nat.div_eq_of_lt hlt, pow_zero]

theorem Bases.lt {exponentBits : ℕ} {l : List (List (Uint n) × Uint k)}
    {l' : List (ZMod params.modulus.toNat × ℕ)} (h : Bases params exponentBits l l') :
    ∀ r ∈ l', r.2 < 2 ^ exponentBits := by
  induction h with
  | nil => intro r hr; simp at hr
  | @cons q r l l' hq _ ih =>
      intro r' hr'
      rcases List.mem_cons.mp hr' with rfl | hmem
      · rw [← hq.2]
        exact Nat.mod_lt _ (Nat.two_pow_pos _)
      · exact ih r' hmem

/-- The loop over windows. The variant and the modulus decide whether the
    accumulator stays reduced. -/
theorem multiExponentiateInternal_spec (vartime : Bool)
    (hparams : params.Valid params.modulus.toNat) (l : List (List (Uint n) × Uint k))
    (l' : List (ZMod params.modulus.toNat × ℕ)) (exponentBits : ℕ) (hbits : 0 < exponentBits)
    (hbases : Bases params exponentBits l l') :
    ((multiExponentiateInternal vartime l exponentBits params).toNat : ZMod params.modulus.toNat)
        = ((2 ^ 64) ^ n : ℕ) * (l'.map fun r => r.1 ^ r.2).prod ∧
      ((vartime = false ∧ l ≠ []) ∨ 4 * params.modulus.toNat ≤ (2 ^ 64) ^ n ∨
          (2 ^ 64) ^ n ≤ 2 * params.modulus.toNat →
        (multiExponentiateInternal vartime l exponentBits params).toNat
          < params.modulus.toNat) := by
  have hone := form_one hparams
  -- With `p` windows left, the exponents have been read down to bit `4 p`.
  have hscan := scan_inv
    (fun p (z : Uint n) =>
      (z.toNat : ZMod params.modulus.toNat)
          = ((2 ^ 64) ^ n : ℕ) * (l'.map fun r => r.1 ^ (r.2 / 2 ^ (4 * p))).prod ∧
        ((vartime = false ∧ l ≠ []) ∨ 4 * params.modulus.toNat ≤ (2 ^ 64) ^ n ∨
            (2 ^ 64) ^ n ≤ 2 * params.modulus.toNat → z.toNat < params.modulus.toNat))
    (fun limbNum windowNum z =>
      l.foldl (fun z q => multiplyWindow vartime params
          (windowIndex q.2 limbNum windowNum
            (limbNum == (exponentBits - 1) / 64 && windowNum == (exponentBits - 1) % 64 / 4)
            ((1 : Limb) <<< ((exponentBits - 1) % 64 % 4 + 1) - 1)) q.1 z)
        (if limbNum == (exponentBits - 1) / 64 && windowNum == (exponentBits - 1) % 64 / 4 then z
          else squareRepeatMontgomeryForm z 4 params.modulus params.modNegInv))
    16 ((exponentBits - 1) / 64) ((exponentBits - 1) % 64 / 4) ?_ params.one ?_
  · rcases hscan with ⟨hcast, hlt⟩
    simp only [Nat.mul_zero, pow_zero, Nat.div_one] at hcast
    exact ⟨hcast, hlt⟩
  · rintro limbNum windowNum z hlimb hwindow ⟨hcast, hlt⟩
    have hidx := fun e : Uint k =>
      toNat_windowIndex e exponentBits limbNum windowNum hbits hlimb hwindow
    have hstep := prod_window l' (4 * (16 * limbNum + windowNum)) 4
    rw [← Nat.mul_succ 4] at hstep
    by_cases hfirst : (limbNum == (exponentBits - 1) / 64
        && windowNum == (exponentBits - 1) % 64 / 4) = true
    · -- Nothing has been read before the first window.
      have htop : limbNum = (exponentBits - 1) / 64 ∧ windowNum = (exponentBits - 1) % 64 / 4 := by
        simpa using hfirst
      have habove := prod_above l' exponentBits (4 * (16 * limbNum + windowNum + 1)) (by omega)
        hbases.lt
      rw [if_pos hfirst]
      refine ⟨?_, fun hgood => foldl_multiplyWindow_lt hparams hidx hbases z (Or.inl (hlt hgood))⟩
      rw [cast_foldl_multiplyWindow hparams hidx hbases z _ hcast, ← hstep, Nat.succ_eq_add_one,
        habove, one_pow]
    · rw [if_neg hfirst]
      have hsquare := cast_squareRepeat z 4 hparams.negInv hparams.odd hcast
      -- Either a product follows in any case, or the squares are reduced already.
      refine ⟨?_, fun hgood => foldl_multiplyWindow_lt hparams hidx hbases _ ?_⟩
      · rw [cast_foldl_multiplyWindow hparams hidx hbases _ _ hsquare, ← hstep]
      · rcases hgood with hconst | hmod
        · exact Or.inr hconst
        · exact Or.inl (squareRepeat_lt z 4 hparams.negInv hparams.odd (hlt (Or.inr hmod)) hmod)
  · -- Before the loop no bit has been read, and the accumulator is one.
    have habove := prod_above l' exponentBits
      (4 * (16 * ((exponentBits - 1) / 64) + (exponentBits - 1) % 64 / 4 + 1)) (by omega) hbases.lt
    refine ⟨?_, fun _ => hone.lt⟩
    rw [habove]
    exact hone.cast

/-- The bits above the exponent are zero. -/
theorem toNat_mod_clamp (exponent : Uint k) (exponentBits : ℕ) :
    exponent.toNat % 2 ^ (if exponentBits > 64 * k then 64 * k else exponentBits)
      = exponent.toNat % 2 ^ exponentBits := by
  have hlt := exponent.toNat_lt
  rw [← pow_mul] at hlt
  by_cases h : exponentBits > 64 * k
  · have hle := Nat.pow_le_pow_right (n := 2) (by decide) (Nat.le_of_lt h)
    rw [if_pos h, Nat.mod_eq_of_lt hlt, Nat.mod_eq_of_lt (by omega)]
  · rw [if_neg h]

/-- The product of the powers of residues by the bits that are read. -/
def powerProduct {m : ℕ} (xs : List (ZMod m)) (exponents : List (Uint k)) (exponentBits : ℕ) :
    ZMod m :=
  (List.zipWith (fun x (e : Uint k) => x ^ (e.toNat % 2 ^ exponentBits)) xs exponents).prod

/-- The product of powers, with any bound on the bits. -/
theorem multiExponentiateMontgomeryForm_spec (vartime : Bool)
    (hparams : params.Valid params.modulus.toNat) (l : List (Uint n × Uint k))
    (xs : List (ZMod params.modulus.toNat)) (exponentBits : ℕ)
    (hl : List.Forall₂
      (fun q x => Form ((2 ^ 64) ^ n) params.modulus.toNat q.1.toNat x) l xs) :
    ((multiExponentiateMontgomeryForm vartime l exponentBits params).toNat
          : ZMod params.modulus.toNat)
        = ((2 ^ 64) ^ n : ℕ) * powerProduct xs (l.map Prod.snd) exponentBits ∧
      ((vartime = false ∧ l ≠ []) ∨ 4 * params.modulus.toNat ≤ (2 ^ 64) ^ n ∨
          (2 ^ 64) ^ n ≤ 2 * params.modulus.toNat →
        (multiExponentiateMontgomeryForm vartime l exponentBits params).toNat
          < params.modulus.toNat) := by
  have hone := form_one hparams
  generalize hclamp : (if exponentBits > 64 * k then 64 * k else exponentBits) = bits
  have hmod : ∀ e : Uint k, e.toNat % 2 ^ exponentBits = e.toNat % 2 ^ bits := by
    intro e
    rw [← hclamp, toNat_mod_clamp]
  have hbases : Bases params bits (l.map fun q => (computePowers q.1 params, q.2))
      (List.zipWith (fun x (q : Uint n × Uint k) => (x, q.2.toNat % 2 ^ bits)) xs l) := by
    induction hl with
    | nil => exact List.Forall₂.nil
    | cons hq _ ih => exact List.Forall₂.cons ⟨powerTable_computePowers hparams _ hq, rfl⟩ ih
  have hprod : ((List.zipWith (fun x (q : Uint n × Uint k) => (x, q.2.toNat % 2 ^ bits)) xs l).map
      fun r => r.1 ^ r.2).prod = powerProduct xs (l.map Prod.snd) exponentBits := by
    unfold powerProduct
    rw [List.map_zipWith, List.zipWith_map_right]
    simp only [hmod]
  unfold multiExponentiateMontgomeryForm
  simp only [hclamp]
  by_cases hzero : bits = 0
  · have hpow : powerProduct xs (l.map Prod.snd) exponentBits = 1 := by
      have habove := prod_above _ bits 0 (Nat.le_of_eq hzero) hbases.lt
      simp only [pow_zero, Nat.div_one] at habove
      rw [← hprod, habove]
    rw [if_pos hzero, hpow]
    exact ⟨hone.cast, fun _ => hone.lt⟩
  · rw [if_neg hzero]
    rcases multiExponentiateInternal_spec vartime hparams _ _ bits
      (Nat.pos_of_ne_zero hzero) hbases with ⟨hcast, hlt⟩
    rw [hprod] at hcast
    refine ⟨hcast, fun hgood => hlt (hgood.imp_left (And.imp_right fun hne => ?_))⟩
    simpa using hne

/-- The powers of `x` below the sixteenth, at most one modulus too large. -/
structure AmmTable (params : MontyParams n) (powers : List (Uint n))
    (x : ZMod params.modulus.toNat) : Prop where
  length : powers.length = 16
  cast : ∀ i, i < 16 → ((powers.getD i Uint.zero).toNat : ZMod params.modulus.toNat)
    = ((2 ^ 64) ^ n : ℕ) * x ^ i
  div_le : ∀ i, i < 16 → (powers.getD i Uint.zero).toNat / params.modulus.toNat ≤ 1

theorem ammTable_computePowersAmm (hparams : params.Valid params.modulus.toNat) (a : Uint n)
    {x : ZMod params.modulus.toNat}
    (ha : Form ((2 ^ 64) ^ n) params.modulus.toNat a.toNat x) :
    AmmTable params (computePowersAmm a params) x := by
  have hone := form_one hparams
  have hpos := Nat.zero_lt_of_lt ha.lt
  have hzero := Nat.div_eq_of_lt ha.lt
  -- From the second factor on the products are below twice the modulus.
  have hstep : ∀ i,
      (((fun power => almostMontgomeryMul power a params.modulus params.modNegInv)^[i] a).toNat
          : ZMod params.modulus.toNat) = ((2 ^ 64) ^ n : ℕ) * x ^ (i + 1) ∧
        ((fun power => almostMontgomeryMul power a params.modulus params.modNegInv)^[i] a).toNat
          / params.modulus.toNat ≤ 1 := by
    intro i
    induction i with
    | zero => exact ⟨by simpa using ha.cast, by simp [hzero]⟩
    | succ i ih =>
        have hdiv := almostMontgomeryMul_div_le
          ((fun power => almostMontgomeryMul power a params.modulus params.modNegInv)^[i] a) a
          hparams.negInv hpos
        rw [Function.iterate_succ_apply', pow_succ x]
        refine ⟨cast_almostMontgomeryMul _ _ hparams.negInv hparams.odd ih.1 ha.cast, ?_⟩
        omega
  have hentry : ∀ i, i < 15 → (computePowersAmm a params).getD (i + 1) Uint.zero
      = (fun power => almostMontgomeryMul power a params.modulus params.modNegInv)^[i] a := by
    intro i hi
    unfold computePowersAmm
    rw [List.getD_cons_succ, List.getD_eq_getElem?_getD,
      List.getElem?_iterate _ _ 15 i hi, Option.getD_some]
  refine ⟨by simp [computePowersAmm], ?_, ?_⟩
  · intro i hi
    cases i with
    | zero => simpa [computePowersAmm] using hone.cast
    | succ i =>
        rw [hentry i (by omega)]
        exact (hstep i).1
  · intro i hi
    cases i with
    | zero => simp [computePowersAmm, Nat.div_eq_of_lt hone.lt]
    | succ i =>
        rw [hentry i (by omega)]
        exact (hstep i).2

/-- The squares between two windows. -/
theorem cast_iterate_square (hparams : params.Valid params.modulus.toNat) (z : Uint n)
    {y : ZMod params.modulus.toNat}
    (hz : (z.toNat : ZMod params.modulus.toNat) = ((2 ^ 64) ^ n : ℕ) * y) (j : ℕ) :
    (((fun z => almostMontgomeryMul z z params.modulus params.modNegInv)^[j] z).toNat
      : ZMod params.modulus.toNat) = ((2 ^ 64) ^ n : ℕ) * y ^ 2 ^ j := by
  have hodd := hparams.odd
  have hsquares : (fun z : Uint n => almostMontgomeryMul z z params.modulus params.modNegInv)
      = almostSquare params.modulus params.modNegInv :=
    funext fun z => (almostSquare_eq z hparams.negInv (by omega)).symm
  rw [hsquares]
  exact cast_iterate_almostSquare z hparams.negInv hodd hz j

/-- The loop over windows stays below three moduli. -/
theorem powAmmInternal_spec (hparams : params.Valid params.modulus.toNat) (powers : List (Uint n))
    (exponent : Uint n) (exponentBits : ℕ) (hbits : 0 < exponentBits)
    {x : ZMod params.modulus.toNat} (htable : AmmTable params powers x) :
    ((powAmmInternal powers exponent exponentBits params).toNat : ZMod params.modulus.toNat)
        = ((2 ^ 64) ^ n : ℕ) * x ^ (exponent.toNat % 2 ^ exponentBits) ∧
      (powAmmInternal powers exponent exponentBits params).toNat / params.modulus.toNat ≤ 2 := by
  have hone := form_one hparams
  have hpos := Nat.zero_lt_of_lt hone.lt
  have hlen := htable.length
  have habove : ∀ p, exponentBits ≤ p → exponent.toNat % 2 ^ exponentBits / 2 ^ p = 0 := by
    intro p hp
    exact Nat.div_eq_of_lt (Nat.lt_of_lt_of_le (Nat.mod_lt _ (Nat.two_pow_pos _))
      (Nat.pow_le_pow_right (by decide) hp))
  have hscan := scan_inv
    (fun p (z : Uint n) =>
      (z.toNat : ZMod params.modulus.toNat)
          = ((2 ^ 64) ^ n : ℕ) * x ^ (exponent.toNat % 2 ^ exponentBits / 2 ^ (4 * p)) ∧
        z.toNat / params.modulus.toNat ≤ 2)
    (fun limbNum windowNum z =>
      almostMontgomeryMul
        (if limbNum == (exponentBits - 1) / 64 && windowNum == (exponentBits - 1) % 64 / 4 then z
          else (fun z => almostMontgomeryMul z z params.modulus params.modNegInv)^[4] z)
        (lookup powers (windowIndex exponent limbNum windowNum
          (limbNum == (exponentBits - 1) / 64 && windowNum == (exponentBits - 1) % 64 / 4)
          ((1 : Limb) <<< ((exponentBits - 1) % 64 % 4 + 1) - 1)))
        params.modulus params.modNegInv)
    16 ((exponentBits - 1) / 64) ((exponentBits - 1) % 64 / 4) ?_ params.one ?_
  · rcases hscan with ⟨hcast, hdiv⟩
    simp only [Nat.mul_zero, pow_zero, Nat.div_one] at hcast
    exact ⟨hcast, hdiv⟩
  · rintro limbNum windowNum z hlimb hwindow ⟨hcast, hdiv⟩
    have hidx := toNat_windowIndex exponent exponentBits limbNum windowNum hbits hlimb hwindow
    have hlt := Nat.mod_lt (exponent.toNat % 2 ^ exponentBits
      / 2 ^ (4 * (16 * limbNum + windowNum))) (Nat.two_pow_pos 4)
    rw [← hidx] at hlt
    have hstep := prod_window [(x, exponent.toNat % 2 ^ exponentBits)]
      (4 * (16 * limbNum + windowNum)) 4
    simp only [List.map_cons, List.map_nil, List.prod_cons, List.prod_nil, mul_one] at hstep
    rw [← hstep, ← hidx]
    -- The index of the entry is only known by its value from here on.
    generalize windowIndex exponent limbNum windowNum _ _ = idx at hlt
    have hpower := htable.cast idx.toNat hlt
    have hpowerDiv := htable.div_le idx.toNat hlt
    rw [lookup_eq _ _ (by omega) (by omega)]
    -- One product with an entry brings the accumulator below three moduli.
    refine ⟨cast_almostMontgomeryMul _ _ hparams.negInv hparams.odd ?_ hpower, ?_⟩
    · by_cases hfirst : (limbNum == (exponentBits - 1) / 64
          && windowNum == (exponentBits - 1) % 64 / 4) = true
      · have htop : limbNum = (exponentBits - 1) / 64
            ∧ windowNum = (exponentBits - 1) % 64 / 4 := by
          simpa using hfirst
        rw [habove _ (by omega), pow_zero] at hcast
        rw [if_pos hfirst, habove _ (by omega), pow_zero, one_pow]
        exact hcast
      · rw [if_neg hfirst]
        exact cast_iterate_square hparams z hcast 4
    · have hle := almostMontgomeryMul_div_le
        (if limbNum == (exponentBits - 1) / 64 && windowNum == (exponentBits - 1) % 64 / 4 then z
          else (fun z => almostMontgomeryMul z z params.modulus params.modNegInv)^[4] z)
        (powers.getD idx.toNat Uint.zero) hparams.negInv hpos
      omega
  · rw [habove _ (by omega), pow_zero, Nat.div_eq_of_lt hone.lt]
    exact ⟨hone.cast, by omega⟩

/-- The power by almost reduced products is reduced, whatever the modulus. -/
theorem form_powMontgomeryFormAmm (hparams : params.Valid params.modulus.toNat)
    (a exponent : Uint n) (exponentBits : ℕ) {x : ZMod params.modulus.toNat}
    (ha : Form ((2 ^ 64) ^ n) params.modulus.toNat a.toNat x) :
    Form ((2 ^ 64) ^ n) params.modulus.toNat
      (powMontgomeryFormAmm a exponent exponentBits params).toNat
      (x ^ (exponent.toNat % 2 ^ exponentBits)) := by
  have hone := form_one hparams
  have hclamp : exponent.toNat % 2 ^ exponentBits
      = exponent.toNat % 2 ^ min exponentBits (64 * n) := by
    have hmin : min exponentBits (64 * n)
        = if exponentBits > 64 * n then 64 * n else exponentBits := by
      split <;> omega
    rw [hmin, toNat_mod_clamp]
  rw [hclamp]
  unfold powMontgomeryFormAmm
  generalize min exponentBits (64 * n) = bits
  by_cases hzero : bits = 0
  · rw [hzero]
    simpa [Nat.mod_one] using hone
  · rcases powAmmInternal_spec hparams _ exponent bits (Nat.pos_of_ne_zero hzero)
      (ammTable_computePowersAmm hparams a ha) with ⟨hcast, hdiv⟩
    simp only [hzero, if_false]
    exact form_almostMontgomeryReduce _ hdiv (Nat.zero_lt_of_lt hone.lt) hcast

end Powers

namespace Uint

theorem topLimb_above (limbs : List Limb) (i : ℕ) :
    ∀ j, topLimb limbs i < j → j ≤ i → limbs.getD j 0 = 0 := by
  induction i with
  | zero => intro j hj hle; simp only [topLimb] at hj; omega
  | succ i ih =>
      intro j hj hle
      unfold topLimb at hj
      by_cases hzero : limbs.getD (i + 1) 0 = 0
      · rw [if_pos hzero] at hj
        by_cases heq : j = i + 1
        · rw [heq]
          exact hzero
        · exact ih j hj (by omega)
      · rw [if_neg hzero] at hj
        omega

/-- The bits of an exponent cover it. -/
theorem lt_two_pow_bitsVartime (a : Uint k) : a.toNat < 2 ^ a.bitsVartime := by
  unfold bitsVartime
  generalize htop : topLimb a.limbs (k - 1) = i
  have habove : ∀ j, i < j → a.limbs.getD j 0 = 0 := by
    intro j hj
    by_cases hle : j ≤ k - 1
    · exact topLimb_above a.limbs (k - 1) j (htop ▸ hj) hle
    · have hlen := a.length_limbs
      rw [List.getD_eq_getElem?_getD, List.getElem?_eq_none (by omega), Option.getD_none]
  have hlt := value_lt_of_above a.limbs i habove
  have hclz : (a.limbs.getD i 0).clz.toNat ≤ 64 := BitVec.clz_le
  have hlimb : (a.limbs.getD i 0).toNat + 1 ≤ 2 ^ (64 - (a.limbs.getD i 0).clz.toNat) :=
    BitVec.toNat_lt_two_pow_sub_clz
  have hbits : 64 * (i + 1) - (a.limbs.getD i 0).clz.toNat
      = 64 * i + (64 - (a.limbs.getD i 0).clz.toNat) := by omega
  simp only [hbits]
  rw [pow_add, pow_mul]
  exact Nat.lt_of_lt_of_le hlt (Nat.mul_le_mul_left _ hlimb)

end Uint

@[simp] theorem powerProduct_singleton {m : ℕ} (x : ZMod m) (exponent : Uint k)
    (exponentBits : ℕ) :
    powerProduct [x] [exponent] exponentBits = x ^ (exponent.toNat % 2 ^ exponentBits) := by
  simp [powerProduct]

namespace FixedMontyForm

variable {params : MontyParams n} {m : ℕ} {a : FixedMontyForm params} {r : ConstMontyForm m}

/-- The power by the bits that are read. -/
theorem Represents.powBoundedExp (hparams : params.Valid m) (ha : Represents a r)
    (exponent : Uint k) (exponentBits : ℕ) :
    Form ((2 ^ 64) ^ n) m (a.powBoundedExp exponent exponentBits).montgomeryForm.toNat
      (r.toZMod ^ (exponent.toNat % 2 ^ exponentBits)) := by
  rcases hparams.modulus with rfl
  rcases multiExponentiateMontgomeryForm_spec false hparams
    [(a.montgomeryForm, exponent)] [r.toZMod] exponentBits (List.Forall₂.cons ha List.Forall₂.nil)
      with ⟨hcast, hlt⟩
  rw [List.map_cons, List.map_nil, powerProduct_singleton] at hcast
  exact ⟨hlt (Or.inl ⟨rfl, by simp⟩), hcast⟩

/-- The power in variable time, reduced for most moduli. -/
theorem Represents.powVartime (hparams : params.Valid m) (ha : Represents a r) (exponent : Uint k) :
    ((a.powVartime exponent).montgomeryForm.toNat : ZMod m)
        = ((2 ^ 64) ^ n : ℕ) * r.toZMod ^ exponent.toNat ∧
      (4 * m ≤ (2 ^ 64) ^ n ∨ (2 ^ 64) ^ n ≤ 2 * m →
        (a.powVartime exponent).montgomeryForm.toNat < m) := by
  rcases hparams.modulus with rfl
  rcases multiExponentiateMontgomeryForm_spec true hparams
    [(a.montgomeryForm, exponent)] [r.toZMod] exponent.bitsVartime
    (List.Forall₂.cons ha List.Forall₂.nil) with ⟨hcast, hlt⟩
  rw [List.map_cons, List.map_nil, powerProduct_singleton,
    Nat.mod_eq_of_lt exponent.lt_two_pow_bitsVartime] at hcast
  exact ⟨hcast, fun hbits => hlt (Or.inr hbits)⟩

/-- The power by almost reduced products. -/
theorem Represents.powAmmBoundedExp (hparams : params.Valid m) (ha : Represents a r)
    (exponent : Uint n) (exponentBits : ℕ) :
    Form ((2 ^ 64) ^ n) m (a.powAmmBoundedExp exponent exponentBits).montgomeryForm.toNat
      (r.toZMod ^ (exponent.toNat % 2 ^ exponentBits)) := by
  rcases hparams.modulus with rfl
  exact form_powMontgomeryFormAmm hparams _ exponent exponentBits ha

end FixedMontyForm

end Ed301
