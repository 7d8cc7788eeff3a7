import Mathlib.Data.Nat.Digits.Defs
import Mathlib.Data.Nat.Digits.Lemmas
import Mathlib.Tactic.Linarith
import Mathlib.Tactic.LinearCombination
import Mathlib.Tactic.Ring

/-!
# Loops over Limbs

Numbers as lists of words, lowest first, and the loops that run over them with
a carry.

Multi-word arithmetic is one loop many times over: take a limb of each operand
and a carry, give out a limb and the next carry. `sweep` is that loop. What it
computes follows from what one step computes, in one of two ways. If a step
adds, the words given out and the last carry make up the sum. If a step
subtracts, the words given out make up the difference and the last carry is
what had to be borrowed. Both are stated over arbitrary readings of the limbs
as numbers, so that a step may take several operands at once.

The same loop run under a monad is `sweepM`. A step that may panic does not
panic if it keeps an invariant of the carry, and then the two loops agree.

## Main definitions

* `value`: The number a list of words denotes.
* `words`: The words of a number.
* `sweep`, `sweepM`: A loop from the lowest limb up.
* `sweepDown`: A loop from the highest limb down.

## Theorems

* `value_lt`, `value_append`, `value_injective`, `value_words`, `words_value`,
  `toNat_getD`: Words and numbers.
* `sweep_add`, `sweep_sub`: What a loop that adds or subtracts computes.
* `sweepDown_div`: What a loop that divides computes.
* `sweepM_eq_pure`, `sweepM_id`: A loop whose steps do not panic.
-/

namespace Ed301

namespace Limbs

section Value

variable {w : ℕ}

/-- The number a list of words denotes, the lowest word first. -/
def value (l : List (BitVec w)) : ℕ :=
  Nat.ofDigits (2 ^ w) (l.map BitVec.toNat)

/-- The lowest `n` words of a number. -/
def words (w : ℕ) : ℕ → ℕ → List (BitVec w)
  | 0, _ => []
  | n + 1, k => BitVec.ofNat w k :: words w n (k / 2 ^ w)

@[simp] theorem value_nil : value ([] : List (BitVec w)) = 0 := rfl

@[simp] theorem value_cons (a : BitVec w) (l : List (BitVec w)) :
    value (a :: l) = a.toNat + 2 ^ w * value l := by
  simp only [value, List.map_cons, Nat.ofDigits_cons]

theorem value_append (l l' : List (BitVec w)) :
    value (l ++ l') = value l + (2 ^ w) ^ l.length * value l' := by
  simp only [value, List.map_append, Nat.ofDigits_append, List.length_map]

@[simp] theorem value_replicate_zero (n : ℕ) :
    value (List.replicate n (0 : BitVec w)) = 0 := by
  induction n with
  | zero => rfl
  | succ n ih => rw [List.replicate_succ, value_cons, ih]; rfl

@[simp] theorem value_append_zeros (l : List (BitVec w)) (n : ℕ) :
    value (l ++ List.replicate n 0) = value l := by
  rw [value_append, value_replicate_zero, Nat.mul_zero, Nat.add_zero]

theorem value_lt (l : List (BitVec w)) : value l < (2 ^ w) ^ l.length := by
  induction l with
  | nil => simp
  | cons a l ih =>
      -- A word and a number one word up leave no gap below the next power.
      have ha := a.isLt
      rw [value_cons, List.length_cons, pow_succ]
      nlinarith [Nat.two_pow_pos w]

@[simp] theorem length_words (n : ℕ) : ∀ k, (words w n k).length = n := by
  induction n with
  | zero => intro k; rfl
  | succ n ih => intro k; simp [words, ih]

theorem value_words (n : ℕ) : ∀ k, value (words w n k) = k % (2 ^ w) ^ n := by
  induction n with
  | zero => intro k; simp [words, Nat.mod_one]
  | succ n ih =>
      intro k
      rw [words, value_cons, ih, BitVec.toNat_ofNat, pow_succ', Nat.mod_mul]

theorem words_value (l : List (BitVec w)) : words w l.length (value l) = l := by
  induction l with
  | nil => rfl
  | cons a l ih =>
      -- The lowest word is the remainder, the others are the quotient.
      have ha := a.isLt
      have hhead : BitVec.ofNat w (a.toNat + 2 ^ w * value l) = a := by
        apply BitVec.eq_of_toNat_eq
        rw [BitVec.toNat_ofNat, Nat.add_mul_mod_self_left, Nat.mod_eq_of_lt ha]
      have htail : (a.toNat + 2 ^ w * value l) / 2 ^ w = value l := by
        rw [Nat.add_mul_div_left _ _ (Nat.two_pow_pos w), Nat.div_eq_of_lt ha, Nat.zero_add]
      rw [value_cons, List.length_cons, words, hhead, htail, ih]

theorem value_injective (l l' : List (BitVec w)) (hlen : l.length = l'.length)
    (h : value l = value l') : l = l' := by
  rw [← words_value l, ← words_value l', hlen, h]

/-- A word is a digit of the number. -/
theorem toNat_getD (l : List (BitVec w)) :
    ∀ i, (l.getD i 0).toNat = value l / (2 ^ w) ^ i % 2 ^ w := by
  -- The position goes down with the list, so it varies in the induction.
  induction l with
  | nil => intro i; simp
  | cons a l ih =>
      intro i
      have ha := a.isLt
      cases i with
      | zero =>
          rw [List.getD_cons_zero, value_cons, pow_zero, Nat.div_one, Nat.add_mul_mod_self_left,
            Nat.mod_eq_of_lt ha]
      | succ i =>
          rw [List.getD_cons_succ, ih, value_cons, pow_succ', ← Nat.div_div_eq_div_mul,
            Nat.add_mul_div_left _ _ (Nat.two_pow_pos w), Nat.div_eq_of_lt ha, Nat.zero_add]

/-- A number whose words above one position are zero. -/
theorem value_lt_of_above (l : List (BitVec w)) :
    ∀ i, (∀ j, i < j → l.getD j 0 = 0) → value l < (2 ^ w) ^ i * ((l.getD i 0).toNat + 1) := by
  induction l with
  | nil => intro i _; simp
  | cons a l ih =>
      intro i habove
      have ha := a.isLt
      cases i with
      | zero =>
          -- All words but the lowest are zero, and so is what they denote.
          have hrest := ih 0 fun j hj => by simpa using habove (j + 1) (by omega)
          have hzero := habove 1 (by omega)
          rw [List.getD_cons_succ] at hzero
          rw [hzero] at hrest
          have hvalue : value l = 0 := by simpa using hrest
          rw [value_cons, hvalue, List.getD_cons_zero, pow_zero, Nat.one_mul]
          exact Nat.lt_succ_self _
      | succ i =>
          have hrest := ih i fun j hj => by simpa using habove (j + 1) (by omega)
          rw [value_cons, List.getD_cons_succ, pow_succ', Nat.mul_assoc]
          -- The lowest word fits into one unit of the word above it.
          calc a.toNat + 2 ^ w * value l < 2 ^ w * (value l + 1) := by
                rw [Nat.mul_succ]
                omega
            _ ≤ 2 ^ w * ((2 ^ w) ^ i * ((l.getD i 0).toNat + 1)) := Nat.mul_le_mul_left _ hrest

end Value

section Digits

variable {α β : Type*}

/-- Digits that are sums. -/
theorem ofDigits_map_add (B : ℕ) (f g : α → ℕ) (l : List α) :
    Nat.ofDigits B (l.map fun a => f a + g a)
      = Nat.ofDigits B (l.map f) + Nat.ofDigits B (l.map g) := by
  induction l with
  | nil => rfl
  | cons a l ih =>
      simp only [List.map_cons, Nat.ofDigits_cons, ih, Nat.mul_add]
      omega

/-- Digits with a common factor. -/
theorem ofDigits_map_mul (B k : ℕ) (f : α → ℕ) (l : List α) :
    Nat.ofDigits B (l.map fun a => k * f a) = k * Nat.ofDigits B (l.map f) := by
  induction l with
  | nil => rfl
  | cons a l ih =>
      simp only [List.map_cons, Nat.ofDigits_cons, ih]
      ring

/-- The first of two lists taken in step. -/
theorem map_zip_fst {γ : Type*} (g : α → γ) (l : List α) (l' : List β)
    (h : l.length ≤ l'.length) : ((l.zip l').map fun p => g p.1) = l.map g := by
  have hfst : (l.zip l').map (g ∘ Prod.fst) = ((l.zip l').map Prod.fst).map g :=
    (List.map_map).symm
  rw [List.map_fst_zip h] at hfst
  exact hfst

/-- The second of two lists taken in step with a first that may be shorter. -/
theorem map_zip_snd_take {γ : Type*} (g : β → γ) (l : List α) :
    ∀ l' : List β, ((l.zip l').map fun p => g p.2) = (l'.take l.length).map g := by
  induction l with
  | nil => intro l'; simp
  | cons a l ih =>
      intro l'
      cases l' with
      | nil => rfl
      | cons b l' => simp [ih]

/-- The second of two lists taken in step. -/
theorem map_zip_snd {γ : Type*} (g : β → γ) (l : List α) (l' : List β)
    (h : l'.length ≤ l.length) : ((l.zip l').map fun p => g p.2) = l'.map g := by
  rw [map_zip_snd_take, List.take_of_length_le h]

end Digits

section Sweep

variable {α β σ : Type*}

/-- A loop from the lowest limb up, handing a carry on. -/
def sweep (f : σ → α → β × σ) : σ → List α → List β × σ
  | s, [] => ([], s)
  | s, a :: l =>
    let q := f s a
    let r := sweep f q.2 l
    (q.1 :: r.1, r.2)

/-- A loop from the highest limb down. -/
def sweepDown (f : σ → α → β × σ) : σ → List α → List β × σ
  | s, [] => ([], s)
  | s, a :: l =>
    let r := sweepDown f s l
    let q := f r.2 a
    (q.1 :: r.1, q.2)

variable (f : σ → α → β × σ)

@[simp] theorem length_sweep (l : List α) : ∀ s, (sweep f s l).1.length = l.length := by
  induction l with
  | nil => intro s; rfl
  | cons a l ih => intro s; simp [sweep, ih]

@[simp] theorem length_sweepDown (s : σ) (l : List α) :
    (sweepDown f s l).1.length = l.length := by
  induction l with
  | nil => rfl
  | cons a l ih => simp [sweepDown, ih]

/-- A loop over limbs that are computed on the way. -/
theorem sweep_map {γ : Type*} (g : γ → α) (l : List γ) :
    ∀ s, sweep f s (l.map g) = sweep (fun s x => f s (g x)) s l := by
  induction l with
  | nil => intro s; rfl
  | cons x l ih => intro s; simp [sweep, ih]

/-- What every step keeps, the loop keeps. -/
theorem sweep_invariant (P : σ → Prop) (hstep : ∀ s a, P s → P (f s a).2) (l : List α) :
    ∀ s, P s → P (sweep f s l).2 := by
  induction l with
  | nil => intro s hs; exact hs
  | cons a l ih => intro s hs; exact ih _ (hstep s a hs)

/-- A loop whose steps add: the words given out and the last carry make up the
    total. -/
theorem sweep_add (B : ℕ) (out : β → ℕ) (g : α → ℕ) (c : σ → ℕ) (P : σ → Prop)
    (hkeep : ∀ s a, P s → P (f s a).2)
    (hstep : ∀ s a, P s → out (f s a).1 + B * c (f s a).2 = g a + c s) (l : List α) :
    ∀ s, P s → Nat.ofDigits B ((sweep f s l).1.map out) + B ^ l.length * c (sweep f s l).2
      = Nat.ofDigits B (l.map g) + c s := by
  induction l with
  | nil => intro s _; simp [sweep]
  | cons a l ih =>
      intro s hs
      -- The carry between the lowest limb and the others occurs on both sides.
      have hone := hstep s a hs
      have hrest := ih (f s a).2 (hkeep s a hs)
      simp only [sweep, List.map_cons, Nat.ofDigits_cons, List.length_cons, pow_succ']
      linear_combination hone + B * hrest

/-- A loop whose steps subtract: the words given out make up the difference,
    and the last carry is what was borrowed. -/
theorem sweep_sub (B : ℕ) (out : β → ℕ) (g h : α → ℕ) (c : σ → ℕ) (P : σ → Prop)
    (hkeep : ∀ s a, P s → P (f s a).2)
    (hstep : ∀ s a, P s → out (f s a).1 + h a + c s = g a + B * c (f s a).2) (l : List α) :
    ∀ s, P s → Nat.ofDigits B ((sweep f s l).1.map out) + Nat.ofDigits B (l.map h) + c s
      = Nat.ofDigits B (l.map g) + B ^ l.length * c (sweep f s l).2 := by
  induction l with
  | nil => intro s _; simp [sweep]
  | cons a l ih =>
      intro s hs
      have hone := hstep s a hs
      have hrest := ih (f s a).2 (hkeep s a hs)
      simp only [sweep, List.map_cons, Nat.ofDigits_cons, List.length_cons, pow_succ']
      linear_combination hone + B * hrest

/-- A loop down whose steps divide, the carry coming in at the top. -/
theorem sweepDown_div (k B : ℕ) (out : β → ℕ) (g : α → ℕ) (c : σ → ℕ) (P : σ → Prop)
    (hkeep : ∀ s a, P s → P (f s a).2)
    (hstep : ∀ s a, P s → k * out (f s a).1 + c (f s a).2 = g a + B * c s)
    (s : σ) (hs : P s) (l : List α) :
    P (sweepDown f s l).2 ∧
      k * Nat.ofDigits B ((sweepDown f s l).1.map out) + c (sweepDown f s l).2
        = Nat.ofDigits B (l.map g) + B ^ l.length * c s := by
  induction l with
  | nil => exact ⟨hs, by simp [sweepDown]⟩
  | cons a l ih =>
      -- The limbs above come first, so the invariant comes with the induction.
      rcases ih with ⟨hP, hrest⟩
      have hone := hstep _ a hP
      refine ⟨hkeep _ a hP, ?_⟩
      simp only [sweepDown, List.map_cons, Nat.ofDigits_cons, List.length_cons, pow_succ']
      linear_combination hone + B * hrest

end Sweep

section SweepM

variable {m : Type → Type} [Monad m] {α β σ : Type}

/-- The loop from the lowest limb up, with steps that may fail. -/
def sweepM (f : σ → α → m (β × σ)) : σ → List α → m (List β × σ)
  | s, [] => pure ([], s)
  | s, a :: l => do
    let q ← f s a
    let r ← sweepM f q.2 l
    pure (q.1 :: r.1, r.2)

/-- Steps that succeed while an invariant holds, and keep it, make a loop that
    succeeds. -/
theorem sweepM_eq_pure [LawfulMonad m] (F : σ → α → m (β × σ)) (f : σ → α → β × σ)
    (P : σ → Prop) (hkeep : ∀ s a, P s → P (f s a).2)
    (hstep : ∀ s a, P s → F s a = pure (f s a)) (l : List α) :
    ∀ s, P s → sweepM F s l = pure (sweep f s l) := by
  induction l with
  | nil => intro s _; rfl
  | cons a l ih =>
      intro s hs
      rw [sweepM, hstep s a hs, pure_bind, ih _ (hkeep s a hs), pure_bind]
      rfl

/-- A loop whose steps cannot fail. -/
theorem sweepM_id (f : σ → α → Id (β × σ)) (l : List α) (s : σ) :
    sweepM f s l = pure (sweep (fun s a => (f s a).run) s l) :=
  sweepM_eq_pure f _ (fun _ => True) (fun _ _ _ => trivial) (fun _ _ _ => rfl) l s trivial

end SweepM

end Limbs

end Ed301
