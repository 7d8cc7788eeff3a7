import Mathlib.Algebra.BigOperators.Fin
import Mathlib.Data.Nat.Bitwise
import Mathlib.Data.Nat.Digits.Defs
import Mathlib.Data.Nat.Digits.Lemmas
import Mathlib.Tactic.Ring

/-!
# Little-Endian Strings

Byte and word strings as numbers. A string denotes the number its digits
spell in radix `256` or `2 ^ 64`, least significant first, and a fixed-width
string is recovered from that number: `leBytes_leInteger` and
`leInteger_leBytes` make a string of `n` bytes the same thing as a number
below `256 ^ n`. Every parser and serialiser above works on one of the two
sides and crosses over here.

What crosses over besides reading and writing are the three things code does
to a string in place: slicing it, appending to it and overwriting one digit.
`ofDigits_set` states the last as an equation between sums, with the old
digit's weight on the left, so no subtraction is needed to say that a digit
was replaced.

Words are read from byte strings of at most eight bytes, which is where
`leWord_toNat` gets its bound.

## Main definitions

* `leInteger`: The number a byte string denotes.
* `leBytes`: The first `n` bytes of a number.
* `wordsInteger`: The number a word string denotes.
* `leWord`: The word a byte string denotes.

## Theorems

* `two_pow_eq_mul`, `byte_pow_eq`: Weights of bit and byte positions.
* `xor_two_pow_cases`: Flipping a bit adds its weight or takes it away.
* `ofDigits_set`: Overwriting a digit changes the number by its weight.
* `leInteger_lt`: A string of `n` bytes denotes a number below `256 ^ n`.
* `leInteger_leBytes`: Writing and reading back truncates to the width.
* `leBytes_leInteger`: Reading and writing back is the identity.
* `leInteger_injective`: Strings of one length are told apart by their numbers.
* `leBytes_append`: Two strings side by side spell one number.
* `getElem_toNat`: A byte read off the number.
* `wordsInteger_eq_sum`: A word string's number as a weighted sum.
* `leWord_toNat`: A word holds every string of at most eight bytes.
-/

namespace Ed301

namespace Radix

/-- The weight of a bit position, split at a lower one. -/
theorem two_pow_eq_mul (a b c w : ℕ) (hc : c = a + b) (hw : w = 2 ^ b) :
    2 ^ c = 2 ^ a * w := by
  rw [hc, hw, pow_add]

/-- The weight of a byte position as that of a bit position. -/
theorem byte_pow_eq (n c : ℕ) (hc : c = 8 * n) : 256 ^ n = 2 ^ c := by
  have h256 : 256 = 2 ^ 8 := by norm_num
  rw [hc, h256, pow_mul]

/-- Flipping a bit leaves everything below it alone. -/
theorem xor_two_pow_mod (n i : ℕ) : (n ^^^ 2 ^ i) % 2 ^ i = n % 2 ^ i := by
  rw [Nat.xor_mod_two_pow, Nat.mod_self, Nat.xor_zero]

theorem xor_two_pow_div (n i : ℕ) : (n ^^^ 2 ^ i) / 2 ^ i = n / 2 ^ i ^^^ 1 := by
  rw [Nat.xor_div_two_pow, Nat.div_self (Nat.two_pow_pos i)]

/-- Flipping a bit adds its weight or takes it away. -/
theorem xor_two_pow_cases (n i : ℕ) :
    n ^^^ 2 ^ i = n + 2 ^ i ∨ n = (n ^^^ 2 ^ i) + 2 ^ i := by
  have hn := Nat.mod_add_div n (2 ^ i)
  have hx := Nat.mod_add_div (n ^^^ 2 ^ i) (2 ^ i)
  rw [xor_two_pow_mod, xor_two_pow_div] at hx
  -- What happens is decided by the parity of the number from the bit on.
  by_cases heven : Even (n / 2 ^ i)
  · left
    rw [Nat.xor_one_of_even heven, mul_add, mul_one] at hx
    omega
  · right
    have hodd := Nat.not_even_iff_odd.mp heven
    have hpos : 1 ≤ n / 2 ^ i := hodd.pos
    rw [Nat.xor_one_of_odd hodd, Nat.mul_sub, mul_one] at hx
    have hle : 2 ^ i ≤ 2 ^ i * (n / 2 ^ i) := Nat.le_mul_of_pos_right _ hpos
    omega

/-- Overwriting digit `i` trades the weight of the old digit for that of the
    new one. -/
theorem ofDigits_set (b : ℕ) : ∀ (l : List ℕ) (i v : ℕ) (h : i < l.length),
    Nat.ofDigits b (l.set i v) + b ^ i * l[i] = Nat.ofDigits b l + b ^ i * v := by
  intro l
  induction l with
  | nil =>
      intro i v h
      exact absurd h (Nat.not_lt_zero i)
  | cons d l ih =>
      intro i v h
      cases i with
      | zero =>
          simp only [List.set_cons_zero, Nat.ofDigits_cons, List.getElem_cons_zero, pow_zero,
            one_mul]
          omega
      | succ i =>
          have hi : i < l.length := Nat.lt_of_succ_lt_succ h
          have hrec := ih i v hi
          simp only [List.set_cons_succ, Nat.ofDigits_cons, List.getElem_cons_succ, pow_succ]
          calc d + b * Nat.ofDigits b (l.set i v) + b ^ i * b * l[i]
              = d + b * (Nat.ofDigits b (l.set i v) + b ^ i * l[i]) := by ring
            _ = d + b * (Nat.ofDigits b l + b ^ i * v) := by rw [hrec]
            _ = d + b * Nat.ofDigits b l + b ^ i * b * v := by ring

/-- The number a little-endian byte string denotes. -/
def leInteger (l : List UInt8) : ℕ :=
  Nat.ofDigits 256 (l.map UInt8.toNat)

/-- The first `n` little-endian bytes of a number. -/
def leBytes : ℕ → ℕ → List UInt8
  | 0, _ => []
  | n + 1, k => UInt8.ofNat k :: leBytes n (k / 256)

@[simp] theorem leInteger_nil : leInteger [] = 0 := rfl

theorem leInteger_cons (b : UInt8) (l : List UInt8) :
    leInteger (b :: l) = b.toNat + 256 * leInteger l := by
  simp only [leInteger, List.map_cons, Nat.ofDigits_cons]

theorem leInteger_append (l l' : List UInt8) :
    leInteger (l ++ l') = leInteger l + 256 ^ l.length * leInteger l' := by
  simp only [leInteger, List.map_append, Nat.ofDigits_append, List.length_map]

/-- Trailing zero bytes do not change the number. -/
theorem leInteger_append_zeros (l : List UInt8) (n : ℕ) :
    leInteger (l ++ List.replicate n 0) = leInteger l := by
  have hzero : leInteger (List.replicate n 0) = 0 := by
    simp only [leInteger, List.map_replicate]
    exact Nat.ofDigits_replicate_zero
  rw [leInteger_append, hzero, mul_zero, add_zero]

theorem leInteger_lt (l : List UInt8) : leInteger l < 256 ^ l.length := by
  induction l with
  | nil => exact Nat.one_pos
  | cons b l ih =>
      -- One more byte is one more factor of 256, minus what the byte lacks.
      have hb := b.toNat_lt
      rw [leInteger_cons, List.length_cons, pow_succ]
      omega

theorem leInteger_set (l : List UInt8) (i : ℕ) (v : UInt8) (h : i < l.length) :
    leInteger (l.set i v) + 256 ^ i * l[i].toNat = leInteger l + 256 ^ i * v.toNat := by
  have hset := ofDigits_set 256 (l.map UInt8.toNat) i v.toNat (by rwa [List.length_map])
  rwa [← List.map_set, List.getElem_map] at hset

@[simp] theorem length_leBytes : ∀ (n k : ℕ), (leBytes n k).length = n := by
  intro n
  induction n with
  | zero =>
      intro k
      rfl
  | succ n ih =>
      intro k
      rw [leBytes, List.length_cons, ih]

/-- Writing a number in `n` bytes and reading it back truncates it. -/
theorem leInteger_leBytes : ∀ (n k : ℕ), leInteger (leBytes n k) = k % 256 ^ n := by
  intro n
  induction n with
  | zero =>
      intro k
      rw [leBytes, leInteger_nil, pow_zero, Nat.mod_one]
  | succ n ih =>
      intro k
      -- The lowest digit and the rest, each truncated on its own.
      have hk : k % 256 ^ (n + 1) = k % 256 + 256 * (k / 256 % 256 ^ n) := by
        rw [pow_succ', Nat.mod_mul]
      rw [leBytes, leInteger_cons, ih, UInt8.toNat_ofNat', hk]

/-- Reading a string and writing the number back in its width restores it. -/
theorem leBytes_leInteger (l : List UInt8) : leBytes l.length (leInteger l) = l := by
  induction l with
  | nil => rfl
  | cons b l ih =>
      -- Dividing by 256 drops the byte just read, which is below 256.
      have hb := b.toNat_lt
      have hdiv : (b.toNat + 256 * leInteger l) / 256 = leInteger l := by omega
      rw [List.length_cons, leBytes, leInteger_cons, hdiv, ih]
      congr 1
      refine UInt8.toNat_inj.mp ?_
      rw [UInt8.toNat_ofNat']
      omega

/-- Two strings of one length that denote one number are equal. -/
theorem leInteger_injective (l l' : List UInt8) (hlen : l.length = l'.length)
    (h : leInteger l = leInteger l') : l = l' := by
  rw [← leBytes_leInteger l, ← leBytes_leInteger l', hlen, h]

/-- The bytes of a number split at any position. -/
theorem leBytes_append : ∀ (m n k : ℕ),
    leBytes (m + n) k = leBytes m k ++ leBytes n (k / 256 ^ m) := by
  intro m n k
  have hk : k % 256 ^ (m + n) = k % 256 ^ m + 256 ^ m * (k / 256 ^ m % 256 ^ n) := by
    rw [pow_add, Nat.mod_mul]
  -- Both sides have the same length and denote the same number.
  refine leInteger_injective _ _ ?_ ?_
  · simp only [length_leBytes, List.length_append]
  · rw [leInteger_append, leInteger_leBytes, leInteger_leBytes, leInteger_leBytes,
      length_leBytes, hk]

theorem take_leBytes (m n k : ℕ) (h : m ≤ n) : (leBytes n k).take m = leBytes m k := by
  rcases Nat.exists_eq_add_of_le h with ⟨r, rfl⟩
  rw [leBytes_append, List.take_append_of_le_length (by rw [length_leBytes]),
    List.take_of_length_le (by rw [length_leBytes])]

/-- A prefix of the bytes of a number does not see what lies above it. -/
theorem leBytes_mod (m n k : ℕ) (h : n ≤ m) : leBytes n (k % 256 ^ m) = leBytes n k := by
  refine leInteger_injective _ _ ?_ ?_
  · rw [length_leBytes, length_leBytes]
  · rw [leInteger_leBytes, leInteger_leBytes, Nat.mod_mod_of_dvd _ (Nat.pow_dvd_pow 256 h)]

/-- A string denotes its first `n` bytes plus the rest, shifted. -/
theorem leInteger_take_drop (l : List UInt8) (n : ℕ) (h : n ≤ l.length) :
    leInteger l = leInteger (l.take n) + 256 ^ n * leInteger (l.drop n) := by
  have happ := leInteger_append (l.take n) (l.drop n)
  rwa [List.take_append_drop, List.length_take, Nat.min_eq_left h] at happ

/-- The byte at position `i` is the digit at that position. -/
theorem getElem_toNat : ∀ (l : List UInt8) (i : ℕ) (h : i < l.length),
    l[i].toNat = leInteger l / 256 ^ i % 256 := by
  intro l
  induction l with
  | nil =>
      intro i h
      exact absurd h (Nat.not_lt_zero i)
  | cons b l ih =>
      intro i h
      have hb := b.toNat_lt
      rw [leInteger_cons]
      cases i with
      | zero =>
          rw [List.getElem_cons_zero, pow_zero, Nat.div_one]
          omega
      | succ i =>
          -- One division by 256 moves to the tail.
          have hdiv : (b.toNat + 256 * leInteger l) / 256 = leInteger l := by omega
          rw [List.getElem_cons_succ, pow_succ', ← Nat.div_div_eq_div_mul, hdiv]
          exact ih i (Nat.lt_of_succ_lt_succ h)

/-- The number a little-endian string of 64-bit words denotes. -/
def wordsInteger (l : List UInt64) : ℕ :=
  Nat.ofDigits (2 ^ 64) (l.map UInt64.toNat)

theorem wordsInteger_cons (w : UInt64) (l : List UInt64) :
    wordsInteger (w :: l) = w.toNat + 2 ^ 64 * wordsInteger l := by
  simp only [wordsInteger, List.map_cons, Nat.ofDigits_cons]

theorem wordsInteger_append (l l' : List UInt64) :
    wordsInteger (l ++ l') = wordsInteger l + (2 ^ 64) ^ l.length * wordsInteger l' := by
  simp only [wordsInteger, List.map_append, Nat.ofDigits_append, List.length_map]

/-- The number as the sum of the weighted words. -/
theorem wordsInteger_eq_sum (l : List UInt64) :
    wordsInteger l = ∑ i : Fin l.length, (l.get i).toNat * 2 ^ (64 * (i : ℕ)) := by
  induction l with
  | nil => rfl
  | cons w l ih =>
      -- The words above the lowest weigh one more factor of the radix.
      have hstep : ∀ i : Fin l.length, 2 ^ 64 * ((l.get i).toNat * 2 ^ (64 * (i : ℕ)))
          = (l.get i).toNat * 2 ^ (64 * ((i : ℕ) + 1)) := by
        intro i
        rw [Nat.mul_succ, pow_add]
        ring
      rw [wordsInteger_cons, ih, Finset.mul_sum, Finset.sum_congr rfl fun i _ => hstep i]
      simp only [List.length_cons, Fin.sum_univ_succ, List.get_cons_zero, Fin.val_zero, mul_zero,
        pow_zero, mul_one, List.get_cons_succ', Fin.val_succ]

theorem wordsInteger_singleton (w : UInt64) : wordsInteger [w] = w.toNat := by
  simp only [wordsInteger, List.map_cons, List.map_nil, Nat.ofDigits_singleton]

/-- The word a little-endian byte string denotes. -/
def leWord (l : List UInt8) : UInt64 :=
  UInt64.ofNat (leInteger l)

theorem leWord_toNat (l : List UInt8) (h : l.length ≤ 8) : (leWord l).toNat = leInteger l := by
  have hlt : leInteger l < 2 ^ 64 :=
    calc leInteger l < 256 ^ l.length := leInteger_lt l
      _ ≤ 256 ^ 8 := Nat.pow_le_pow_right (by norm_num) h
      _ = 2 ^ 64 := by norm_num
  rw [leWord, UInt64.toNat_ofNat', Nat.mod_eq_of_lt hlt]

end Radix

end Ed301
