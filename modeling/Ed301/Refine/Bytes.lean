import Ed301.Core.Field
import Mathlib.Tactic.NormNum

/-!
# Masks on 38-Byte Strings

The bit surgery of the point codec and of the pruning rule, as arithmetic on
the number a string denotes. A mask on one byte is settled by trying all 256
bytes; what it does to the whole string follows from what overwriting a byte
does.

Only the first and the last byte are ever masked. The last one holds the bits
from 296 up, which is where the sign bit, the two reserved bits and the bits
fixed by pruning are.

## Main definitions

* `Bytes.flipBit`: The string with one bit flipped.

## Theorems

* `forall_byte`: A statement about bytes can be checked on all of them.
* `forall_byte`: What each mask does to a byte is checked on all bytes.
* `top_toNat`: The last byte holds the top bits.
* `integer_update_top`: Updating the last byte replaces the top bits.
* `integer_set_sign`: Setting the sign bit adds its weight.
* `integer_clear_sign`: Clearing the top three bits keeps the rest.
* `flipBit_sign_fields`: Flipping the sign bit keeps the other fields.
* `integer_update_bottom`: Updating the first byte replaces the low bits.
-/

namespace Ed301

/-- A statement about bytes can be checked on all of them. -/
theorem forall_byte (p : UInt8 → Prop) (h : ∀ n : Fin 256, p (UInt8.ofFin n)) (c : UInt8) : p c :=
  h c.toFin

-- What the masks of the codec and of the pruning rule do to a byte.
theorem reservedMask_eq_zero_iff (c : UInt8) : c &&& 0x60 = 0 ↔ c.toNat / 32 % 4 = 0 := by
  revert c
  exact forall_byte _ (by decide +kernel)

theorem yMask_toNat (c : UInt8) : (c &&& 0x1f).toNat = c.toNat % 32 := by
  revert c
  exact forall_byte _ (by decide +kernel)

theorem signMask_eq (c : UInt8) :
    Choice.fromU8Lsb ((c >>> 7) &&& 1) = decide (c.toNat / 128 = 1) := by
  revert c
  exact forall_byte _ (by decide +kernel)

theorem clearLow_toNat (c : UInt8) : (c &&& 0xfc).toNat = c.toNat / 4 * 4 := by
  revert c
  exact forall_byte _ (by decide +kernel)

theorem pruneTop_toNat (c : UInt8) : ((c &&& 0x0f) ||| 0x10).toNat = c.toNat % 16 + 16 := by
  revert c
  exact forall_byte _ (by decide +kernel)

theorem signBit_toNat (c : UInt8) (sign : Choice) (h : c.toNat < 128) :
    (c ||| sign.toU8 <<< 7).toNat = c.toNat + 128 * sign.toNat := by
  revert c sign
  exact forall_byte _ (by decide +kernel)

namespace Bytes

/-- The last byte of a 38-byte string holds the top bits of its number. -/
theorem top_toNat (b : Bytes fieldBytes) : b[37].toNat = b.integer / 2 ^ 296 := by
  have hlt : b.integer / 2 ^ 296 < 256 := b.integer_div_lt 296 8 rfl
  rw [getElem_toNat b 37 (by decide), Radix.byte_pow_eq 37 296 rfl, Nat.mod_eq_of_lt hlt]

/-- The first byte holds the low bits. -/
theorem bottom_toNat (b : Bytes fieldBytes) : b[0].toNat = b.integer % 256 := by
  rw [getElem_toNat b 0 (by decide), pow_zero, Nat.div_one]

/-- Updating the last byte replaces the top bits. -/
theorem integer_update_top (b : Bytes fieldBytes) (f : UInt8 → UInt8) :
    (b.update 37 f).integer = b.integer % 2 ^ 296 + 2 ^ 296 * (f b[37]).toNat := by
  -- The old top byte weighs what division leaves of the number.
  have hset : (b.update 37 f).integer + 256 ^ 37 * b[37].toNat
      = b.integer + 256 ^ 37 * (f b[37]).toNat := integer_update b 37 f
  have hdiv := Nat.mod_add_div b.integer (2 ^ 296)
  rw [top_toNat, Radix.byte_pow_eq 37 296 rfl] at hset
  omega

/-- Setting the sign bit of a string whose top three bits are clear. -/
theorem integer_set_sign (b : Bytes fieldBytes) (sign : Choice) (h : b.integer < 2 ^ 301) :
    (b.update 37 (· ||| sign.toU8 <<< 7)).integer = b.integer + 2 ^ 303 * sign.toNat := by
  -- A clear sign bit in the old byte is what makes the disjunction a sum.
  have htop : b[37].toNat < 128 := by
    rw [Radix.two_pow_eq_mul 296 5 301 32 rfl rfl] at h
    rw [top_toNat]
    exact Nat.div_lt_of_lt_mul (by omega)
  rw [integer_update_top, signBit_toNat _ _ htop, top_toNat, mul_add, ← Nat.add_assoc,
    Nat.mod_add_div, Radix.two_pow_eq_mul 296 7 303 128 rfl rfl, mul_assoc]

/-- The two reserved bits of an encoding. -/
theorem reservedBits_iff (b : Bytes fieldBytes) :
    b[37] &&& 0x60 = 0 ↔ b.integer / 2 ^ 301 % 4 = 0 := by
  rw [reservedMask_eq_zero_iff, top_toNat, Nat.div_div_eq_div_mul,
    Radix.two_pow_eq_mul 296 5 301 32 rfl rfl]

/-- The sign bit of an encoding. -/
theorem signBit_eq (b : Bytes fieldBytes) :
    Choice.fromU8Lsb ((b[37] >>> 7) &&& 1) = decide (b.integer / 2 ^ 303 = 1) := by
  rw [signMask_eq, top_toNat, Nat.div_div_eq_div_mul,
    Radix.two_pow_eq_mul 296 7 303 128 rfl rfl]

theorem signBit_lt (b : Bytes fieldBytes) : b.integer / 2 ^ 303 < 2 :=
  b.integer_div_lt 303 1 rfl

/-- Clearing the sign and the reserved bits leaves the low 301 bits. -/
theorem integer_clear_sign (b : Bytes fieldBytes) :
    (b.update 37 (· &&& 0x1f)).integer = b.integer % 2 ^ 301 := by
  rw [integer_update_top, yMask_toNat, top_toNat, Radix.two_pow_eq_mul 296 5 301 32 rfl rfl,
    Nat.mod_mul]

/-- The string with one bit of its number flipped. -/
def flipBit {n : ℕ} (b : Bytes n) (i : ℕ) : Bytes n :=
  ofInteger n (b.integer ^^^ 2 ^ i)

theorem integer_flipBit {n : ℕ} (b : Bytes n) (i : ℕ) (hi : i < 8 * n) :
    (b.flipBit i).integer = b.integer ^^^ 2 ^ i := by
  -- The bit lies within the width, so nothing is cut off.
  have hb := b.integer_lt
  rw [Radix.byte_pow_eq n (8 * n) rfl] at hb
  have hxor := Nat.xor_lt_two_pow hb (Nat.pow_lt_pow_right one_lt_two hi)
  rw [flipBit, integer_ofInteger, Radix.byte_pow_eq n (8 * n) rfl, Nat.mod_eq_of_lt hxor]

/-- Flipping the sign bit leaves the other fields of an encoding alone. -/
theorem flipBit_sign_fields (b : Bytes fieldBytes) :
    (b.flipBit 303).integer % 2 ^ 301 = b.integer % 2 ^ 301 ∧
      (b.flipBit 303).integer / 2 ^ 301 % 4 = b.integer / 2 ^ 301 % 4 ∧
      (b.flipBit 303).integer / 2 ^ 303 = 1 - b.integer / 2 ^ 303 := by
  have hlt := signBit_lt b
  have hmod := Radix.xor_two_pow_mod b.integer 303
  have hdiv := Radix.xor_two_pow_div b.integer 303
  rw [← integer_flipBit b 303 (by decide)] at hmod hdiv
  -- The two lower fields are read off the low 303 bits.
  have hpow : 2 ^ 303 = 2 ^ 301 * 4 := Radix.two_pow_eq_mul 301 2 303 4 rfl rfl
  refine ⟨?_, ?_, ?_⟩
  · have h := congrArg (· % 2 ^ 301) hmod
    simpa only [hpow, Nat.mod_mul_right_mod] using h
  · have h := congrArg (· / 2 ^ 301) hmod
    simpa only [hpow, Nat.mod_mul_right_div_self] using h
  · rw [hdiv]
    generalize b.integer / 2 ^ 303 = s at hlt ⊢
    interval_cases s <;> rfl

/-- Updating the first byte replaces the low bits. -/
theorem integer_update_bottom (b : Bytes fieldBytes) (f : UInt8 → UInt8) :
    (b.update 0 f).integer = b.integer / 256 * 256 + (f b[0]).toNat := by
  have hset : (b.update 0 f).integer + 256 ^ 0 * b[0].toNat
      = b.integer + 256 ^ 0 * (f b[0]).toNat := integer_update b 0 f
  rw [bottom_toNat, pow_zero] at hset
  omega

end Bytes

end Ed301
