import Ed301.Theory.Radix

/-!
# Byte Arrays and 320-Bit Integers

The pieces of the integer library the field and scalar modules are written
in: fixed-size byte arrays, constant-time choices and optional values, and the
five-limb unsigned integer `U320`.

A `U320` is its 320 bits. The conversions from and to byte and word arrays
follow the library's little-endian limb order, and the arithmetic wraps. The
only arithmetic operation used directly is `addMod`, and it is kept as the
library computes it, a wide addition followed by a conditional subtraction,
because it is correct only when the sum stays below twice the modulus.

## Main definitions

* `Bytes`: A byte array of known length.
* `Bytes.slice`: The bytes of a subrange, as an array.
* `Bytes.copyFromSlice`: Overwriting a subrange.
* `Bytes.integer`: The number an array denotes.
* `Bytes.ofInteger`: The array of a number.
* `tryInto`: A byte slice as an array, if the length fits.
* `Choice`: A constant-time boolean.
* `CtOption`: A value with a constant-time presence flag.
* `U320`: A 320-bit unsigned integer.
* `U320.addMod`: Modular addition of reduced integers.
-/

namespace Ed301

open Radix

/-- The array type `[u8; n]`. -/
abbrev Bytes (n : ℕ) := Vector UInt8 n

namespace Bytes

/-- An array from a list of the right length. -/
def ofList {n : ℕ} (l : List UInt8) (h : l.length = n) : Bytes n :=
  ⟨l.toArray, by simpa using h⟩

@[simp] theorem toList_ofList {n : ℕ} (l : List UInt8) (h : l.length = n) :
    (ofList l h).toList = l := rfl

theorem toList_injective {n : ℕ} (a b : Bytes n) (h : a.toList = b.toList) : a = b :=
  Vector.toList_inj.mp h

/-- The subrange `bytes[start..start + len]` copied into an array. -/
def slice {n : ℕ} (bytes : Bytes n) (start len : ℕ) (h : start + len ≤ n) : Bytes len :=
  ofList ((bytes.toList.drop start).take len) (by
    rw [List.length_take, List.length_drop, Vector.length_toList]
    omega)

@[simp] theorem toList_slice {n : ℕ} (bytes : Bytes n) (start len : ℕ) (h : start + len ≤ n) :
    (bytes.slice start len h).toList = (bytes.toList.drop start).take len := rfl

/-- `bytes[offset..offset + src.len()].copy_from_slice(src)`. -/
def copyFromSlice {n : ℕ} (bytes : Bytes n) (offset : ℕ) (src : List UInt8)
    (h : offset + src.length ≤ n) : Bytes n :=
  ofList (bytes.toList.take offset ++ src ++ bytes.toList.drop (offset + src.length)) (by
    rw [List.length_append, List.length_append, List.length_take, List.length_drop,
      Vector.length_toList]
    omega)

@[simp] theorem toList_copyFromSlice {n : ℕ} (bytes : Bytes n) (offset : ℕ) (src : List UInt8)
    (h : offset + src.length ≤ n) :
    (bytes.copyFromSlice offset src h).toList
      = bytes.toList.take offset ++ src ++ bytes.toList.drop (offset + src.length) := rfl

/-- A compound assignment to one byte, such as `bytes[i] &= mask`. -/
def update {n : ℕ} (bytes : Bytes n) (i : Fin n) (f : UInt8 → UInt8) : Bytes n :=
  bytes.set i (f bytes[i])

theorem toList_update {n : ℕ} (bytes : Bytes n) (i : Fin n) (f : UInt8 → UInt8) :
    (bytes.update i f).toList = bytes.toList.set i (f bytes[i]) :=
  Vector.toList_set i.isLt

/-- The number a byte array denotes. -/
def integer {n : ℕ} (bytes : Bytes n) : ℕ :=
  leInteger bytes.toList

/-- The first `n` little-endian bytes of a number, as an array. -/
def ofInteger (n k : ℕ) : Bytes n :=
  ofList (leBytes n k) (length_leBytes n k)

theorem integer_lt {n : ℕ} (bytes : Bytes n) : bytes.integer < 256 ^ n := by
  have h := leInteger_lt bytes.toList
  rwa [Vector.length_toList] at h

/-- The bits of the number from a position on, counted. -/
theorem integer_div_lt {n : ℕ} (bytes : Bytes n) (i j : ℕ) (h : i + j = 8 * n) :
    bytes.integer / 2 ^ i < 2 ^ j := by
  have hlt := bytes.integer_lt
  rw [byte_pow_eq n (i + j) h, pow_add] at hlt
  exact Nat.div_lt_of_lt_mul hlt

/-- A byte read off the number. -/
theorem getElem_toNat {n : ℕ} (bytes : Bytes n) (i : ℕ) (h : i < n) :
    bytes[i].toNat = bytes.integer / 256 ^ i % 256 := by
  have hget := Radix.getElem_toNat bytes.toList i (by rwa [Vector.length_toList])
  rwa [Vector.getElem_toList] at hget

/-- Updating a byte trades the weight of the old one for that of the new. -/
theorem integer_update {n : ℕ} (bytes : Bytes n) (i : Fin n) (f : UInt8 → UInt8) :
    (bytes.update i f).integer + 256 ^ (i : ℕ) * bytes[i].toNat
      = bytes.integer + 256 ^ (i : ℕ) * (f bytes[i]).toNat := by
  have hset := leInteger_set bytes.toList i (f bytes[i])
    (by rw [Vector.length_toList]; exact i.isLt)
  rwa [← toList_update, Vector.getElem_toList] at hset

theorem integer_ofInteger (n k : ℕ) : (ofInteger n k).integer = k % 256 ^ n :=
  leInteger_leBytes n k

theorem ofInteger_integer {n : ℕ} (bytes : Bytes n) : ofInteger n bytes.integer = bytes := by
  refine toList_injective _ _ ?_
  have h := leBytes_leInteger bytes.toList
  rwa [Vector.length_toList] at h

theorem integer_injective {n : ℕ} (a b : Bytes n) (h : a.integer = b.integer) : a = b := by
  rw [← ofInteger_integer a, ← ofInteger_integer b, h]

end Bytes

/-- `<&[u8; n]>::try_from(slice)`. -/
def tryInto (n : ℕ) (slice : List UInt8) : Option (Bytes n) :=
  if h : slice.length = n then some (Bytes.ofList slice h) else none

theorem tryInto_eq_some_iff (n : ℕ) (slice : List UInt8) (bytes : Bytes n) :
    tryInto n slice = some bytes ↔ slice = bytes.toList := by
  rw [tryInto]
  constructor
  · intro h
    split_ifs at h with hlen
    rw [← Option.some.inj h, Bytes.toList_ofList]
  · intro h
    subst h
    rw [dif_pos (by rw [Vector.length_toList])]
    rfl

/-- A constant-time boolean. -/
abbrev Choice := Bool

namespace Choice

/-- The least significant bit of a byte. -/
def fromU8Lsb (value : UInt8) : Choice :=
  decide (value &&& 1 ≠ 0)

def toU8 (c : Choice) : UInt8 :=
  if c then 1 else 0

theorem fromU8Lsb_iff (value : UInt8) : fromU8Lsb value = true ↔ value.toNat % 2 = 1 := by
  rw [fromU8Lsb, decide_eq_true_eq, ne_eq, ← UInt8.toNat_inj, UInt8.toNat_and]
  change ¬ value.toNat &&& 1 = 0 ↔ _
  rw [Nat.and_one_is_mod]
  omega

theorem fromU8Lsb_eq_testBit (value : UInt8) : fromU8Lsb value = value.toNat.testBit 0 := by
  rw [Bool.eq_iff_iff, fromU8Lsb_iff, Nat.testBit_zero, decide_eq_true_eq]

end Choice

/-- A value with a flag that says whether it is present. -/
structure CtOption (α : Type) where
  value : α
  isSome : Choice

namespace CtOption

variable {α β : Type}

def intoOptionCopied (o : CtOption α) : Option α :=
  if o.isSome then some o.value else none

def toInnerUnchecked (o : CtOption α) : α :=
  o.value

def map (o : CtOption α) (f : α → β) : CtOption β :=
  { value := f o.value
    isSome := o.isSome }

theorem intoOptionCopied_of_isSome (o : CtOption α) (h : o.isSome = true) :
    o.intoOptionCopied = some o.value := by
  rw [intoOptionCopied, if_pos h]

theorem intoOptionCopied_of_not_isSome (o : CtOption α) (h : ¬ o.isSome = true) :
    o.intoOptionCopied = none := by
  rw [intoOptionCopied, if_neg h]

theorem intoOptionCopied_eq_some_iff (o : CtOption α) (v : α) :
    o.intoOptionCopied = some v ↔ o.isSome = true ∧ v = o.value := by
  unfold intoOptionCopied
  cases o.isSome <;> simp [eq_comm]

end CtOption

/-- A 320-bit unsigned integer, five 64-bit limbs. -/
abbrev U320 := BitVec 320

namespace U320

/-- The integer of 40 little-endian bytes. -/
def fromLeSlice (bytes : Bytes 40) : U320 :=
  BitVec.ofNat 320 bytes.integer

def toLeBytes (u : U320) : Bytes 40 :=
  Bytes.ofInteger 40 u.toNat

def fromU64 (word : UInt64) : U320 :=
  BitVec.ofNat 320 word.toNat

/-- The integer of five little-endian words. -/
def fromWords (words : Vector UInt64 5) : U320 :=
  BitVec.ofNat 320 (wordsInteger words.toList)

def toWords (u : U320) : Vector UInt64 5 :=
  Vector.ofFn fun i => UInt64.ofNat (u.toNat / (2 ^ 64) ^ i.val)

def ctLt (a b : U320) : Choice :=
  decide (a.toNat < b.toNat)

def bit (u : U320) (index : ℕ) : Choice :=
  u.toNat.testBit index

/-- Wrapping addition with its carry. -/
def carryingAdd (a b : U320) : U320 × Choice :=
  (a + b, decide (2 ^ 320 ≤ a.toNat + b.toNat))

/-- Wrapping subtraction with its borrow. -/
def borrowingSub (a b : U320) : U320 × Choice :=
  (a - b, decide (a.toNat < b.toNat))

/-- Subtract once, unless that borrows and there is no carry to borrow
    from. -/
def trySubWithCarry (w : U320) (carry : Choice) (rhs : U320) : U320 :=
  let (out, borrow) := borrowingSub w rhs
  let revert := borrow && !carry
  if revert then w else out

/-- `self + rhs mod p`, assuming that the sum is below `2 p`. -/
def addMod (a b p : U320) : U320 :=
  let (w, carry) := carryingAdd a b
  trySubWithCarry w carry p

/-- A word fits. -/
theorem fromU64_toNat (word : UInt64) : (fromU64 word).toNat = word.toNat := by
  have hlt : word.toNat < 2 ^ (64 + 256) :=
    Nat.lt_of_lt_of_le word.toNat_lt (pow_le_pow_right₀ (by decide) (Nat.le_add_right 64 256))
  rw [fromU64, BitVec.toNat_ofNat, Nat.mod_eq_of_lt hlt]

/-- Widening a 38-byte string by two zero bytes keeps its number, which then
    fits. -/
theorem fromLeSlice_widened (bytes : Bytes 38) :
    (fromLeSlice (bytes ++ Vector.replicate 2 (0 : UInt8))).toNat = bytes.integer := by
  have hint : Bytes.integer (bytes ++ Vector.replicate 2 (0 : UInt8)) = bytes.integer := by
    rw [Bytes.integer, Vector.toList_append, Vector.toList_replicate, leInteger_append_zeros,
      Bytes.integer]
  have hlt := bytes.integer_lt
  have hle : 256 ^ 38 ≤ 2 ^ 320 := by
    rw [byte_pow_eq 38 304 rfl]
    exact pow_le_pow_right₀ (by norm_num) (by norm_num)
  rw [fromLeSlice, BitVec.toNat_ofNat, hint, Nat.mod_eq_of_lt (hlt.trans_le hle)]

/-- Under its assumption the addition is exact. -/
theorem addMod_toNat (a b p : U320) (h : a.toNat + b.toNat < 2 * p.toNat) :
    (addMod a b p).toNat = (a.toNat + b.toNat) % p.toNat := by
  have ha := a.isLt
  have hb := b.isLt
  have hp := p.isLt
  simp only [addMod, carryingAdd, trySubWithCarry, borrowingSub]
  by_cases hc : 2 ^ 320 ≤ a.toNat + b.toNat
  · -- The sum wrapped: the subtraction borrows from the carry.
    have hw : (a + b).toNat = a.toNat + b.toNat - 2 ^ 320 := by
      rw [BitVec.toNat_add]
      omega
    simp only [hc, decide_true, Bool.not_true, Bool.and_false, Bool.false_eq_true, if_false]
    rw [BitVec.toNat_sub, hw, Nat.mod_eq_sub_mod (by omega : p.toNat ≤ a.toNat + b.toNat),
      Nat.mod_eq_of_lt (by omega : a.toNat + b.toNat - p.toNat < p.toNat)]
    omega
  · have hw : (a + b).toNat = a.toNat + b.toNat := by
      rw [BitVec.toNat_add]
      omega
    simp only [hc, decide_false, Bool.not_false, Bool.and_true, hw, decide_eq_true_eq]
    by_cases hlt : a.toNat + b.toNat < p.toNat
    · rw [if_pos hlt, hw, Nat.mod_eq_of_lt hlt]
    · rw [if_neg hlt, BitVec.toNat_sub, hw,
        Nat.mod_eq_sub_mod (by omega : p.toNat ≤ a.toNat + b.toNat),
        Nat.mod_eq_of_lt (by omega : a.toNat + b.toNat - p.toNat < p.toNat)]
      omega

end U320

end Ed301
