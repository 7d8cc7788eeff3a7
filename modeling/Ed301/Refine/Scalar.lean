import Ed301.Core.Scalar
import Ed301.Refine.Bytes
import Ed301.Params.Curve

/-!
# Scalars as Residues

What the scalar module computes, in natural numbers modulo the order. The
parser accepts exactly the strings below the order, the serialiser writes the
integer in 38 bytes, addition and multiplication are exact as long as their
arguments are below the order, and the two reducers compute the remainder of
the whole string.

The reducers share their shape, a loop copying full words, a partial word put
on top and Horner's rule over the result. The first two are settled for any
number of words and any length of the partial one, and so is the third.

The serialiser is the one loop whose last round is partial. Its invariant is
that the bytes up to the offset are those of the integer.

## Main definitions

* `Scalar.value`: The integer a scalar stands for.
* `Scalar.Canonical`: The integer is below the order.

## Theorems

* `fromCanonicalBytes_isSome_iff`: Parsing accepts exactly the strings below
  the order.
* `reduceWords_value`: Horner's rule computes the remainder.
* `reduceHashLe_value`, `reducePrunedLe_value`: The reducers compute the
  remainder of the whole string.
* `writeCanonicalBytes_eq`: Serialising writes the integer.
* `add_value`, `mul_value`: Arithmetic modulo the order.
-/

namespace Ed301

open Radix

namespace Scalar

/-- The integer a scalar stands for. -/
abbrev value (self : Scalar) : ℕ :=
  self.integer.toNat

/-- The integer is below the order. -/
def Canonical (self : Scalar) : Prop :=
  self.value < scalarModulus

theorem value_injective (a b : Scalar) (h : a.value = b.value) : a = b := by
  ext1
  exact BitVec.eq_of_toNat_eq h

/-- A scalar below the order fits the multiplication loop. -/
theorem Canonical.lt_fieldBits {self : Scalar} (h : self.Canonical) :
    self.value < 2 ^ fieldBits :=
  Nat.lt_trans h scalarModulus_lt_fieldBits

/-- Whatever is computed modulo the order is below it. -/
theorem canonical_of_value_eq_mod (self : Scalar) (n : ℕ) (h : self.value = n % scalarModulus) :
    self.Canonical := by
  rw [Canonical, h]
  exact Nat.mod_lt n (Nat.pos_of_neZero scalarModulus)

theorem modulus_toNat : modulus.toNat = scalarModulus := by decide +kernel

theorem fromCanonicalBytes_value (bytes : Bytes scalarBytes) :
    (fromCanonicalBytes bytes).value.value = bytes.integer :=
  U320.fromLeSlice_widened bytes

/-- Parsing accepts exactly the strings below the order. -/
theorem fromCanonicalBytes_isSome_iff (bytes : Bytes scalarBytes) :
    (fromCanonicalBytes bytes).isSome = true ↔ bytes.integer < scalarModulus := by
  have hvalue := U320.fromLeSlice_widened bytes
  simp only [fromCanonicalBytes, uintFromLe38, U320.ctLt, decide_eq_true_eq, modulus_toNat]
  rw [hvalue]

section Reduction

theorem radix64_toZMod : radix64.toZMod = ((2 ^ 64 : ℕ) : ZMod scalarModulus) := by
  have hval : (U320.fromWords #v[0, 1, 0, 0, 0]).toNat = 2 ^ 64 := by decide +kernel
  rw [← hval]
  exact ConstMontyForm.toRing_new ConstMontyForm.cast_self _

/-- A round shifts the accumulator by a word and adds the next one. -/
theorem reduceRound_toZMod (word : UInt64) (acc : MontgomeryScalar) :
    (reduceRound word acc).toZMod = word.toNat + (2 ^ 64 : ℕ) * acc.toZMod := by
  have hradix := radix64_toZMod
  simp only [reduceRound, ConstMontyForm.toZMod] at hradix ⊢
  rw [ConstMontyForm.toRing_add ConstMontyForm.cast_self,
    ConstMontyForm.toRing_mul ConstMontyForm.cast_self, hradix,
    ConstMontyForm.toRing_new ConstMontyForm.cast_self, U320.fromU64_toNat, mul_comm, add_comm]

/-- The rounds over a string of words leave the residue of its number. -/
theorem foldr_reduceRound_toZMod (words : List UInt64) :
    (words.foldr reduceRound ConstMontyForm.zero).toZMod
      = (wordsInteger words : ZMod scalarModulus) := by
  induction words with
  | nil =>
      rw [List.foldr_nil, ConstMontyForm.toZMod,
        ConstMontyForm.toRing_zero ConstMontyForm.cast_self]
      exact Nat.cast_zero.symm
  | cons word words ih =>
      rw [List.foldr_cons, reduceRound_toZMod, ih, wordsInteger_cons, Nat.cast_add, Nat.cast_mul]

theorem retrieve_value (a : MontgomeryScalar) : (Scalar.mk a.retrieve).value = a.toZMod.val := by
  rw [ConstMontyForm.toZMod_val]
  exact ConstMontyForm.retrieve_toNat a modulus modulus_toNat

/-- Horner's rule computes the remainder of the number the words spell. -/
theorem reduceWords_value {n : ℕ} (words : Vector UInt64 n) :
    (reduceWords words).value = wordsInteger words.toList % scalarModulus := by
  rw [reduceWords, retrieve_value, foldr_reduceRound_toZMod, ZMod.val_natCast]

/-- The words spelled by the first `full` groups of eight bytes. -/
def fullWords (bytes : List UInt8) (full : ℕ) : List UInt64 :=
  (List.range full).map fun index => leWord ((bytes.drop (index * 8)).take 8)

theorem length_fullWords (bytes : List UInt8) (full : ℕ) :
    (fullWords bytes full).length = full := by
  rw [fullWords, List.length_map, List.length_range]

theorem fullWords_succ (bytes : List UInt8) (full : ℕ) :
    fullWords bytes (full + 1)
      = fullWords bytes full ++ [leWord ((bytes.drop (full * 8)).take 8)] := by
  rw [fullWords, List.range_succ, List.map_append, List.map_singleton, fullWords]

/-- The copying loop writes the full words and leaves the others alone. -/
theorem toList_fillWords {n : ℕ} (bytes : List UInt8) (words : Vector UInt64 n) :
    ∀ full : ℕ, full ≤ n →
      (fillWords bytes full words).toList = fullWords bytes full ++ words.toList.drop full := by
  intro full
  induction full with
  | zero =>
      intro _
      rfl
  | succ full ih =>
      intro h
      have hlt : full < words.toList.length := by rwa [Vector.length_toList]
      -- The last round overwrites the first of the words left alone so far.
      have hstep : fillWords bytes (full + 1) words
          = (fillWords bytes full words).setIfInBounds full
              (leWord ((bytes.drop (full * 8)).take 8)) := by
        rw [fillWords, List.range_succ, List.foldl_append, List.foldl_cons, List.foldl_nil,
          fillWords]
      rw [hstep, Vector.toList_setIfInBounds, ih (Nat.le_of_succ_le h),
        List.set_append_right _ _ (by rw [length_fullWords]), length_fullWords, Nat.sub_self,
        List.drop_eq_getElem_cons hlt, List.set_cons_zero, fullWords_succ, List.append_assoc,
        List.singleton_append]

/-- Full words spell the bytes they were read from. -/
theorem wordsInteger_fullWords (bytes : List UInt8) :
    ∀ full : ℕ, full * 8 ≤ bytes.length →
      wordsInteger (fullWords bytes full) = leInteger (bytes.take (full * 8)) := by
  intro full
  induction full with
  | zero =>
      intro _
      rfl
  | succ full ih =>
      intro h
      -- One more word is eight more bytes on top.
      have hlen : full * 8 ≤ bytes.length := by omega
      have hword : (leWord ((bytes.drop (full * 8)).take 8)).toNat
          = leInteger ((bytes.drop (full * 8)).take 8) :=
        leWord_toNat _ (List.length_take_le _ _)
      have hradix : (2 ^ 64) ^ full = 256 ^ (full * 8) := by
        rw [mul_comm, pow_mul]
        norm_num
      rw [fullWords_succ, wordsInteger_append, wordsInteger_singleton, length_fullWords, ih hlen,
        hword, hradix, Nat.succ_mul, List.take_add, leInteger_append, List.length_take,
        Nat.min_eq_left hlen]

/-- Full words with a padded partial word on top spell the whole string. -/
theorem wordsInteger_split (bytes : List UInt8) (full part pad : ℕ)
    (hlen : bytes.length = full * 8 + part) (hpad : part + pad = 8) :
    wordsInteger ((fillWords bytes full (Vector.replicate (full + 1) (0 : UInt64))).set full
        (leWord ((bytes.drop (full * 8)).take part ++ List.replicate pad (0 : UInt8)))).toList
      = leInteger bytes := by
  -- The partial word holds everything above the full words, and its padding
  -- does not count.
  have hdrop : (bytes.drop (full * 8)).take part = bytes.drop (full * 8) :=
    List.take_of_length_le (by rw [List.length_drop]; omega)
  have htop : (leWord (bytes.drop (full * 8) ++ List.replicate pad (0 : UInt8))).toNat
      = leInteger (bytes.drop (full * 8)) := by
    rw [leWord_toNat, leInteger_append_zeros]
    rw [List.length_append, List.length_drop, List.length_replicate]
    omega
  have hradix : (2 ^ 64) ^ full = 256 ^ (full * 8) := by
    rw [mul_comm, pow_mul]
    norm_num
  -- The array has exactly one word beyond the full ones.
  have hone : (List.replicate (full + 1) (0 : UInt64)).drop full = [0] := by
    rw [List.drop_replicate, Nat.add_sub_cancel_left, List.replicate_one]
  rw [Vector.toList_set, toList_fillWords bytes _ full (Nat.le_succ full), Vector.toList_replicate,
    hone, List.set_append_right _ _ (by rw [length_fullWords]), length_fullWords, Nat.sub_self,
    List.set_cons_zero, wordsInteger_append, wordsInteger_singleton, length_fullWords,
    wordsInteger_fullWords bytes full (by omega), hdrop, htop, hradix]
  exact (leInteger_take_drop bytes (full * 8) (by omega)).symm

/-- The pruned secret is reduced as a whole. -/
theorem reducePrunedLe_value (bytes : Bytes scalarBytes) :
    (reducePrunedLe bytes).value = bytes.integer % scalarModulus := by
  rw [reducePrunedLe, reduceWords_value]
  have hsplit := wordsInteger_split bytes.toList 4 6 2 (by rw [Vector.length_toList]) rfl
  rw [Bytes.integer, ← hsplit]

/-- All bits of a hash output are reduced. -/
theorem reduceHashLe_value (bytes : Bytes hashBytes) :
    (reduceHashLe bytes).value = bytes.integer % scalarModulus := by
  rw [reduceHashLe, reduceWords_value]
  have hsplit := wordsInteger_split bytes.toList 9 4 4 (by rw [Vector.length_toList]; rfl) rfl
  rw [Bytes.integer, ← hsplit]

theorem reduceWords_canonical {n : ℕ} (words : Vector UInt64 n) : (reduceWords words).Canonical :=
  canonical_of_value_eq_mod _ _ (reduceWords_value words)

theorem reducePrunedLe_canonical (bytes : Bytes scalarBytes) :
    (reducePrunedLe bytes).Canonical :=
  canonical_of_value_eq_mod _ _ (reducePrunedLe_value bytes)

theorem reduceHashLe_canonical (bytes : Bytes hashBytes) : (reduceHashLe bytes).Canonical :=
  canonical_of_value_eq_mod _ _ (reduceHashLe_value bytes)

end Reduction

section Serialising

theorem toWords_toNat (u : U320) (i : ℕ) (h : i < 5) :
    (u.toWords[i]).toNat = u.toNat / (2 ^ 64) ^ i % 2 ^ 64 := by
  rw [U320.toWords, Vector.getElem_ofFn, UInt64.toNat_ofNat']

/-- The first bytes of a word are those of the integer from the word's
    position on. -/
theorem take_word_bytes (u : U320) (wordIndex n : ℕ) (hw : wordIndex < 5) (hn : n ≤ 8) :
    (Bytes.ofInteger 8 (u.toWords[wordIndex]!).toNat).toList.take n
      = leBytes n (u.toNat / 256 ^ (8 * wordIndex)) := by
  -- A word is eight bytes, so the word's remainder cuts nothing off the bytes
  -- taken.
  have hradix : (2 ^ 64) ^ wordIndex = 256 ^ (8 * wordIndex) := by
    rw [pow_mul]
    norm_num
  have hcap : 2 ^ 64 = 256 ^ 8 := by norm_num
  rw [getElem!_pos u.toWords wordIndex hw, toWords_toNat u wordIndex hw, Bytes.ofInteger,
    Bytes.toList_ofList, take_leBytes n 8 _ hn, hradix, hcap, leBytes_mod 8 n _ hn]

/-- The serialising loop, started where the bytes so far are those of the
    integer, ends with all of them. The offset is a multiple of eight until
    the partial word has been written. -/
theorem toList_writeWordsFrom (u : U320) :
    ∀ (m : ℕ) (output : Bytes scalarBytes) (wordIndex offset : ℕ), 38 - offset ≤ m →
      offset ≤ 38 → (offset < 38 → offset = 8 * wordIndex) →
      output.toList.take offset = leBytes offset u.toNat →
      (writeWordsFrom u.toWords output wordIndex offset).toList = leBytes 38 u.toNat := by
  -- By induction on a bound for the bytes still to be written.
  intro m
  induction m with
  | zero =>
      intro output wordIndex offset hm hle _ htake
      have hoff : offset = 38 := by omega
      rw [writeWordsFrom, dif_neg (by rw [hoff]; decide)]
      rw [hoff, List.take_of_length_le (by rw [Vector.length_toList])] at htake
      exact htake
  | succ m ih =>
      intro output wordIndex offset hm hle haligned htake
      by_cases hlt : offset < scalarBytes
      · have hlt38 : offset < 38 := hlt
        have hword := haligned hlt38
        rw [writeWordsFrom, dif_pos hlt]
        -- A full word, or what is missing when fewer than eight bytes are.
        have htk : (if scalarBytes - offset < 8 then scalarBytes - offset else 8)
            = min (38 - offset) 8 := by
          change (if 38 - offset < 8 then 38 - offset else 8) = min (38 - offset) 8
          split_ifs <;> omega
        have hbytes := take_word_bytes u wordIndex (min (38 - offset) 8) (by omega) (by omega)
        refine ih _ _ _ (by omega) (by omega) (by omega) ?_
        -- The word just copied continues the bytes written before.
        rw [Bytes.toList_copyFromSlice, htake, htk, hbytes, ← hword, ← leBytes_append,
          List.take_append_of_le_length (by rw [length_leBytes]),
          List.take_of_length_le (by rw [length_leBytes])]
      · have hoff : offset = 38 := Nat.le_antisymm hle (Nat.le_of_not_lt hlt)
        rw [writeWordsFrom, dif_neg hlt]
        rw [hoff, List.take_of_length_le (by rw [Vector.length_toList])] at htake
        exact htake

/-- Serialising writes the integer, whatever the buffer held. -/
theorem writeCanonicalBytes_eq (self : Scalar) (output : Bytes scalarBytes) :
    self.writeCanonicalBytes output = Bytes.ofInteger scalarBytes self.value := by
  refine Bytes.toList_injective _ _ ?_
  exact toList_writeWordsFrom self.integer 38 output 0 0 (by omega) (by omega) (fun _ => rfl) rfl

end Serialising

section Arithmetic

theorem add_value (a b : Scalar) (ha : a.Canonical) (hb : b.Canonical) :
    (a.add b).value = (a.value + b.value) % scalarModulus := by
  rw [Canonical] at ha hb
  -- Two reduced summands meet the assumption of the modular addition.
  have hsum : a.value + b.value < 2 * modulus.toNat := by
    rw [modulus_toNat]
    omega
  rw [← modulus_toNat]
  exact U320.addMod_toNat a.integer b.integer modulus hsum

theorem mul_value (a b : Scalar) : (a.mul b).value = a.value * b.value % scalarModulus := by
  rw [mul, retrieve_value, ConstMontyForm.toZMod,
    ConstMontyForm.toRing_mul ConstMontyForm.cast_self,
    ConstMontyForm.toRing_new ConstMontyForm.cast_self,
    ConstMontyForm.toRing_new ConstMontyForm.cast_self, ← Nat.cast_mul, ZMod.val_natCast]

theorem add_canonical (a b : Scalar) (ha : a.Canonical) (hb : b.Canonical) :
    (a.add b).Canonical :=
  canonical_of_value_eq_mod _ _ (add_value a b ha hb)

theorem mul_canonical (a b : Scalar) : (a.mul b).Canonical :=
  canonical_of_value_eq_mod _ _ (mul_value a b)

end Arithmetic

end Scalar

end Ed301
