import Ed301.Core.Monty
import Ed301.Core.Parameters

/-!
# Scalars

Scalars modulo the prime subgroup order `L`. A `Scalar` is a 320-bit integer,
not a residue: the type does not promise that it is below `L`, each
constructor has to. Only `mul` and the reducers go through the
constant-modulus form; `add` works on the integers directly.

Hash outputs and pruned secrets are longer than a scalar and are reduced word
by word, from the top, by Horner's rule in radix `2 ^ 64`. Both are split into
words by the same copying loop, which leaves a partial top word of four or
six bytes to be filled in.

## Main definitions

* `scalarModulus`: The subgroup order.
* `Scalar`: A 320-bit integer standing for a scalar.
* `Scalar.fromCanonicalBytes`: The strict parser.
* `Scalar.reduceWords`: Horner reduction of a word array.
* `Scalar.reducePrunedLe`: Reduction of a pruned secret.
* `Scalar.reduceHashLe`: Reduction of a hash output.
* `Scalar.writeCanonicalBytes`: The serialiser.
-/

namespace Ed301

open Radix

/-- The ED301 prime subgroup order. -/
def scalarModulus : ℕ :=
  0x00000800000000000000000000000000000000000016dcc80892809847fb4a312602e3a1d0be9603

instance : NeZero scalarModulus := ⟨by decide⟩

/-- A scalar in Montgomery form. -/
abbrev MontgomeryScalar := ConstMontyForm scalarModulus

/-- The word radix as a residue. -/
def radix64 : MontgomeryScalar :=
  ConstMontyForm.new (U320.fromWords #v[0, 1, 0, 0, 0])

/-- An integer standing for a scalar, below the order by construction of
    every value the module returns. -/
@[ext]
structure Scalar where
  integer : U320
deriving DecidableEq

/-- The integer of 38 little-endian bytes. -/
def uintFromLe38 (bytes : Bytes scalarBytes) : U320 :=
  let widened : Bytes 40 := bytes ++ Vector.replicate 2 (0 : UInt8)
  U320.fromLeSlice widened

namespace Scalar

/-- The modulus the parser compares with and `add` reduces by. -/
def modulus : U320 :=
  0x00000800000000000000000000000000000000000016dcc80892809847fb4a312602e3a1d0be9603#320

/-- Decode a canonical scalar, accepting zero. -/
def fromCanonicalBytes (bytes : Bytes scalarBytes) : CtOption Scalar :=
  let integer := uintFromLe38 bytes
  { value := ⟨integer⟩
    isSome := integer.ctLt modulus }

/-- Copy `full` consecutive eight-byte slices into the low words. -/
def fillWords {n : ℕ} (bytes : List UInt8) (full : ℕ) (words : Vector UInt64 n) :
    Vector UInt64 n :=
  (List.range full).foldl
    (fun words index =>
      let offset := index * 8
      words.setIfInBounds index (leWord ((bytes.drop offset).take 8)))
    words

/-- One round of Horner's rule in the word radix. -/
def reduceRound (word : UInt64) (accumulator : MontgomeryScalar) : MontgomeryScalar :=
  let integer := U320.fromU64 word
  let addend := ConstMontyForm.new integer
  let product := accumulator.mul radix64
  product.add addend

/-- Horner's rule, from the last word down to the first. -/
def reduceWords {n : ℕ} (words : Vector UInt64 n) : Scalar :=
  ⟨(words.toList.foldr reduceRound ConstMontyForm.zero).retrieve⟩

/-- Reduce a pruned 38-byte secret modulo `L`. -/
def reducePrunedLe (bytes : Bytes scalarBytes) : Scalar :=
  -- Four full words and one of six bytes, padded by two.
  let words := fillWords bytes.toList 4 (Vector.replicate 5 (0 : UInt64))
  let high := (bytes.toList.drop 32).take 6 ++ List.replicate 2 (0 : UInt8)
  reduceWords (words.set 4 (leWord high))

/-- Reduce a 76-byte hash output modulo `L`. -/
def reduceHashLe (bytes : Bytes hashBytes) : Scalar :=
  -- Nine full words and one of four bytes, padded by four.
  let words := fillWords bytes.toList 9 (Vector.replicate 10 (0 : UInt64))
  let high := (bytes.toList.drop 72).take 4 ++ List.replicate 4 (0 : UInt8)
  reduceWords (words.set 9 (leWord high))

/-- Copy words into the output from `offset` on, the last one in part. -/
def writeWordsFrom (words : Vector UInt64 5) (output : Bytes scalarBytes)
    (wordIndex offset : ℕ) : Bytes scalarBytes :=
  if h : offset < scalarBytes then
    let encoded := Bytes.ofInteger 8 (words[wordIndex]!).toNat
    let remaining := scalarBytes - offset
    let take := if remaining < 8 then remaining else 8
    have hfit : offset + (encoded.toList.take take).length ≤ scalarBytes := by
      rw [List.length_take, Vector.length_toList]
      simp only [take, remaining]
      split_ifs <;> omega
    writeWordsFrom words (output.copyFromSlice offset (encoded.toList.take take) hfit)
      (wordIndex + 1) (offset + take)
  else output
termination_by scalarBytes - offset
decreasing_by
  split_ifs <;> omega

/-- Write the canonical 38-byte little-endian encoding over a buffer. -/
def writeCanonicalBytes (self : Scalar) (output : Bytes scalarBytes) : Bytes scalarBytes :=
  writeWordsFrom self.integer.toWords output 0 0

/-- Add modulo `L`. -/
def add (self rhs : Scalar) : Scalar :=
  ⟨self.integer.addMod rhs.integer modulus⟩

/-- Multiply modulo `L`. -/
def mul (self rhs : Scalar) : Scalar :=
  let left : MontgomeryScalar := ConstMontyForm.new self.integer
  let right : MontgomeryScalar := ConstMontyForm.new rhs.integer
  ⟨(left.mul right).retrieve⟩

/-- Read one bit for the fixed-length multiplier. -/
def bit (self : Scalar) (index : ℕ) : Choice :=
  self.integer.bit index

end Scalar

end Ed301
