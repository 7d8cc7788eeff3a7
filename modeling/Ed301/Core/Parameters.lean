import Mathlib.Data.Nat.Notation

/-!
# Sizes

The sizes the draft fixes. Field elements, points, scalars and seeds all take
38 bytes, and a hash output or a signature takes two of those.

## Main definitions

* `fieldBits`: Bit length of the field modulus.
* `fieldBytes`, `scalarBytes`, `seedBytes`, `publicKeyBytes`: One field
  element's width.
* `signatureBytes`, `hashBytes`: Two field elements' width.
-/

namespace Ed301

/-- Bit length of the prime field modulus. -/
abbrev fieldBits : ℕ := 301

/-- Byte length of field elements, points and scalars. -/
abbrev fieldBytes : ℕ := 38

abbrev scalarBytes : ℕ := fieldBytes

abbrev seedBytes : ℕ := fieldBytes

abbrev publicKeyBytes : ℕ := fieldBytes

/-- Signature length, a point followed by a scalar. -/
abbrev signatureBytes : ℕ := 2 * fieldBytes

/-- Hash output length. -/
abbrev hashBytes : ℕ := 2 * fieldBytes

end Ed301
