import Ed301.Params.Curve

/-!
# The Draft

What the signature scheme is meant to compute, in the terms of the draft:
affine points, multiples of the base point and numbers modulo the order. No
projective coordinate, no fixed-length loop and no word array occurs here, and
nothing here is executed by anything below.

`H` stands for the first 76 bytes of the extendable output. Nothing is assumed
of it.

## Main definitions

* `Draft.pointInteger`, `Draft.enc`: The encoding of points.
* `Draft.Spells`: The grammar of point encodings.
* `Draft.encScalar`: The encoding of scalars.
* `Draft.wire`: The bytes of a signature.
* `Draft.hashInteger`: A hash output modulo the order.
* `Draft.prunedInteger`: The pruned secret of the lower hash half.
* `Draft.publicKey`, `Draft.signature`: Key generation and signing.
* `Draft.Verifies`: The acceptance rule.

## Theorems

* `enc_eq_iff`: The encoding told from its bits.
* `enc_injective`: Different points have different encodings.
* `spells_iff`: The grammar describes exactly the encodings.
-/

namespace Ed301

open Edwards Radix

namespace Draft

section Encodings

/-- Bits 0 to 300 hold `y`, bits 301 and 302 are zero, bit 303 is the parity
    of `x`. -/
def pointInteger (A : Point curve) : ℕ :=
  A.y.val + 2 ^ 303 * (A.x.val % 2)

/-- The encoding of a point. -/
def enc (A : Point curve) : Bytes fieldBytes :=
  Bytes.ofInteger fieldBytes (pointInteger A)

/-- The encoding of a scalar. -/
def encScalar (S : ℕ) : Bytes scalarBytes :=
  Bytes.ofInteger scalarBytes S

/-- A signature's bytes, the encoded commitment followed by the encoded
    response. -/
def wire (R : Point curve) (S : ℕ) : List UInt8 :=
  (enc R).toList ++ (encScalar S).toList

theorem length_wire (R : Point curve) (S : ℕ) : (wire R S).length = 76 := by
  rw [wire, List.length_append, Vector.length_toList, Vector.length_toList]
  rfl

theorem take_wire (R : Point curve) (S : ℕ) : (wire R S).take 38 = (enc R).toList := by
  rw [wire, List.take_append_of_le_length (by rw [Vector.length_toList]),
    List.take_of_length_le (by rw [Vector.length_toList])]

theorem drop_wire (R : Point curve) (S : ℕ) : (wire R S).drop 38 = (encScalar S).toList := by
  rw [wire, List.drop_append_of_le_length (by rw [Vector.length_toList]),
    List.drop_of_length_le (by rw [Vector.length_toList]), List.nil_append]

theorem scalarModulus_lt : scalarModulus < 256 ^ scalarBytes := by
  rw [byte_pow_eq scalarBytes 304 rfl]
  exact scalarModulus_bounds.2.trans (pow_lt_pow_right₀ (by norm_num) (by norm_num))

theorem encScalar_integer (S : ℕ) (h : S < scalarModulus) : (encScalar S).integer = S := by
  rw [encScalar, Bytes.integer_ofInteger, Nat.mod_eq_of_lt (h.trans scalarModulus_lt)]

theorem pointInteger_lt (A : Point curve) : pointInteger A < 256 ^ fieldBytes := by
  have hy := A.y.val_lt
  have hp := fieldModulus_lt
  rw [pointInteger, byte_pow_eq fieldBytes 304 rfl, two_pow_eq_mul 301 3 304 8 rfl rfl,
    two_pow_eq_mul 301 2 303 4 rfl rfl]
  -- The parity bit weighs four times what the second coordinate can reach.
  generalize 2 ^ 301 = c at *
  have hx : A.x.val % 2 < 2 := Nat.mod_lt _ (by norm_num)
  interval_cases A.x.val % 2 <;> omega

theorem enc_integer (A : Point curve) : (enc A).integer = pointInteger A := by
  rw [enc, Bytes.integer_ofInteger, Nat.mod_eq_of_lt (pointInteger_lt A)]

/-- The encoding of a point, told from its three bit fields. -/
theorem enc_eq_iff (b : Bytes fieldBytes) (A : Point curve) :
    b = enc A ↔ b.integer % 2 ^ 301 = A.y.val ∧ b.integer / 2 ^ 301 % 4 = 0 ∧
      b.integer / 2 ^ 303 = A.x.val % 2 := by
  have hy := A.y.val_lt
  have hp := fieldModulus_lt
  have hpos : 0 < 2 ^ 301 := pow_pos two_pos 301
  have hb : b = enc A ↔ b.integer = A.y.val + 2 ^ 303 * (A.x.val % 2) := by
    rw [← pointInteger, ← enc_integer]
    exact ⟨fun h => congrArg Bytes.integer h, Bytes.integer_injective b (enc A)⟩
  rw [hb, two_pow_eq_mul 301 2 303 4 rfl rfl]
  generalize 2 ^ 301 = c at *
  generalize A.x.val % 2 = s
  constructor
  · intro h
    -- With the weight of bit 301 as radix, the coordinate is the remainder and
    -- four times the parity the quotient.
    have hsum : b.integer = A.y.val + c * (4 * s) := by rw [h, Nat.mul_assoc]
    have hdiv : b.integer / c = 4 * s := by
      rw [hsum, Nat.add_mul_div_left _ _ hpos, Nat.div_eq_of_lt (by omega), Nat.zero_add]
    refine ⟨?_, ?_, ?_⟩
    · rw [hsum, Nat.add_mul_mod_self_left, Nat.mod_eq_of_lt (by omega)]
    · rw [hdiv, Nat.mul_mod_right]
    · rw [← Nat.div_div_eq_div_mul, hdiv, Nat.mul_div_cancel_left s (by norm_num)]
  · intro h
    rcases h with ⟨h1, h2, h3⟩
    rw [← Nat.div_div_eq_div_mul] at h3
    -- The two fields above bit 301 make up the quotient.
    have hsplit := Nat.mod_add_div b.integer c
    have hquot : b.integer / c = 4 * s := by omega
    rw [h1, hquot] at hsplit
    rw [← hsplit]
    ring

/-- Different points have different encodings: the second coordinate is in
    the low bits, and parity tells the two roots apart. -/
theorem enc_injective (A B : Point curve) (h : enc A = enc B) : A = B := by
  have hA := (enc_eq_iff (enc A) A).mp rfl
  have hB := (enc_eq_iff (enc A) B).mp h
  have hy : A.y = B.y := ZMod.val_injective _ (hA.1.symm.trans hB.1)
  have hpar : A.x.val % 2 = B.x.val % 2 := hA.2.2.symm.trans hB.2.2
  -- The first coordinates agree up to sign.
  rcases Point.x_eq_or_neg A B hy with hx | hx
  · exact Point.ext hx hy
  · by_cases hzero : B.x = 0
    · rw [hzero, neg_zero] at hx
      exact Point.ext (hx.trans hzero.symm) hy
    · have hflip := val_neg_mod_two B.x hzero
      rw [← hx] at hflip
      omega

/-- The draft's grammar of point encodings: bits 0 to 300 spell the canonical
    `y` of a curve point, bits 301 and 302 are zero and bit 303 is the parity
    of the canonical `x`. -/
structure Spells (b : Bytes fieldBytes) (x y : ℕ) : Prop where
  x_lt : x < fieldModulus
  y_lt : y < fieldModulus
  onCurve : OnCurve curve (x : ZMod fieldModulus) (y : ZMod fieldModulus)
  y_eq : y = b.integer % 2 ^ 301
  reserved_eq : b.integer.testBit 301 = false ∧ b.integer.testBit 302 = false
  sign_eq : x % 2 = (b.integer.testBit 303).toNat

/-- The two reserved bits as a field of the number. -/
theorem reserved_testBit_iff (n : ℕ) :
    (n.testBit 301 = false ∧ n.testBit 302 = false) ↔ n / 2 ^ 301 % 4 = 0 := by
  have hpow : 2 ^ 302 = 2 ^ 301 * 2 := two_pow_eq_mul 301 1 302 2 rfl rfl
  rw [Nat.testBit_eq_decide_div_mod_eq, Nat.testBit_eq_decide_div_mod_eq, decide_eq_false_iff_not,
    decide_eq_false_iff_not, hpow, ← Nat.div_div_eq_div_mul]
  omega

/-- The sign bit is all that is left above the reserved bits. -/
theorem sign_testBit_toNat (b : Bytes fieldBytes) :
    (b.integer.testBit 303).toNat = b.integer / 2 ^ 303 := by
  have hsign : b.integer / 2 ^ 303 < 2 := b.integer_div_lt 303 1 rfl
  rw [Nat.toNat_testBit, Nat.mod_eq_of_lt hsign]

/-- The strings of the grammar are the encodings, read with the coordinates
    of their points. -/
theorem spells_iff (b : Bytes fieldBytes) (x y : ℕ) :
    Spells b x y ↔ ∃ A : Point curve, b = enc A ∧ A.x.val = x ∧ A.y.val = y := by
  constructor
  · intro h
    have hx := ZMod.val_natCast_of_lt h.x_lt
    have hy := ZMod.val_natCast_of_lt h.y_lt
    refine ⟨⟨x, y, h.onCurve⟩, ?_, hx, hy⟩
    rw [enc_eq_iff, hx, hy, ← sign_testBit_toNat]
    exact ⟨h.y_eq.symm, (reserved_testBit_iff _).mp h.reserved_eq, h.sign_eq.symm⟩
  · intro h
    rcases h with ⟨A, hb, rfl, rfl⟩
    rcases (enc_eq_iff b A).mp hb with ⟨hy, hres, hsign⟩
    constructor
    · exact A.x.val_lt
    · exact A.y.val_lt
    · -- The canonical representatives stand for the coordinates.
      rw [ZMod.natCast_zmod_val, ZMod.natCast_zmod_val]
      exact A.onCurve
    · exact hy.symm
    · exact (reserved_testBit_iff _).mpr hres
    · rw [sign_testBit_toNat, hsign]

/-- A string spells one pair of coordinates at most. -/
theorem Spells.unique {b : Bytes fieldBytes} {x y x' y' : ℕ} (h : Spells b x y)
    (h' : Spells b x' y') : x' = x ∧ y' = y := by
  rcases (spells_iff b x y).mp h with ⟨A, hb, rfl, rfl⟩
  rcases (spells_iff b x' y').mp h' with ⟨B, hb', rfl, rfl⟩
  rw [enc_injective A B (hb.symm.trans hb')]
  exact ⟨rfl, rfl⟩

end Encodings

section Scheme

variable (H : List UInt8 → Bytes hashBytes)

/-- A hash output as an integer modulo the order. -/
def hashInteger (bytes : List UInt8) : ℕ :=
  (H bytes).integer % scalarModulus

/-- Clear the two low bits and bits 301 to 303, set bit 300. -/
def prunedInteger (n : ℕ) : ℕ :=
  n % 2 ^ 300 / 4 * 4 + 2 ^ 300

/-- The secret integer `s`, not reduced. -/
def secret (seed : List UInt8) : ℕ :=
  prunedInteger (leInteger ((H seed).toList.take 38))

/-- The second half of the expanded seed. -/
def keyPrefix (seed : List UInt8) : List UInt8 :=
  (H seed).toList.drop 38

/-- The public key `ENC([s]B)`. -/
def publicKey (seed : List UInt8) : Bytes fieldBytes :=
  enc (secret H seed • generator)

/-- The nonce `r`. -/
def nonce (seed message : List UInt8) : ℕ :=
  hashInteger H (keyPrefix H seed ++ message)

/-- The commitment encoding `ENC([r]B)`. -/
def commitment (seed message : List UInt8) : Bytes fieldBytes :=
  enc (nonce H seed message • generator)

/-- The challenge `k` for a commitment encoding, a key encoding and a
    message. -/
def challenge (commitment publicKey message : List UInt8) : ℕ :=
  hashInteger H (commitment ++ publicKey ++ message)

/-- The response `S`. -/
def response (seed message : List UInt8) : ℕ :=
  (nonce H seed message
    + challenge H (commitment H seed message).toList (publicKey H seed).toList message
      * secret H seed) % scalarModulus

/-- The signature. -/
def signature (seed message : List UInt8) : List UInt8 :=
  wire (nonce H seed message • generator) (response H seed message)

/-- A valid public key: the canonical encoding of a nonidentity point of the
    prime-order subgroup. -/
def IsKeyOf (publicKey : List UInt8) (A : Point curve) : Prop :=
  publicKey = (enc A).toList ∧ A ≠ 0 ∧ scalarModulus • A = 0

/-- A key belongs to one point. -/
theorem IsKeyOf.unique {publicKey : List UInt8} {A B : Point curve} (hA : IsKeyOf publicKey A)
    (hB : IsKeyOf publicKey B) : A = B :=
  enc_injective A B (Bytes.toList_injective _ _ (hA.1.symm.trans hB.1))

/-- The acceptance rule. -/
def Verifies (publicKey message signature : List UInt8) : Prop :=
  publicKey.length = 38 ∧ ∃ A : Point curve, IsKeyOf publicKey A ∧
    signature.length = 76 ∧ ∃ R : Point curve, signature.take 38 = (enc R).toList ∧
      leInteger (signature.drop 38) < scalarModulus ∧
      (4 * leInteger (signature.drop 38)) • generator
        = 4 • R + (4 * challenge H (signature.take 38) publicKey message) • A

end Scheme

end Draft

end Ed301
