import Ed301.Results.Points

/-!
# The Point Codec

What a caller may rely on when points become bytes and bytes become points.
The decoder accepts the strings of the draft's grammar and no others, and
re-encoding what it returns restores the input. The encoder is a complete
invariant: two valid points have the same encoding exactly when the code's own
comparison holds them equal, whatever their scaling. And the sign bit is
negation, except at the two points with a vanishing first coordinate, where
there is nothing to negate and the other sign is refused.

## Theorems

* `decode_accepts_grammar`: The decoder accepts exactly the grammar.
* `encode_complete_invariant`: Encoding decides equality and is inverted by
  decoding.
* `sign_bit_is_negation`: Flipping the sign bit negates.
-/

namespace Ed301

open Edwards Draft

namespace EdwardsPoint

/-- What the decoder returns encodes to what it was given. -/
theorem decode_ok_encode (b : Bytes fieldBytes) (P : EdwardsPoint) (h : decode b = .ok P) :
    P.encode = .ok b := by
  rcases (decode_eq_ok_iff b P).mp h with ⟨A, rfl, rfl⟩
  exact encode_of_denotes _ A (ofPoint_denotes A)

/-- The decoder accepts exactly the strings of the draft's grammar. What it
    returns is the one point they spell, and that point encodes to the input.
    Reserved bits, a second coordinate out of range, a nonsquare and a negative
    zero are refused, and nothing else is; the quotient to be square never has
    a vanishing denominator. -/
theorem decode_accepts_grammar (b : Bytes fieldBytes) :
    ((∃ P, decode b = .ok P) ↔ ∃ x y : ℕ, Spells b x y) ∧
    (∀ P, decode b = .ok P → ∃ x y : ℕ, Spells b x y ∧
      (∀ x' y' : ℕ, Spells b x' y' → x' = x ∧ y' = y) ∧
      P.affine = ((x : ZMod fieldModulus), (y : ZMod fieldModulus)) ∧
      P.encode = .ok b) ∧
    ((∃ e, decode b = .error e) ↔
      (b.integer.testBit 301 = true ∨ b.integer.testBit 302 = true) ∨
      fieldModulus ≤ b.integer % 2 ^ 301 ∨
      ¬ IsSquare (xSquare (b.integer % 2 ^ 301 : ℕ)) ∨
      (xSquare (b.integer % 2 ^ 301 : ℕ) = 0 ∧ b.integer.testBit 303 = true)) ∧
    curve.a - curve.d * ((b.integer % 2 ^ 301 : ℕ) : ZMod fieldModulus) ^ 2 ≠ 0 := by
  refine ⟨?_, ?_, ?_, a_sub_d_sq_ne_zero curve _⟩
  · constructor
    · intro h
      rcases h with ⟨P, hP⟩
      rcases (decode_eq_ok_iff b P).mp hP with ⟨A, hb, _⟩
      exact ⟨A.x.val, A.y.val, (spells_iff b _ _).mpr ⟨A, hb, rfl, rfl⟩⟩
    · intro h
      rcases h with ⟨x, y, hxy⟩
      rcases (spells_iff b x y).mp hxy with ⟨A, rfl, _, _⟩
      exact ⟨ofPoint A, decode_enc A⟩
  · intro P hP
    rcases (decode_eq_ok_iff b P).mp hP with ⟨A, hb, hofPoint⟩
    have hspells : Spells b A.x.val A.y.val := (spells_iff b _ _).mpr ⟨A, hb, rfl, rfl⟩
    refine ⟨A.x.val, A.y.val, hspells, ?_, ?_, decode_ok_encode b P hP⟩
    · intro x' y' h'
      exact hspells.unique h'
    · rw [hofPoint, affine_of_denotes _ A (ofPoint_denotes A), ZMod.natCast_zmod_val,
        ZMod.natCast_zmod_val]
  · -- The four reasons, with the bit fields read as bits.
    have hres : b.integer / 2 ^ 301 % 4 ≠ 0 ↔
        b.integer.testBit 301 = true ∨ b.integer.testBit 302 = true := by
      rw [ne_eq, ← reserved_testBit_iff, not_and_or, Bool.not_eq_false, Bool.not_eq_false]
    have hsign : b.integer / 2 ^ 303 = 1 ↔ b.integer.testBit 303 = true := by
      rw [← sign_testBit_toNat]
      cases b.integer.testBit 303 <;> simp
    rw [decode_eq_error_iff, hres, hsign]

/-- The grammar at the base point's encoding. -/
theorem decode_accepts_grammar_generator :
    (∃ P, decode (enc generator) = .ok P) ∧
      (ofPoint generator).encode = .ok (enc generator) := by
  have h := decode_accepts_grammar (enc generator)
  have hspells := (spells_iff (enc generator) _ _).mpr ⟨generator, rfl, rfl, rfl⟩
  rcases h.2.1 (ofPoint generator) (decode_enc generator) with ⟨_, _, _, _, _, hencode⟩
  exact ⟨h.1.mpr ⟨_, _, hspells⟩, hencode⟩

/-- Encoding a valid point succeeds in any scaling, clears the reserved bits
    and is undone by decoding, which gives a point with the same affine
    coordinates; and it tells apart exactly the points that the comparison
    tells apart. -/
theorem encode_complete_invariant (P Q : EdwardsPoint) (hP : Valid curve P.coords)
    (hQ : Valid curve Q.coords) :
    (∃ b, P.encode = .ok b ∧
      (∃ R, decode b = .ok R ∧ R.Denotes hP.toPoint ∧ R.affine = P.affine ∧ R.ctEq P = true) ∧
      b.integer.testBit 301 = false ∧ b.integer.testBit 302 = false) ∧
    (P.encode = Q.encode ↔ P.ctEq Q = true) := by
  have hA : P.Denotes hP.toPoint := hP.represents
  have hB : Q.Denotes hQ.toPoint := hQ.represents
  generalize hP.toPoint = A at hA ⊢
  generalize hQ.toPoint = B at hB
  have hencodeP := encode_of_denotes P A hA
  have hencodeQ := encode_of_denotes Q B hB
  constructor
  · -- What comes back is the affine point itself, whatever the scaling was.
    have hR := ofPoint_denotes A
    refine ⟨enc A, hencodeP, ⟨ofPoint A, decode_enc A, hR, ?_, ?_⟩, ?_⟩
    · rw [affine_of_denotes _ A hR, affine_of_denotes P A hA]
    · rw [ctEq_iff _ _ A A hR hA]
    · exact ((spells_iff (enc A) _ _).mpr ⟨A, rfl, rfl, rfl⟩).reserved_eq
  · rw [hencodeP, hencodeQ, ctEq_iff P Q A B hA hB, Except.ok.injEq]
    constructor
    · intro h
      exact enc_injective A B h
    · intro h
      rw [h]

/-- The two scalings of the doubled base point. -/
theorem encode_complete_invariant_double :
    basepoint.double.encode = (basepoint.add basepoint).encode := by
  have hdouble := double_denotes _ _ basepoint_denotes
  have hadd := add_denotes _ _ _ _ basepoint_denotes basepoint_denotes
  have h := encode_complete_invariant basepoint.double (basepoint.add basepoint) hdouble.valid
    hadd.valid
  rw [h.2, ctEq_iff _ _ _ _ hdouble hadd]

/-- The sign bit is negation. Flipping it turns the encoding of a point with a
    nonzero first coordinate into that of its inverse, and makes the encoding
    of any other point invalid. -/
theorem sign_bit_is_negation (b : Bytes fieldBytes) :
    (∀ P, decode b = .ok P → P.affine.1 ≠ 0 →
      ∃ Q, decode (b.flipBit 303) = .ok Q ∧ Q.ctEq P.negate = true) ∧
    (∀ P, decode b = .ok P → P.affine.1 = 0 → ∃ e, decode (b.flipBit 303) = .error e) ∧
    (∀ P Q, decode b = .ok P → decode (b.flipBit 303) = .ok Q → P.ctEq Q = false) ∧
    (∀ P : EdwardsPoint, Valid curve P.coords → P.affine.1 ≠ 0 →
      ∃ c, P.encode = .ok c ∧ P.negate.encode = .ok (c.flipBit 303)) ∧
    (∀ P : EdwardsPoint, Valid curve P.coords → P.affine.1 = 0 →
      ∃ c, P.encode = .ok c ∧ P.negate.encode = .ok c) := by
  refine ⟨?_, ?_, ?_, ?_, ?_⟩
  · intro P hP hx
    rcases (decode_eq_ok_iff b P).mp hP with ⟨A, rfl, rfl⟩
    rw [affine_of_denotes _ A (ofPoint_denotes A)] at hx
    have hneg := negate_denotes _ A (ofPoint_denotes A)
    refine ⟨ofPoint (-A), ?_, ?_⟩
    · rw [← enc_neg A hx, decode_enc]
    · rw [ctEq_iff _ _ _ _ (ofPoint_denotes (-A)) hneg]
  · intro P hP hx
    rcases (decode_eq_ok_iff b P).mp hP with ⟨A, rfl, rfl⟩
    rw [affine_of_denotes _ A (ofPoint_denotes A)] at hx
    cases hdecode : decode ((enc A).flipBit 303) with
    | error e => exact ⟨e, rfl⟩
    | ok Q =>
        -- An accepted string would be an encoding.
        rcases (decode_eq_ok_iff _ Q).mp hdecode with ⟨C, hC, _⟩
        exact absurd hx (flipBit_sign_ne_enc A C hC).2
  · intro P Q hP hQ
    rcases (decode_eq_ok_iff b P).mp hP with ⟨A, rfl, rfl⟩
    rcases (decode_eq_ok_iff _ Q).mp hQ with ⟨C, hC, rfl⟩
    rw [← Bool.not_eq_true, ctEq_iff _ _ A C (ofPoint_denotes A) (ofPoint_denotes C)]
    exact (flipBit_sign_ne_enc A C hC).1
  · intro P hP hx
    rcases (valid_iff P.coords).mp hP with ⟨A, hA⟩
    rw [affine_of_denotes P A hA] at hx
    refine ⟨enc A, encode_of_denotes P A hA, ?_⟩
    rw [← enc_neg A hx]
    exact encode_of_denotes _ _ (negate_denotes P A hA)
  · intro P hP hx
    rcases (valid_iff P.coords).mp hP with ⟨A, hA⟩
    rw [affine_of_denotes P A hA] at hx
    have hneg := encode_of_denotes _ _ (negate_denotes P A hA)
    rw [Point.neg_eq_self A hx] at hneg
    exact ⟨enc A, encode_of_denotes P A hA, hneg⟩

/-- The rule at the base point and the exception at the point of order two. -/
theorem sign_bit_is_negation_instances :
    (∃ Q, decode ((enc generator).flipBit 303) = .ok Q ∧
      Q.ctEq (ofPoint generator).negate = true) ∧
    (∃ e, decode ((enc orderTwoPoint).flipBit 303) = .error e) ∧
    (∃ c, (ofPoint orderTwoPoint).encode = .ok c ∧
      (ofPoint orderTwoPoint).negate.encode = .ok c) := by
  have hdenotes := ofPoint_denotes orderTwoPoint
  have hx : (ofPoint orderTwoPoint).affine.1 = 0 := by
    rw [affine_of_denotes _ _ hdenotes]
    rfl
  have hbase : (ofPoint generator).affine.1 ≠ 0 := by
    rw [affine_of_denotes _ _ (ofPoint_denotes generator)]
    exact generator_x_ne_zero
  rcases sign_bit_is_negation (enc generator) with ⟨hflip, _, _, _, _⟩
  rcases sign_bit_is_negation (enc orderTwoPoint) with ⟨_, hrefused, _, _, hsame⟩
  exact ⟨hflip _ (decode_enc generator) hbase, hrefused _ (decode_enc orderTwoPoint) hx,
    hsame _ hdenotes.valid hx⟩

end EdwardsPoint

end Ed301
