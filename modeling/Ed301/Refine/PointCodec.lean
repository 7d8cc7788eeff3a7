import Ed301.Refine.Bytes
import Ed301.Refine.Point
import Ed301.Spec.Draft

/-!
# The Point Codec

Encoding and decoding of points against the draft's encoding. The encoder is
the simpler half: a point denoting `A` is valid, its `Z` has an inverse, and
the bytes written spell the draft's integer.

The decoder is settled by one case distinction, `decodeExits_cases`, which
lists the ways through it together with what the input must look like for
each. Two of its exits are missing from the list. The denominator never
vanishes and a recovered point is always valid, so a string is either refused
for its own shape or is the encoding of a point, and then that point is
returned.

## Main definitions

* `FieldElement.ofZMod`: The field element of a residue.
* `EdwardsPoint.ofPoint`: The normalised point of an affine point.
* `xSquare`: The square a second coordinate prescribes.

## Theorems

* `encodeInner_of_denotes`: Encoding writes the encoding of the denoted point.
* `decodeExits_cases`: The ways through the decoder.
* `decode_enc`: Encodings decode to their points.
* `decode_eq_ok_iff`: The decoder accepts exactly the encodings.
* `decode_eq_error_iff`: The decoder refuses for four reasons.
* `enc_neg`: The sign bit is the sign.
-/

namespace Ed301

open Edwards Draft

/-- The field element of a residue. -/
def FieldElement.ofZMod (c : ZMod fieldModulus) : FieldElement :=
  ⟨ConstMontyForm.ofNat fieldModulus c.val⟩

@[simp] theorem FieldElement.toZMod_ofZMod (c : ZMod fieldModulus) :
    (FieldElement.ofZMod c).toZMod = c :=
  ConstMontyForm.toZMod_ofNat_val c

theorem FieldElement.eq_ofZMod (f : FieldElement) (c : ZMod fieldModulus) (h : f.toZMod = c) :
    f = FieldElement.ofZMod c :=
  FieldElement.toZMod_injective _ _ (by rw [h, toZMod_ofZMod])

/-- The square that a second coordinate prescribes for the first. -/
def xSquare (y : ZMod fieldModulus) : ZMod fieldModulus :=
  (1 - y ^ 2) / (curve.a - curve.d * y ^ 2)

namespace EdwardsPoint

/-- The normalised point of an affine point. -/
def ofPoint (A : Point curve) : EdwardsPoint :=
  fromAffine (FieldElement.ofZMod A.x) (FieldElement.ofZMod A.y)

theorem ofPoint_denotes (A : Point curve) : (ofPoint A).Denotes A :=
  fromAffine_denotes _ _ A (FieldElement.toZMod_ofZMod A.x) (FieldElement.toZMod_ofZMod A.y)

/-- Encoding writes the encoding of the denoted point, whichever of its two
    entries is used. -/
theorem encodeInner_of_denotes (P : EdwardsPoint) (A : Point curve) (hP : P.Denotes A)
    (flag : Bool) : P.encodeInner flag = .ok (enc A) := by
  have hvalid := isValid_of_denotes P A hP
  have hz : P.z.toZMod ≠ 0 := hP.z_ne_zero
  have hinv := (FieldElement.invert_isSome_iff P.z).mpr hz
  have hval := FieldElement.toZMod_invert_value P.z hinv
  simp only [encodeInner, declassify, ite_self, hvalid, hinv, Bool.not_true, Bool.false_eq_true,
    if_false]
  congr 1
  refine Bytes.integer_injective _ _ ?_
  -- Dividing by `Z` gives the affine coordinates.
  have hx : (P.x.mul P.z.invert.toInnerUnchecked).toZMod = A.x := by
    rw [FieldElement.toZMod_mul, CtOption.toInnerUnchecked, hval]
    exact ((eq_mul_inv_iff_mul_eq₀ hz).mpr hP.x_eq.symm).symm
  have hy : (P.y.mul P.z.invert.toInnerUnchecked).toZMod = A.y := by
    rw [FieldElement.toZMod_mul, CtOption.toInnerUnchecked, hval]
    exact ((eq_mul_inv_iff_mul_eq₀ hz).mpr hP.y_eq.symm).symm
  have hint : (P.y.mul P.z.invert.toInnerUnchecked).toCanonicalBytes.integer = A.y.val := by
    have hlt := pointInteger_lt A
    rw [pointInteger] at hlt
    rw [FieldElement.toCanonicalBytes_eq, hy, Bytes.integer_ofInteger,
      Nat.mod_eq_of_lt (Nat.lt_of_le_of_lt (Nat.le_add_right _ _) hlt)]
  -- The second coordinate leaves the top three bits free for the sign.
  have hlt : A.y.val < 2 ^ 301 := A.y.val_lt.trans fieldModulus_lt
  refine (Bytes.integer_set_sign _ _ (hint ▸ hlt)).trans ?_
  rw [hint, FieldElement.isOdd_toNat, hx, enc_integer, pointInteger]

theorem encode_of_denotes (P : EdwardsPoint) (A : Point curve) (hP : P.Denotes A) :
    P.encode = .ok (enc A) :=
  encodeInner_of_denotes P A hP false

theorem encodePublicArtifact_of_denotes (P : EdwardsPoint) (A : Point curve)
    (hP : P.Denotes A) : P.encodePublicArtifact = .ok (enc A) :=
  encodeInner_of_denotes P A hP true

/-- The root selected by parity, unless zero is asked to be odd. -/
theorem select_root_parity (root : FieldElement) (sign : Choice)
    (h : root.toZMod ≠ 0 ∨ sign = false) :
    (FieldElement.conditionalSelect root root.neg (root.isOdd ^^ sign)).toZMod ^ 2
        = root.toZMod ^ 2 ∧
      (FieldElement.conditionalSelect root root.neg (root.isOdd ^^ sign)).toZMod.val % 2
        = sign.toNat := by
  have hodd := root.isOdd_toNat
  rw [FieldElement.conditionalSelect_eq]
  by_cases hzero : root.toZMod = 0
  · -- Zero is even and is only reached with the sign bit clear.
    rcases h with h | h
    · exact absurd hzero h
    rw [hzero, ZMod.val_zero] at hodd
    have heven : root.isOdd = false := by
      cases hcase : root.isOdd with
      | false => rfl
      | true =>
          rw [hcase] at hodd
          exact absurd hodd (by decide)
    rw [heven, h]
    simp only [Bool.bne_false, Bool.false_eq_true, if_false, hzero, ZMod.val_zero, Bool.toNat_false,
      Nat.zero_mod, and_self]
  · -- The root and its negative differ in parity, and the one asked for is
    -- chosen in each of the four combinations.
    have hflip := val_neg_mod_two root.toZMod hzero
    cases hcase : root.isOdd <;> cases sign <;> rw [hcase] at hodd <;>
      simp only [bne_self_eq_false, Bool.false_bne, Bool.true_bne, Bool.not_false,
        Bool.false_eq_true, if_true, if_false, FieldElement.toZMod_neg, neg_sq, true_and,
        Bool.toNat_false, Bool.toNat_true] at hodd ⊢ <;>
      omega

/-- The denominator of the recovery formula never vanishes. -/
theorem denominator_invert_isSome (y : FieldElement) :
    (edwardsA.sub (edwardsD.mul y.square)).invert.isSome = true := by
  rw [FieldElement.invert_isSome_iff, FieldElement.toZMod_sub, FieldElement.toZMod_mul,
    FieldElement.toZMod_square, edwardsA_toZMod, edwardsD_toZMod]
  exact a_sub_d_sq_ne_zero curve y.toZMod

theorem toZMod_xSquared (y : FieldElement) :
    ((FieldElement.one.sub y.square).mul
      (edwardsA.sub (edwardsD.mul y.square)).invert.value).toZMod = xSquare y.toZMod := by
  rw [FieldElement.toZMod_mul, FieldElement.toZMod_invert_value _ (denominator_invert_isSome y),
    FieldElement.toZMod_sub, FieldElement.toZMod_sub, FieldElement.toZMod_mul,
    FieldElement.toZMod_square, edwardsA_toZMod, edwardsD_toZMod, FieldElement.toZMod_one,
    xSquare, div_eq_mul_inv]

/-- The decoder after its two syntactic checks: recover the first coordinate
    and select its sign. -/
def recover (y : FieldElement) (sign : Choice) : Except DecodeExit EdwardsPoint := do
  let denominatorInverse ←
    okOr (edwardsA.sub (edwardsD.mul y.square)).invert.intoOptionCopied .missingInverse
  let root ←
    okOr ((FieldElement.one.sub y.square).mul denominatorInverse).sqrt.intoOptionCopied .nonsquare
  if root.isZero && sign then .error .negativeZero
  else
    let point := fromAffine
      (FieldElement.conditionalSelect root root.neg (root.isOdd ^^ sign)) y
    if !point.isValid then .error .invalidPoint else .ok point

theorem decodeExits_eq (b : Bytes fieldBytes) :
    decodeExits b =
      if b[37] &&& 0x60 ≠ 0 then .error .reservedBits
      else
        okOr (FieldElement.fromCanonicalBytes (b.update 37 (· &&& 0x1f))).intoOptionCopied
            .noncanonicalY >>= fun y =>
          recover y (Choice.fromU8Lsb ((b[37] >>> 7) &&& 1)) := rfl

/-- Recovery fails for two reasons only, and otherwise returns a point with
    the given second coordinate and parity. -/
theorem recover_cases (y : FieldElement) (sign : Choice) :
    (¬ IsSquare (xSquare y.toZMod) ∧ recover y sign = .error .nonsquare) ∨
    (xSquare y.toZMod = 0 ∧ sign = true ∧ recover y sign = .error .negativeZero) ∨
    ∃ A : Point curve, A.y = y.toZMod ∧ A.x.val % 2 = sign.toNat ∧
      recover y sign = .ok (ofPoint A) := by
  rw [recover, CtOption.intoOptionCopied_of_isSome _ (denominator_invert_isSome y),
    okOr_some_bind]
  have hsquare := toZMod_xSquared y
  generalize (FieldElement.one.sub y.square).mul
    (edwardsA.sub (edwardsD.mul y.square)).invert.value = u at hsquare ⊢
  by_cases hroot : u.sqrt.isSome = true
  case neg =>
    -- No root: the quotient is not a square.
    left
    rw [CtOption.intoOptionCopied_of_not_isSome _ hroot, okOr_none_bind]
    rw [FieldElement.sqrt_isSome_iff, hsquare] at hroot
    exact ⟨hroot, rfl⟩
  right
  rw [CtOption.intoOptionCopied_of_isSome _ hroot, okOr_some_bind]
  have hsq := FieldElement.sqrt_value_sq u hroot
  generalize u.sqrt.value = root at hsq ⊢
  rw [hsquare] at hsq
  by_cases hneg : root.toZMod = 0 ∧ sign = true
  · -- Zero has no odd root.
    left
    rcases hneg with ⟨hzero, hsign⟩
    refine ⟨by rw [← hsq, hzero, zero_pow two_ne_zero], hsign, ?_⟩
    rw [if_pos (by rw [(FieldElement.isZero_iff root).mpr hzero, hsign, Bool.and_self])]
  · right
    have hcond : ¬ (root.isZero && sign) = true := by
      rwa [Bool.and_eq_true, FieldElement.isZero_iff]
    rw [not_and_or, Bool.not_eq_true] at hneg
    -- The selected root solves the recovery formula, so the two coordinates
    -- form a point and the last check passes.
    rcases select_root_parity root sign hneg with ⟨hx, hparity⟩
    generalize FieldElement.conditionalSelect root root.neg (root.isOdd ^^ sign) = x
      at hx hparity ⊢
    let A : Point curve := Point.ofRoot x.toZMod y.toZMod (hx.trans hsq)
    have hpoint : fromAffine x y = ofPoint A := by
      rw [ofPoint, ← FieldElement.eq_ofZMod x A.x rfl, ← FieldElement.eq_ofZMod y A.y rfl]
    refine ⟨A, rfl, hparity, ?_⟩
    rw [if_neg hcond, hpoint]
    simp only [isValid_of_denotes _ A (ofPoint_denotes A), Bool.not_true, Bool.false_eq_true,
      if_false]

/-- The ways through the decoder. -/
theorem decodeExits_cases (b : Bytes fieldBytes) :
    (b.integer / 2 ^ 301 % 4 ≠ 0 ∧ decodeExits b = .error .reservedBits) ∨
    (fieldModulus ≤ b.integer % 2 ^ 301 ∧ decodeExits b = .error .noncanonicalY) ∨
    (¬ IsSquare (xSquare (b.integer % 2 ^ 301 : ℕ)) ∧ decodeExits b = .error .nonsquare) ∨
    (xSquare (b.integer % 2 ^ 301 : ℕ) = 0 ∧ b.integer / 2 ^ 303 = 1 ∧
      decodeExits b = .error .negativeZero) ∨
    ∃ A : Point curve, b = enc A ∧ decodeExits b = .ok (ofPoint A) := by
  rw [decodeExits_eq, Bytes.signBit_eq]
  have hyok := FieldElement.fromCanonicalBytes_isSome_iff (b.update 37 (· &&& 0x1f))
  have hyval := FieldElement.toZMod_fromCanonicalBytes (b.update 37 (· &&& 0x1f))
  rw [Bytes.integer_clear_sign] at hyok hyval
  generalize FieldElement.fromCanonicalBytes (b.update 37 (· &&& 0x1f)) = parsed at hyok hyval ⊢
  -- The exits in the order of the code.
  by_cases hres : b.integer / 2 ^ 301 % 4 = 0
  case neg =>
    left
    exact ⟨hres, if_pos (fun h => hres ((Bytes.reservedBits_iff b).mp h))⟩
  rw [if_neg (not_not.mpr ((Bytes.reservedBits_iff b).mpr hres))]
  right
  by_cases hcan : b.integer % 2 ^ 301 < fieldModulus
  case neg =>
    left
    rw [CtOption.intoOptionCopied_of_not_isSome _ (fun h => hcan (hyok.mp h)), okOr_none_bind]
    exact ⟨Nat.le_of_not_lt hcan, rfl⟩
  right
  rw [CtOption.intoOptionCopied_of_isSome _ (hyok.mpr hcan), okOr_some_bind, ← hyval]
  rcases recover_cases parsed.value (decide (b.integer / 2 ^ 303 = 1)) with h | h | h
  · exact Or.inl h
  · rw [decide_eq_true_eq] at h
    exact Or.inr (Or.inl h)
  · rcases h with ⟨A, hy, hparity, hok⟩
    refine Or.inr (Or.inr ⟨A, ?_, hok⟩)
    -- The three bit fields of the input are those of the point found.
    rw [enc_eq_iff, hy, hyval, ZMod.val_cast_of_lt hcan, hparity]
    refine ⟨rfl, hres, ?_⟩
    have hlt := Bytes.signBit_lt b
    generalize b.integer / 2 ^ 303 = s at hlt ⊢
    interval_cases s <;> rfl

/-- An encoding gives the decoder no reason to refuse it. -/
theorem enc_not_refused (A : Point curve) :
    (enc A).integer / 2 ^ 301 % 4 = 0 ∧
    (enc A).integer % 2 ^ 301 < fieldModulus ∧
    IsSquare (xSquare ((enc A).integer % 2 ^ 301 : ℕ)) ∧
    ¬ (xSquare ((enc A).integer % 2 ^ 301 : ℕ) = 0 ∧ (enc A).integer / 2 ^ 303 = 1) := by
  rcases (enc_eq_iff (enc A) A).mp rfl with ⟨hy, hres, hsign⟩
  have hx : xSquare ((enc A).integer % 2 ^ 301 : ℕ) = A.x ^ 2 := by
    rw [hy, ZMod.natCast_zmod_val, xSquare, Point.x_sq]
  refine ⟨hres, ?_, ?_, ?_⟩
  · rw [hy]
    exact A.y.val_lt
  · rw [hx]
    exact IsSquare.sq A.x
  · intro h
    rcases h with ⟨hsquare, hone⟩
    -- A vanishing first coordinate has its parity bit clear.
    rw [hx] at hsquare
    have hzero : A.x = 0 := pow_eq_zero_iff two_ne_zero |>.mp hsquare
    rw [hsign, hzero, ZMod.val_zero] at hone
    omega

theorem decodeExits_enc (A : Point curve) : decodeExits (enc A) = .ok (ofPoint A) := by
  rcases enc_not_refused A with ⟨hres, hcan, hsquare, hneg⟩
  -- Each failed exit is one of the reasons.
  rcases decodeExits_cases (enc A) with h | h | h | h | h
  · exact absurd hres h.1
  · exact absurd hcan (Nat.not_lt.mpr h.1)
  · exact absurd hsquare h.1
  · exact absurd ⟨h.1, h.2.1⟩ hneg
  · rcases h with ⟨C, henc, hok⟩
    rw [hok, enc_injective A C henc]

theorem decode_enc (A : Point curve) : decode (enc A) = .ok (ofPoint A) := by
  rw [decode, decodeExits_enc, mapErr]

/-- The decoder accepts exactly the encodings, each with its point. -/
theorem decode_eq_ok_iff (b : Bytes fieldBytes) (P : EdwardsPoint) :
    decode b = .ok P ↔ ∃ A : Point curve, b = enc A ∧ P = ofPoint A := by
  rw [decode, mapErr_eq_ok_iff]
  constructor
  · intro h
    rcases decodeExits_cases b with ⟨_, h'⟩ | ⟨_, h'⟩ | ⟨_, h'⟩ | ⟨_, _, h'⟩ | ⟨A, henc, h'⟩
    · exact nomatch h'.symm.trans h
    · exact nomatch h'.symm.trans h
    · exact nomatch h'.symm.trans h
    · exact nomatch h'.symm.trans h
    · exact ⟨A, henc, (Except.ok.inj (h'.symm.trans h)).symm⟩
  · intro h
    rcases h with ⟨A, rfl, rfl⟩
    exact decodeExits_enc A

/-- The decoder fails for the four reasons and for no other. -/
theorem decode_eq_error_iff (b : Bytes fieldBytes) :
    (∃ e, decode b = .error e) ↔
      b.integer / 2 ^ 301 % 4 ≠ 0 ∨
      fieldModulus ≤ b.integer % 2 ^ 301 ∨
      ¬ IsSquare (xSquare (b.integer % 2 ^ 301 : ℕ)) ∨
      (xSquare (b.integer % 2 ^ 301 : ℕ) = 0 ∧ b.integer / 2 ^ 303 = 1) := by
  constructor
  · intro h
    rcases h with ⟨e, he⟩
    rcases decodeExits_cases b with h | h | h | h | h
    · exact Or.inl h.1
    · exact Or.inr (Or.inl h.1)
    · exact Or.inr (Or.inr (Or.inl h.1))
    · exact Or.inr (Or.inr (Or.inr ⟨h.1, h.2.1⟩))
    · rcases h with ⟨A, rfl, _⟩
      rw [decode_enc] at he
      cases he
  · intro h
    cases hdecode : decode b with
    | error e => exact ⟨e, rfl⟩
    | ok P =>
        -- An accepted string is an encoding, which no reason applies to.
        rcases (decode_eq_ok_iff b P).mp hdecode with ⟨A, rfl, _⟩
        rcases enc_not_refused A with ⟨hres, hcan, hsquare, hneg⟩
        rcases h with h | h | h | h
        · exact absurd hres h
        · exact absurd hcan (Nat.not_lt.mpr h)
        · exact absurd hsquare h
        · exact absurd h hneg

section Sign

/-- The encoding of the inverse has the other sign bit, unless the first
    coordinate vanishes. -/
theorem enc_neg (A : Point curve) (hx : A.x ≠ 0) : enc (-A) = (enc A).flipBit 303 := by
  rcases (enc_eq_iff (enc A) A).mp rfl with ⟨hy, hres, hsign⟩
  rcases Bytes.flipBit_sign_fields (enc A) with ⟨hlow, hmid, htop⟩
  refine ((enc_eq_iff _ (-A)).mpr ⟨?_, ?_, ?_⟩).symm
  · rw [hlow, hy, Point.neg_y]
  · rw [hmid, hres]
  · -- Negation changes the parity of a nonzero residue.
    rw [htop, hsign, Point.neg_x, val_neg_mod_two A.x hx]

/-- Flipping the sign bit of an encoding never gives an encoding of the same
    point, nor any encoding when the first coordinate vanishes. -/
theorem flipBit_sign_ne_enc (A C : Point curve) (h : (enc A).flipBit 303 = enc C) :
    A ≠ C ∧ A.x ≠ 0 := by
  rcases (enc_eq_iff (enc A) A).mp rfl with ⟨hy, _, hsign⟩
  rcases Bytes.flipBit_sign_fields (enc A) with ⟨hlow, _, htop⟩
  rcases (enc_eq_iff _ C).mp h with ⟨hyC, _, hsignC⟩
  -- The two points share the second coordinate and differ in parity.
  have hparity : C.x.val % 2 = 1 - A.x.val % 2 := by rw [← hsignC, htop, hsign]
  constructor
  · intro heq
    rw [heq] at hparity
    omega
  · intro hzero
    have hycoord : A.y = C.y := ZMod.val_injective _ (by rw [← hy, ← hlow, hyC])
    have hzeroC : C.x = 0 := by
      rcases Point.x_eq_or_neg A C hycoord with hx | hx
      · rw [← hx, hzero]
      · rw [← neg_eq_zero, ← hx, hzero]
    rw [hzero, hzeroC, ZMod.val_zero] at hparity
    omega

end Sign

end EdwardsPoint

end Ed301
