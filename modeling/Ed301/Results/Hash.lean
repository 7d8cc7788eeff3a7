import Ed301.Refine.Sha3
import Ed301.Refine.Signing
import Ed301.Spec.Permutation

/-!
# The Hash

The permutation, the cursor and the hasher, for every input and every way of
using them.

The permutation is the standard's on every lane size and for every number of
rounds it accepts, and it is a permutation. The cursor gives results that do
not depend on how the data is cut or on the byte order of the target. The
hasher is a state machine, and a run of it of any length, with resets and
outputs in between, gives the standard's output on what was absorbed since the
last reset. With this hasher in place of the parameter, the crate's byte-level
interface signs and verifies as the draft does over the standard's function.

## Main definitions

* `HashOp`, `Shake.run`: A use of a hasher, and its outputs.
* `Fips202.run`: What such a use should give.
* `shakeXof`, `fips202Xof`: The hasher and the standard as the hash of the
  signature scheme.

## Theorems

* `Keccak.keccakP_is_standard`: The permutation is the standard's.
* `Keccak.keccakP_is_permutation`: The permutation is a bijection.
* `SpongeCursor.absorb_any_cut`: Cutting the input does not matter.
* `SpongeCursor.squeeze_any_cut`: Cutting the output does not matter.
* `SpongeCursor.squeeze_xor_is_keystream`: Squeezing into a buffer by addition.
* `Shake.run_is_standard`: Every use of a hasher gives the standard's output.
* `shake_transcripts`: The crate's transcripts.
* `signatures_over_shake`: Signing and verifying over the hasher.
-/

namespace Ed301

namespace Keccak

/-- The permutation on every lane size, for every number of rounds and every
    state: the standard's, or absent when there are too few constants. -/
theorem keccakP_is_standard (L : LaneSize) (rounds : ℕ) (state : State L.bits) :
    (rounds ≤ 12 + 2 * L.log →
      ∃ out, keccakP L rounds state = some out ∧
        ∀ x y z, (out.get (lane x y)).getLsbD z
          = (if h : z < L.bits then
              Fips202.keccakP L.log rounds (toArray state) x y ⟨z, h⟩ else false)) ∧
    (12 + 2 * L.log < rounds → keccakP L rounds state = none) := by
  rw [← L.keccakFRoundCount_eq]
  constructor
  · intro h
    rcases toArray_keccakP L rounds state h with ⟨out, hout, harray⟩
    refine ⟨out, hout, fun x y z => ?_⟩
    by_cases hz : z < L.bits
    · rw [dif_pos hz, ← harray]
      rfl
    · rw [dif_neg hz]
      exact BitVec.getLsbD_of_ge _ _ (Nat.le_of_not_lt hz)
  · intro h
    exact keccakP_eq_none L rounds state (Nat.not_le.mpr h)

/-- Both sides of the number of rounds, on 8-bit lanes. -/
theorem keccakP_is_standard_u8 :
    (∃ out, keccakP .u8 18 (Vector.replicate 25 0) = some out) ∧
      keccakP .u8 19 (Vector.replicate 25 0) = none := by
  rcases (keccakP_is_standard .u8 18 (Vector.replicate 25 0)).1 (by decide) with ⟨out, hout, _⟩
  exact ⟨⟨out, hout⟩, (keccakP_is_standard .u8 19 (Vector.replicate 25 0)).2 (by decide)⟩

/-- With every accepted number of rounds the permutation is a bijection of the
    states. -/
theorem keccakP_is_permutation (L : LaneSize) (rounds : ℕ) (h : rounds ≤ 12 + 2 * L.log) :
    ∃ f : State L.bits → State L.bits, Function.Bijective f ∧
      ∀ state, keccakP L rounds state = some (f state) := by
  rw [← L.keccakFRoundCount_eq] at h
  have hconsts := roundConsts_eq L rounds h
  generalize (List.range _).map _ = consts at hconsts
  have hvalue : ∀ state, keccakP L rounds state = some (consts.foldl round state) := by
    intro state
    unfold keccakP
    rw [hconsts, Option.map_some]
  have hinj : Function.Injective (fun state : State L.bits => consts.foldl round state) := by
    intro s t hst
    rcases toArray_keccakP L rounds s h with ⟨out, hout, harray⟩
    rcases toArray_keccakP L rounds t h with ⟨out', hout', harray'⟩
    rw [hvalue, Option.some.injEq] at hout hout'
    have heq : out = out' := by
      rw [← hout, ← hout']
      exact hst
    -- Equal outputs have equal arrays, and so have the inputs.
    refine toArray_injective s t (Fips202.keccakP_injective L.bits_dvd L.log rounds ?_)
    rw [← harray, ← harray', heq]
  -- There are finitely many states.
  have hfinite : Finite (State L.bits) :=
    Finite.of_injective toArray toArray_injective
  exact ⟨_, Finite.injective_iff_bijective.mp hinj, hvalue⟩

/-- The hash permutation. -/
theorem keccakP_is_permutation_u64 :
    ∃ f : State 64 → State 64, Function.Bijective f ∧
      ∀ state, keccakP .u64 24 state = some (f state) :=
  keccakP_is_permutation .u64 24 (by decide)

end Keccak

namespace SpongeCursor

/-- Absorbing pieces one after the other, each on its own kind of target,
    absorbs their concatenation. -/
theorem absorb_any_cut {n rate : ℕ} (sponge : Words n → Words n) (h8 : rate % 8 = 0)
    (hn : rate ≤ 8 * n) (cursor : SpongeCursor rate) (state : Words n)
    (pieces : List (Endian × List UInt8)) (target : Endian) :
    pieces.foldl (fun q piece => q.1.absorbU64Le piece.1 q.2 sponge piece.2) (cursor, state)
      = cursor.absorbU64Le target state sponge (pieces.map Prod.snd).flatten := by
  -- On either target the loop is the machine, which does not know the target.
  refine machineState_injective _ _ ?_
  have hwhole := absorbU64Le_eq sponge target cursor state (pieces.map Prod.snd).flatten h8 hn
  refine Eq.trans ?_ hwhole.symm
  induction pieces generalizing cursor state with
  | nil => rfl
  | cons piece pieces ih =>
      have hone := absorbU64Le_eq sponge piece.1 cursor state piece.2 h8 hn
      have hrest := ih (cursor.absorbU64Le piece.1 state sponge piece.2).1
        (cursor.absorbU64Le piece.1 state sponge piece.2).2
        (absorbU64Le_eq sponge target _ _ (pieces.map Prod.snd).flatten h8 hn)
      rw [List.foldl_cons, List.map_cons, List.flatten_cons, Sponge.absorb_append, ← hone]
      exact hrest

/-- Two pieces on two targets, over three words. -/
theorem absorb_any_cut_two :
    [(Endian.little, [1]), (Endian.big, [2, 3])].foldl
        (fun q piece => q.1.absorbU64Le piece.1 q.2 id piece.2)
        ((SpongeCursor.default (by decide) : SpongeCursor 16), (Vector.replicate 3 0 : Words 3))
      = (SpongeCursor.default (by decide) : SpongeCursor 16).absorbU64Le .big
        (Vector.replicate 3 0) id [1, 2, 3] :=
  absorb_any_cut id (by decide) (by decide) _ _ _ .big

/-- Read into a buffer and append what was read. -/
def appendRead {n rate : ℕ} (sponge : Words n → Words n)
    (r : List UInt8 × SpongeCursor rate × Words n) (piece : Endian × List UInt8) :
    List UInt8 × SpongeCursor rate × Words n :=
  let next := r.2.1.squeezeReadU64Le piece.1 r.2.2 sponge piece.2
  (r.1 ++ next.1, next.2)

/-- Reads one after the other are one run of the machine. -/
theorem foldl_appendRead {n rate : ℕ} (sponge : Words n → Words n) (h8 : rate % 8 = 0)
    (hn : rate ≤ 8 * n) (pieces : List (Endian × List UInt8)) :
    ∀ (out : List UInt8) (cursor : SpongeCursor rate) (state : Words n),
      let q := (wordSponge rate cursor.rate_pos sponge).squeeze
        (pieces.map fun piece => piece.2.length).sum (state, cursor.pos)
      let r := pieces.foldl (appendRead sponge) (out, cursor, state)
      r.1 = out ++ q.1 ∧ machineState r.2 = q.2 := by
  induction pieces with
  | nil =>
      intro out cursor state
      exact ⟨(List.append_nil out).symm, rfl⟩
  | cons piece pieces ih =>
      intro out cursor state
      rcases squeezeReadU64Le_eq sponge piece.1 cursor state piece.2 h8 hn with ⟨hout, hstate⟩
      have hrest := ih (out ++ (cursor.squeezeReadU64Le piece.1 state sponge piece.2).1)
        (cursor.squeezeReadU64Le piece.1 state sponge piece.2).2.1
        (cursor.squeezeReadU64Le piece.1 state sponge piece.2).2.2
      simp only at hrest ⊢
      rw [List.foldl_cons, List.map_cons, List.sum_cons, Sponge.squeeze_add, ← hstate, ← hout,
        ← List.append_assoc]
      exact hrest

/-- Reading into buffers one after the other, each on its own kind of target,
    gives what one read into a buffer of the whole length gives. -/
theorem squeeze_any_cut {n rate : ℕ} (sponge : Words n → Words n) (h8 : rate % 8 = 0)
    (hn : rate ≤ 8 * n) (cursor : SpongeCursor rate) (state : Words n)
    (pieces : List (Endian × List UInt8)) (target : Endian) (buf : List UInt8)
    (hbuf : buf.length = (pieces.map fun piece => piece.2.length).sum) :
    pieces.foldl (appendRead sponge) ([], cursor, state)
      = cursor.squeezeReadU64Le target state sponge buf := by
  rcases foldl_appendRead sponge h8 hn pieces [] cursor state with ⟨hout, hstate⟩
  rcases squeezeReadU64Le_eq sponge target cursor state buf h8 hn with ⟨hout', hstate'⟩
  rw [← hbuf, List.nil_append] at hout
  rw [← hbuf] at hstate
  exact Prod.ext (hout.trans hout'.symm)
    (machineState_injective _ _ (hstate.trans hstate'.symm))

/-- Two buffers on two targets, over three words. -/
theorem squeeze_any_cut_two :
    [(Endian.little, [0]), (Endian.big, [0, 0])].foldl (appendRead id)
        ([], (SpongeCursor.default (by decide) : SpongeCursor 16),
          (Vector.replicate 3 0x0102 : Words 3))
      = (SpongeCursor.default (by decide) : SpongeCursor 16).squeezeReadU64Le .big
        (Vector.replicate 3 0x0102) id [7, 7, 7] :=
  squeeze_any_cut id (by decide) (by decide) _ _ _ .big _ rfl

theorem zipWith_xor_cancel (bytes : List UInt8) :
    ∀ stream : List UInt8, bytes.length = stream.length →
      List.zipWith (· ^^^ ·) (List.zipWith (· ^^^ ·) bytes stream) stream = bytes := by
  induction bytes with
  | nil =>
      intro stream _
      rfl
  | cons b bytes ih =>
      intro stream h
      cases stream with
      | nil => simp at h
      | cons k stream =>
          rw [List.length_cons, List.length_cons, Nat.add_right_cancel_iff] at h
          rw [List.zipWith_cons_cons, List.zipWith_cons_cons, ih stream h, UInt8.xor_assoc,
            UInt8.xor_self, UInt8.xor_zero]

/-- Squeezing by addition adds the bytes a read would give and ends in the
    same state; adding them again restores the buffer. -/
theorem squeeze_xor_is_keystream {n rate : ℕ} (sponge : Words n → Words n) (h8 : rate % 8 = 0)
    (hn : rate ≤ 8 * n) (cursor : SpongeCursor rate) (state : Words n) (target : Endian)
    (buf buf' : List UInt8) (hlen : buf'.length = buf.length) :
    cursor.squeezeXorU64Le target state sponge buf
        = (List.zipWith (· ^^^ ·) buf (cursor.squeezeReadU64Le target state sponge buf').1,
            (cursor.squeezeReadU64Le target state sponge buf').2) ∧
      (cursor.squeezeXorU64Le target state sponge
        (cursor.squeezeXorU64Le target state sponge buf).1).1 = buf := by
  rcases squeezeReadU64Le_eq sponge target cursor state buf' h8 hn with ⟨hread, hreadState⟩
  rcases squeezeXorU64Le_eq sponge target cursor state buf h8 hn with ⟨hxor, hxorState⟩
  have hstream := (wordSponge rate cursor.rate_pos sponge).length_squeeze buf.length
    (state, cursor.pos)
  rw [hlen] at hread hreadState
  refine ⟨Prod.ext (hxor.trans (by rw [hread])) ?_, ?_⟩
  · exact machineState_injective _ _ (hxorState.trans hreadState.symm)
  · -- The second pass starts from the same state, so its stream is the same.
    have hagain := (squeezeXorU64Le_eq sponge target cursor state
      (cursor.squeezeXorU64Le target state sponge buf).1 h8 hn).1
    have hlength : (cursor.squeezeXorU64Le target state sponge buf).1.length = buf.length := by
      rw [hxor, List.length_zipWith, hstream, Nat.min_self]
    rw [hlength, hxor] at hagain
    rw [hxor, hagain]
    exact zipWith_xor_cancel _ _ hstream.symm

/-- One byte of output added to one byte, over three words. -/
theorem squeeze_xor_is_keystream_one :
    ((SpongeCursor.default (by decide) : SpongeCursor 16).squeezeXorU64Le .big
        (Vector.replicate 3 0x0102 : Words 3) id [0x5A]).1
      = List.zipWith (· ^^^ ·) [0x5A]
        ((SpongeCursor.default (by decide) : SpongeCursor 16).squeezeReadU64Le .big
          (Vector.replicate 3 0x0102 : Words 3) id [0]).1 :=
  congrArg Prod.fst
    (squeeze_xor_is_keystream id (by decide) (by decide) _ _ .big [0x5A] [0] rfl).1

end SpongeCursor

/-- What a user does with a hasher. -/
inductive HashOp
  | update (data : List UInt8)
  | reset
  | finalizeXofReset (reads : List (List UInt8))

namespace Shake

variable {rate : ℕ}

/-- The bytes given out by a reader, one buffer after the other. -/
def readAll (target : Endian) (reader : ShakeReader rate) : List (List UInt8) → List UInt8
  | [] => []
  | buf :: bufs =>
    (reader.read target buf).1 ++ readAll target (reader.read target buf).2 bufs

/-- The outputs of a use of a hasher. -/
def run (target : Endian) (self : Shake rate) : List HashOp → List (List UInt8)
  | [] => []
  | .update data :: ops => run target (self.update target data) ops
  | .reset :: ops => run target self.reset ops
  | .finalizeXofReset reads :: ops =>
    readAll target self.finalizeXofReset.1 reads :: run target self.finalizeXofReset.2 ops

end Shake

/-- The outputs a use should have: the function of the standard, on what was
    absorbed since the last reset. -/
def Fips202.run (xof : List Bool → ℕ → List Bool) (message : List UInt8) :
    List HashOp → List (List Bool)
  | [] => []
  | .update data :: ops => Fips202.run xof (message ++ data) ops
  | .reset :: ops => Fips202.run xof [] ops
  | .finalizeXofReset reads :: ops =>
    xof (bytesToBits message) (8 * (reads.map List.length).sum) :: Fips202.run xof [] ops

namespace Shake

variable {rate : ℕ}

/-- A reader gives out the output from where it is. -/
theorem readAll_eq (target : Endian) (h8 : rate % 8 = 0) (hn : rate ≤ 8 * 25)
    (M : List UInt8) (hr : 0 < rate) (bufs : List (List UInt8)) :
    ∀ (reader : ShakeReader rate) (k : ℕ), reader.Represents M k →
      shakeOutput hr M k ++ readAll target reader bufs
        = shakeOutput hr M (k + (bufs.map List.length).sum) := by
  induction bufs with
  | nil =>
      intro reader k _
      exact List.append_nil _
  | cons buf bufs ih =>
      intro reader k h
      rcases reader.represents_read target M buf k h8 hn h with ⟨hout, hnext⟩
      unfold readAll
      rw [List.map_cons, List.sum_cons, ← Nat.add_assoc, ← ih _ _ hnext, hout, List.append_assoc]

/-- The outputs of a hasher that has absorbed a message. -/
theorem run_of_represents (target : Endian) (h8 : rate % 8 = 0) (hn : rate ≤ 8 * 25)
    (ops : List HashOp) :
    ∀ (self : Shake rate) (M : List UInt8), self.Represents M →
      (self.run target ops).map bytesToBits
        = Fips202.run (Fips202.shake (1600 - 8 * rate)) M ops := by
  induction ops with
  | nil =>
      intro self M _
      rfl
  | cons op ops ih =>
      intro self M h
      cases op with
      | update data => exact ih _ _ (represents_update target self M data h8 hn h)
      | reset => exact ih _ _ (represents_reset self)
      | finalizeXofReset reads =>
          -- The reader starts with nothing read, the hasher with nothing absorbed.
          have hreader := ShakeReader.represents_finalizeXof self M h8 hn h
          have hout := readAll_eq target h8 hn M self.cursor.rate_pos reads _ 0 hreader
          have hempty : shakeOutput self.cursor.rate_pos M 0 = [] := rfl
          rw [hempty, List.nil_append, Nat.zero_add] at hout
          have hfirst : bytesToBits (readAll target self.finalizeXofReset.1 reads)
              = Fips202.shake (1600 - 8 * rate) (bytesToBits M)
                (8 * (reads.map List.length).sum) := by
            rw [← shakeOutput_eq self.cursor.rate_pos hn, ← hout]
            rfl
          unfold run Fips202.run
          rw [List.map_cons, hfirst]
          exact congrArg _ (ih _ _ (represents_reset self.pad))

/-- Every use of a SHAKE256 or SHAKE128 hasher, on either kind of target, gives
    the standard's outputs. -/
theorem run_is_standard (target : Endian) (ops : List HashOp) :
    ((Shake.default (by decide) : Shake 136).run target ops).map bytesToBits
        = Fips202.run Fips202.shake256 [] ops ∧
      ((Shake.default (by decide) : Shake 168).run target ops).map bytesToBits
        = Fips202.run Fips202.shake128 [] ops :=
  ⟨run_of_represents target (by decide) (by decide) ops _ [] rfl,
    run_of_represents target (by decide) (by decide) ops _ [] rfl⟩

end Shake

/-- The standard's function as the hash of the scheme. -/
def fips202Xof : Xof := fun M =>
  Bytes.ofList (fips202Bytes M 76) (length_fips202Bytes M 76)

/-- The vendored hasher as the hash of the scheme. -/
def shakeXof (target : Endian) : Xof := fun M =>
  Bytes.ofList (shakeHashParts target [M])
    (by rw [shakeHashParts_eq]; exact length_fips202Bytes _ 76)

theorem shakeXof_eq (target : Endian) : shakeXof target = fips202Xof := by
  funext M
  refine Bytes.toList_injective _ _ ?_
  unfold shakeXof fips202Xof
  rw [Bytes.toList_ofList, Bytes.toList_ofList, shakeHashParts_eq, List.flatten_singleton]

/-- Every transcript the crate hashes, whatever its parts: feeding the parts
    to the hasher gives the transcript of the scheme over the standard's
    function, on either kind of target. -/
theorem shake_transcripts (target : Endian) (parts : List (List UInt8)) :
    shakeHashParts target parts = (hashParts fips202Xof parts).toList := by
  rw [hashParts_eq, shakeHashParts_eq]
  rfl

/-- With the hasher in place of the hash, the byte-level interface returns the
    draft's signature over the standard's function and accepts by the draft's
    equation. -/
theorem signatures_over_shake (target : Endian) :
    (∀ seed message : List UInt8, seed.length = 38 →
      ∃ sig, sign (shakeXof target) seed message = .ok sig ∧
        sig.toList = Draft.signature fips202Xof seed message ∧
        ∀ target', verify (shakeXof target') (Draft.publicKey fips202Xof seed).toList message
          sig.toList = true) ∧
    (∀ publicKey message signature : List UInt8,
      verify (shakeXof target) publicKey message signature = true ↔
        ∃ (A R : Edwards.Point curve) (S : ℕ), Draft.IsKeyOf publicKey A ∧ S < scalarModulus ∧
          signature = Draft.wire R S ∧
          primeBase.Accepts A R
            (Draft.challenge fips202Xof (Draft.enc R).toList publicKey message) S) := by
  constructor
  · intro seed message hlen
    rw [shakeXof_eq target]
    refine ⟨_, sign_eq fips202Xof seed message hlen, rfl, fun target' => ?_⟩
    rw [shakeXof_eq target']
    exact (verify_eq_true_iff fips202Xof _ message _).mpr
      ⟨_, _, _, isKeyOf_publicKey fips202Xof _, response_lt fips202Xof _ message, rfl,
        accepts_signature fips202Xof _ message⟩
  · intro publicKey message signature
    rw [shakeXof_eq target]
    exact verify_eq_true_iff fips202Xof publicKey message signature

/-- The zero seed and the empty message. -/
theorem signatures_over_shake_zero :
    ∃ sig, sign (shakeXof .little) (List.replicate 38 0) [] = .ok sig ∧
      verify (shakeXof .big) (Draft.publicKey fips202Xof (List.replicate 38 0)).toList []
        sig.toList = true := by
  rcases (signatures_over_shake .little).1 (List.replicate 38 0) [] rfl
      with ⟨sig, hsign, _, hverify⟩
  exact ⟨sig, hsign, hverify .big⟩

end Ed301
