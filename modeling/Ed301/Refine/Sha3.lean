import Ed301.Refine.Keccak
import Ed301.Refine.Shake

/-!
# The Hasher against the Standard

A byte stream hashed by the streaming hasher is a bit string hashed by the
standard.

The standard's sponge is the machine once more, over single bits. A byte
stands for eight bits and the words for the string of their bits, and the two
machines run in step. What is left is the start and the end: the padding
bytes spell the domain bits and the standard's padding, and the standard's
blocks and truncations are folds and initial parts of the machine's run.

## Main definitions

* `bytesToBits`: The bits of a byte string, least significant bit first.
* `stateString`: The bits of the words.
* `bitSponge`: The sponge of a permutation on bit strings.
* `Shake.Represents`: A hasher that has absorbed a given string.
* `ShakeReader.Represents`: A reader some way into the output of a string.

## Theorems

* `refines`: Byte machine and bit machine run in step.
* `sponge_eq`: The standard's sponge is the bit machine.
* `Shake.represents_update`, `Shake.represents_reset`: The hasher's steps.
* `ShakeReader.represents_read`: The reader's step.
* `shakeOutput_eq`: The output is the standard's.
-/

namespace Ed301

open Keccak

/-- The bits of a byte, least significant first. -/
def byteToBits (b : UInt8) : List Bool :=
  (List.range 8).map fun i => b.toBitVec.getLsbD i

/-- The bits of a byte string. -/
def bytesToBits (bs : List UInt8) : List Bool :=
  bs.flatMap byteToBits

theorem length_byteToBits (b : UInt8) : (byteToBits b).length = 8 := by
  unfold byteToBits
  rw [List.length_map, List.length_range]

theorem length_bytesToBits (bs : List UInt8) : (bytesToBits bs).length = 8 * bs.length := by
  unfold bytesToBits
  induction bs with
  | nil => rfl
  | cons b bs ih =>
      rw [List.flatMap_cons, List.length_append, ih, length_byteToBits, List.length_cons]
      omega

theorem bytesToBits_append (as bs : List UInt8) :
    bytesToBits (as ++ bs) = bytesToBits as ++ bytesToBits bs :=
  List.flatMap_append

theorem getD_byteToBits (b : UInt8) (i : ℕ) (h : i < 8) :
    (byteToBits b).getD i false = b.toBitVec.getLsbD i := by
  unfold byteToBits
  rw [List.getD_eq_getElem _ _ (by simpa using h), List.getElem_map, List.getElem_range]

/-- Joining lists of one length, position by position. -/
theorem getD_flatMap {α : Type*} (l : List α) (f : α → List Bool) (c : ℕ) (hc : 0 < c)
    (hf : ∀ a, (f a).length = c) :
    ∀ i, (l.flatMap f).getD i false
      = ((l[i / c]?).map fun a => (f a).getD (i % c) false).getD false := by
  induction l with
  | nil =>
      intro i
      simp
  | cons a l ih =>
      intro i
      rw [List.flatMap_cons]
      by_cases hlt : i < c
      · rw [List.getD_append _ _ _ _ (by rw [hf]; exact hlt), Nat.div_eq_of_lt hlt,
          Nat.mod_eq_of_lt hlt]
        rfl
      · have hdiv : i / c = (i - c) / c + 1 := by
          rw [← Nat.add_div_right _ hc, Nat.sub_add_cancel (by omega)]
        have hmod : i % c = (i - c) % c := by
          rw [← Nat.mod_eq_sub_mod (by omega)]
        rw [List.getD_append_right _ _ _ _ (by rw [hf]; omega), hf, ih, hdiv, hmod,
          List.getElem?_cons_succ]

/-- The length of a plane, a row of lanes, in the string. -/
theorem length_plane {w : ℕ} (A : Fips202.StateArray w) (y : Fin 5) :
    ((List.finRange 5).flatMap fun x => List.ofFn (A x y)).length = 5 * w := by
  simp only [List.length_flatMap, List.length_ofFn, List.map_const', List.sum_replicate_nat,
    List.length_finRange]

theorem length_toString {w : ℕ} (A : Fips202.StateArray w) :
    (Fips202.toString A).length = 25 * w := by
  unfold Fips202.toString
  rw [List.length_flatMap]
  simp only [length_plane, List.map_const', List.sum_replicate_nat, List.length_finRange]
  ring

/-- A bit of the string of an array. -/
theorem getD_toString {w : ℕ} (A : Fips202.StateArray w) (x y : Fin 5) (z : Fin w) :
    (Fips202.toString A).getD (w * (5 * y.val + x.val) + z.val) false = A x y z := by
  have hw : 0 < w := Nat.zero_lt_of_lt z.isLt
  have hlane : ∀ y x, (List.ofFn (A x y)).length = w := fun _ _ => List.length_ofFn
  -- The position inside the plane, whose quotient by `w` is the column.
  have hin : w * x.val + z.val < 5 * w := by
    calc w * x.val + z.val < w * x.val + w := Nat.add_lt_add_left z.isLt _
      _ = w * (x.val + 1) := by ring
      _ ≤ w * 5 := Nat.mul_le_mul_left w x.isLt
      _ = 5 * w := Nat.mul_comm _ _
  have hsplit : w * (5 * y.val + x.val) + z.val = y.val * (5 * w) + (w * x.val + z.val) := by
    ring
  have hfin : ∀ i : Fin 5, (List.finRange 5)[i.val]? = some i := by decide
  unfold Fips202.toString
  rw [hsplit, getD_flatMap _ _ (5 * w) (by omega) (length_plane A), Nat.mul_comm y.val,
    Nat.mul_add_div (by omega), Nat.mul_add_mod, Nat.div_eq_of_lt hin, Nat.mod_eq_of_lt hin,
    Nat.add_zero, hfin, Option.map_some, Option.getD_some, getD_flatMap _ _ w hw (hlane y),
    Nat.mul_add_div hw, Nat.mul_add_mod, Nat.div_eq_of_lt z.isLt, Nat.mod_eq_of_lt z.isLt,
    Nat.add_zero, hfin, Option.map_some, Option.getD_some,
    List.getD_eq_getElem _ _ (by rw [hlane]; exact z.isLt), List.getElem_ofFn]

/-- Reading a string of the right length loses nothing. -/
theorem ofString_toString {w : ℕ} (A : Fips202.StateArray w) :
    Fips202.ofString w (Fips202.toString A) = A := by
  funext x y z
  exact getD_toString A x y z

/-- The bits of the words. -/
def stateString (s : Words 25) : List Bool :=
  Fips202.toString (toArray s)

theorem length_stateString (s : Words 25) : (stateString s).length = 1600 :=
  length_toString _

/-- A bit of the state is a bit of a byte. -/
theorem getD_stateString (s : Words 25) (i : ℕ) (h : i < 1600) :
    (stateString s).getD i false = (byteAt s (i / 8)).toBitVec.getLsbD (i % 8) := by
  have hword : i / 64 < 25 := by omega
  have hz : i % 64 < 64 := Nat.mod_lt _ (by omega)
  have hi8 : i % 8 < 8 := Nat.mod_lt _ (by omega)
  have hpos : 64 * (5 * (row ⟨i / 64, hword⟩).val + (column ⟨i / 64, hword⟩).val) + i % 64
      = i := by
    unfold row column
    simp only
    omega
  have hbit := getD_toString (toArray s) (column ⟨i / 64, hword⟩) (row ⟨i / 64, hword⟩)
    ⟨i % 64, hz⟩
  simp only [hpos] at hbit
  unfold stateString
  rw [hbit]
  -- Both sides are bits of one word, found by 64 or by 8 and again by 8.
  unfold toArray byteAt wordAt
  rw [lane_column_row]
  have hindex : i / 8 / 8 = i / 64 := by omega
  have hinner : 8 * (i / 8 % 8) + i % 8 = i % 64 := by omega
  rw [hindex, dif_pos hword, UInt8.toBitVec_ofBitVec, BitVec.getLsbD_extractLsb',
    decide_eq_true hi8, Bool.true_and, hinner]

/-- The permutation of the hash is the standard's. -/
theorem stateString_f1600 (s : Words 25) :
    stateString (f1600 s) = Fips202.keccakF1600 (stateString s) := by
  unfold stateString Fips202.keccakF1600
  rw [toArray_f1600, ofString_toString]

theorem length_keccakF1600 (S : List Bool) : (Fips202.keccakF1600 S).length = 1600 :=
  length_toString _

/-- The sponge that adds and reads the bits of a string. -/
def bitSponge (r : ℕ) (h : 0 < r) (f : List Bool → List Bool) : Sponge (List Bool) Bool where
  rate := r
  rate_pos := h
  mix := fun S i b => S.set i (S.getD i false ^^ b)
  read := fun S i => S.getD i false
  permute := f

section BitSponge

variable {r : ℕ} (hr : 0 < r) (f : List Bool → List Bool)

theorem length_mixFrom_bits (bs : List Bool) :
    ∀ (S : List Bool) (off : ℕ), ((bitSponge r hr f).mixFrom S off bs).length = S.length := by
  induction bs with
  | nil =>
      intro S off
      rfl
  | cons b bs ih =>
      intro S off
      rw [Sponge.mixFrom_cons, ih]
      exact List.length_set

/-- What several bits add to each bit of the string. -/
theorem getD_mixFrom_bits (bs : List Bool) :
    ∀ (S : List Bool) (off i : ℕ), off + bs.length ≤ S.length →
      ((bitSponge r hr f).mixFrom S off bs).getD i false
        = (S.getD i false ^^ (if off ≤ i then bs.getD (i - off) false else false)) := by
  induction bs with
  | nil =>
      intro S off i _
      simp
  | cons b bs ih =>
      intro S off i h
      rw [List.length_cons] at h
      have hmix : (bitSponge r hr f).mix S off b = S.set off (S.getD off false ^^ b) := rfl
      have hlen : (S.set off (S.getD off false ^^ b)).length = S.length := List.length_set
      rw [Sponge.mixFrom_cons, hmix, ih _ _ _ (by omega)]
      by_cases heq : off = i
      · subst heq
        rw [if_neg (by omega), if_pos (Nat.le_refl _), Nat.sub_self, List.getD_cons_zero,
          Bool.xor_false, List.getD_eq_getElem (List.set _ _ _) _ (by omega),
          List.getElem_set_self]
      · have hother : (S.set off (S.getD off false ^^ b)).getD i false = S.getD i false := by
          rw [List.getD_eq_getElem?_getD, List.getElem?_set_ne heq, ← List.getD_eq_getElem?_getD]
        rw [hother]
        congr 1
        by_cases hle : off + 1 ≤ i
        · have hsub : i - off = (i - (off + 1)) + 1 := by omega
          rw [if_pos hle, if_pos (by omega), hsub, List.getD_cons_succ]
        · rw [if_neg hle, if_neg (by omega)]

theorem getD_readFrom_bits (S : List Bool) (off len i : ℕ) (h : i < len) :
    ((bitSponge r hr f).readFrom S off len).getD i false = S.getD (off + i) false := by
  unfold Sponge.readFrom
  rw [List.getD_eq_getElem _ _ (by simpa using h), List.getElem_map, List.getElem_range]
  rfl

/-- The standard adds a block to the outer part. -/
theorem absorbBlock_eq (b : ℕ) (S block : List Bool) (hS : S.length = b) (hb : r ≤ b)
    (hblock : block.length = r) :
    Fips202.absorbBlock f b r S block = (bitSponge r hr f).absorbBlock S block := by
  have hmix : List.zipWith xor S (block ++ List.replicate (b - r) false)
      = (bitSponge r hr f).mixFrom S 0 block := by
    refine ext_getD false _ _ ?_ (fun i hi => ?_)
    · rw [length_mixFrom_bits, List.length_zipWith, List.length_append, List.length_replicate]
      omega
    · rw [List.length_zipWith, List.length_append, List.length_replicate] at hi
      rw [getD_mixFrom_bits _ _ _ _ _ _ (by omega), if_pos (Nat.zero_le i), Nat.sub_zero,
        List.getD_eq_getElem (List.zipWith _ _ _) _ (by
          rw [List.length_zipWith, List.length_append, List.length_replicate]
          omega), List.getElem_zipWith, List.getD_eq_getElem _ _ (by omega)]
      congr 1
      -- Past the rate the standard adds zeros and the machine nothing.
      by_cases hlt : i < block.length
      · rw [List.getElem_append_left hlt, List.getD_eq_getElem _ _ hlt]
      · rw [List.getElem_append_right (by omega), List.getElem_replicate,
          List.getD_eq_default _ _ (by omega)]
  unfold Fips202.absorbBlock Sponge.absorbBlock
  rw [hmix]
  rfl

theorem take_eq_readFrom (S : List Bool) (h : r ≤ S.length) :
    S.take r = (bitSponge r hr f).readFrom S 0 r := by
  refine ext_getD false _ _ ?_ (fun i hi => ?_)
  · rw [List.length_take, Sponge.length_readFrom]
    omega
  · rw [List.length_take] at hi
    rw [getD_readFrom_bits hr f S 0 r i (by omega), Nat.zero_add, List.getD_eq_getElem?_getD,
      List.getElem?_take, if_pos (by omega), ← List.getD_eq_getElem?_getD]

variable {f} (b : ℕ) (hb : r ≤ b) (hf : ∀ S, (f S).length = b)

include hb hf

/-- The standard absorbs whole blocks. -/
theorem foldl_absorbBlock_eq (blocks : List (List Bool)) :
    (∀ c ∈ blocks, c.length = r) → ∀ S : List Bool, S.length = b →
      blocks.foldl (Fips202.absorbBlock f b r) S
          = blocks.foldl (bitSponge r hr f).absorbBlock S ∧
        (blocks.foldl (Fips202.absorbBlock f b r) S).length = b := by
  induction blocks with
  | nil =>
      intro _ S hS
      exact ⟨rfl, hS⟩
  | cons block blocks ih =>
      intro hlen S hS
      have hblock := hlen block List.mem_cons_self
      rw [List.foldl_cons, List.foldl_cons, absorbBlock_eq hr f b S block hS hb hblock]
      exact ih (fun c hc => hlen c (List.mem_cons_of_mem _ hc)) _ (hf _)

/-- The standard's outer parts are what the machine squeezes, when it starts
    one permutation earlier. -/
theorem squeezeBlocks_bits_eq (n : ℕ) :
    ∀ S : List Bool, Fips202.squeezeBlocks f r n (f S)
      = ((bitSponge r hr f).squeeze (n * r) (S, 0)).1 := by
  induction n with
  | zero =>
      intro S
      rw [Nat.zero_mul]
      rfl
  | succ n ih =>
      intro S
      have hone : (bitSponge r hr f).squeeze r (S, 0)
          = ((bitSponge r hr f).readFrom (f S) 0 r, f S, 0) :=
        (bitSponge r hr f).squeeze_block S
      have htake := take_eq_readFrom hr f (f S) (by rw [hf]; exact hb)
      -- The block comes off the front, as the standard takes it.
      rw [Nat.succ_mul, Nat.add_comm (n * r), Sponge.squeeze_add, hone]
      unfold Fips202.squeezeBlocks
      rw [htake, ih]

/-- A string whose last block is kept back before the permutation: the
    standard's sponge is absorbing it and squeezing. -/
theorem sponge_eq (N : List Bool) (d : ℕ) (blocks : List (List Bool)) (last : List Bool)
    (hP : N ++ Fips202.pad10star1 r N.length = blocks.flatten ++ last)
    (hblocks : ∀ c ∈ blocks, c.length = r) (hlast : last.length = r) :
    Fips202.sponge f b r N d
      = ((bitSponge r hr f).squeeze d
          ((bitSponge r hr f).mixFrom
            ((bitSponge r hr f).absorb (List.replicate b false, 0) blocks.flatten).1 0 last,
            0)).1 := by
  have hP' : N ++ Fips202.pad10star1 r N.length = (blocks ++ [last]).flatten := by
    rw [List.flatten_append, List.flatten_singleton, hP]
  have hall : ∀ c ∈ blocks ++ [last], c.length = r := by
    intro c hc
    rw [List.mem_append, List.mem_singleton] at hc
    rcases hc with hin | rfl
    · exact hblocks c hin
    · exact hlast
  have hcut : Fips202.blocks r (blocks ++ [last]).flatten = blocks ++ [last] :=
    chunksExact_flatten r hr _ hall
  rcases foldl_absorbBlock_eq hr b hb hf blocks hblocks
    (List.replicate b false) List.length_replicate with ⟨hfold, hlen⟩
  -- Enough blocks are squeezed for the truncation.
  have henough : d ≤ (d + (r - 1)) / r * r := by
    have h := Nat.div_add_mod (d + (r - 1)) r
    have hlt := Nat.mod_lt (d + (r - 1)) hr
    rw [Nat.mul_comm] at h
    omega
  have hblock : Fips202.absorbBlock f b r
        (blocks.foldl (Fips202.absorbBlock f b r) (List.replicate b false)) last
      = f ((bitSponge r hr f).mixFrom
          (blocks.foldl (bitSponge r hr f).absorbBlock (List.replicate b false)) 0 last) := by
    rw [absorbBlock_eq hr f b _ last hlen hb hlast, hfold]
    rfl
  have habsorb := (bitSponge r hr f).absorb_blocks blocks hblocks (List.replicate b false)
  unfold Fips202.sponge
  simp only
  rw [hP', hcut, List.foldl_append, List.foldl_cons, List.foldl_nil, hblock, habsorb,
    squeezeBlocks_bits_eq hr b hb hf, Sponge.squeeze_take _ _ _ _ henough]

end BitSponge

section Step

variable {rate : ℕ} (hr : 0 < rate) (hn : rate ≤ 8 * 25)

theorem bits_pos (hr : 0 < rate) : 0 < 8 * rate := by
  omega

include hn

theorem mix_bits (s : Words 25) (i : ℕ) (b : UInt8) (hi : i < rate) :
    stateString (xorByte s i b)
      = (bitSponge (8 * rate) (bits_pos hr) Fips202.keccakF1600).mixFrom (stateString s) (8 * i)
          (byteToBits b) := by
  refine ext_getD false _ _ ?_ (fun j hj => ?_)
  · rw [length_mixFrom_bits, length_stateString, length_stateString]
  · rw [length_stateString] at hj
    have hlen : 8 * i + (byteToBits b).length ≤ (stateString s).length := by
      rw [length_byteToBits, length_stateString]
      omega
    rw [getD_mixFrom_bits _ _ _ _ _ _ hlen, getD_stateString _ _ hj, getD_stateString _ _ hj,
      byteAt_xorByte s i (j / 8) b (by omega), UInt8.toBitVec_xor, BitVec.getLsbD_xor]
    congr 1
    by_cases hij : i = j / 8
    · -- The bit belongs to the byte added.
      have hsub : j - 8 * i = j % 8 := by omega
      rw [if_pos hij, if_pos (by omega), hsub, getD_byteToBits _ _ (Nat.mod_lt _ (by omega))]
    · rw [if_neg hij]
      have hzero : (0 : UInt8).toBitVec.getLsbD (j % 8) = false := BitVec.getLsbD_zero
      rw [hzero]
      by_cases hle : 8 * i ≤ j
      · rw [if_pos hle, List.getD_eq_default _ _ (by rw [length_byteToBits]; omega)]
      · rw [if_neg hle]

theorem read_bits (s : Words 25) (i : ℕ) (hi : i < rate) :
    byteToBits (byteAt s i)
      = (bitSponge (8 * rate) (bits_pos hr) Fips202.keccakF1600).readFrom (stateString s) (8 * i)
          8 := by
  refine ext_getD false _ _ (by rw [length_byteToBits, Sponge.length_readFrom]) (fun j hj => ?_)
  rw [length_byteToBits] at hj
  have hdiv : (8 * i + j) / 8 = i := by omega
  have hmod : (8 * i + j) % 8 = j := by omega
  rw [getD_byteToBits _ _ hj, getD_readFrom_bits _ _ _ _ _ _ hj,
    getD_stateString _ _ (by omega), hdiv, hmod]

/-- The machine over the bytes of the words and the machine over their bits
    run in step. -/
theorem refines :
    (wordSponge rate hr f1600).Refines
      (bitSponge (8 * rate) (bits_pos hr) Fips202.keccakF1600) 8 byteToBits
      (fun s S => S = stateString s) where
  rate_eq := rfl
  length_expand := length_byteToBits
  mix := by
    intro s t i b h hi
    subst h
    exact (mix_bits hr hn s i b hi).symm
  permute := by
    intro s t h
    subst h
    exact (stateString_f1600 s).symm
  read := by
    intro s t i h hi
    subst h
    exact read_bits hr hn s i hi

end Step

/-- The bytes that complete a block: the domain bits and the padding. -/
def padBytes (rate pos : ℕ) : List UInt8 :=
  if pos + 1 = rate then [0x9F]
  else 0x1F :: (List.replicate (rate - pos - 2) 0 ++ [0x80])

theorem length_padBytes (rate pos : ℕ) (h : pos < rate) :
    (padBytes rate pos).length = rate - pos := by
  unfold padBytes
  by_cases hlast : pos + 1 = rate
  · rw [if_pos hlast, List.length_singleton]
    omega
  · rw [if_neg hlast, List.length_cons, List.length_append, List.length_replicate,
      List.length_singleton]
    omega

/-- The padding bytes are the two padding words, each at its own position. -/
theorem getD_padBytes (rate pos i : ℕ) (h : pos < rate) :
    (padBytes rate pos).getD i 0
      = (if i = 0 then 0x1F else 0) ^^^ (if i = rate - pos - 1 then 0x80 else 0) := by
  unfold padBytes
  by_cases hlast : pos + 1 = rate
  · -- Both words are added to the one byte that is left.
    have hend : rate - pos - 1 = 0 := by omega
    rw [if_pos hlast, hend]
    cases i with
    | zero => rfl
    | succ i =>
        rw [List.getD_eq_default _ _ (Nat.succ_le_succ (Nat.zero_le i)), if_neg i.succ_ne_zero,
          if_neg i.succ_ne_zero, UInt8.xor_self]
  · rw [if_neg hlast]
    cases i with
    | zero =>
        rw [if_pos rfl, if_neg (by omega)]
        rfl
    | succ i =>
        rw [List.getD_cons_succ, if_neg i.succ_ne_zero, UInt8.zero_xor]
        by_cases hzero : i < rate - pos - 2
        · rw [List.getD_append _ _ _ _ (by rwa [List.length_replicate]),
            List.getD_replicate 0 hzero, if_neg (by omega)]
        · rw [List.getD_append_right _ _ _ _ (by rw [List.length_replicate]; omega),
            List.length_replicate]
          by_cases hend : i + 1 = rate - pos - 1
          · have hfirst : i - (rate - pos - 2) = 0 := by omega
            rw [if_pos hend, hfirst]
            rfl
          · rw [if_neg hend, List.getD_eq_default _ _ (by rw [List.length_singleton]; omega)]

theorem bytesToBits_zeros (k : ℕ) :
    bytesToBits (List.replicate k 0) = List.replicate (8 * k) false := by
  induction k with
  | zero => rfl
  | succ k ih =>
      have hbyte : byteToBits 0 = List.replicate 8 false := by decide
      rw [List.replicate_succ, bytesToBits, List.flatMap_cons, ← bytesToBits, ih, hbyte,
        List.replicate_append_replicate, Nat.mul_succ, Nat.add_comm]

/-- The padding bytes spell the domain bits and the standard's padding. -/
theorem bytesToBits_padBytes (rate len : ℕ) (hr : 0 < rate) :
    bytesToBits (padBytes rate (len % rate))
      = [true, true, true, true] ++ Fips202.pad10star1 (8 * rate) (8 * len + 4) := by
  have hpos := Nat.mod_lt len hr
  have hdiv := Nat.div_add_mod len rate
  generalize len / rate = q, len % rate = pos at hpos hdiv ⊢
  -- The number of zero bits.
  have hcount : ((-((8 * len + 4 : ℕ) : ℤ) - 2) % ((8 * rate : ℕ) : ℤ)).toNat
      = 8 * (rate - pos) - 6 := by
    have hshift : (-((8 * len + 4 : ℕ) : ℤ) - 2)
        = ((8 * (rate - pos) - 6 : ℕ) : ℤ) + ((8 * rate : ℕ) : ℤ) * (-(q : ℤ) - 1) := by
      have hsub : ((8 * (rate - pos) - 6 : ℕ) : ℤ) = 8 * ((rate : ℤ) - (pos : ℤ)) - 6 := by
        omega
      rw [hsub, ← hdiv]
      push_cast
      ring
    rw [hshift, Int.add_mul_emod_self_left, Int.emod_eq_of_lt (by omega) (by omega)]
    rfl
  unfold Fips202.pad10star1 padBytes
  rw [hcount]
  by_cases hlast : pos + 1 = rate
  · have htwo : 8 * (rate - pos) - 6 = 2 := by omega
    rw [if_pos hlast, htwo]
    decide
  · have hzeros : 8 * (rate - pos) - 6 = 3 + 8 * (rate - pos - 2) + 7 := by omega
    have hfirst : byteToBits 0x1F = [true, true, true, true, true] ++ List.replicate 3 false := by
      decide
    have hend : bytesToBits [0x80] = List.replicate 7 false ++ [true] := by decide
    rw [if_neg hlast, hzeros, List.replicate_add, List.replicate_add, bytesToBits,
      List.flatMap_cons, ← bytesToBits, bytesToBits_append, bytesToBits_zeros, hfirst, hend]
    simp only [List.append_assoc, List.cons_append, List.nil_append]

theorem bytesToBits_flatten (cs : List (List UInt8)) :
    bytesToBits cs.flatten = (cs.map bytesToBits).flatten := by
  induction cs with
  | nil => rfl
  | cons c cs ih => rw [List.flatten_cons, bytesToBits_append, ih, List.map_cons, List.flatten_cons]

theorem stateString_zero : stateString (Vector.replicate 25 0) = List.replicate 1600 false := by
  refine ext_getD false _ _ (by rw [length_stateString, List.length_replicate]) (fun i hi => ?_)
  rw [length_stateString] at hi
  have hword : i / 8 / 8 < 25 := by omega
  have hget : (Vector.replicate 25 (0 : BitVec 64)).get ⟨i / 8 / 8, hword⟩ = 0 :=
    Vector.getElem_replicate hword
  rw [getD_stateString _ _ hi, List.getD_replicate false hi]
  unfold byteAt wordAt
  rw [dif_pos hword, hget, UInt8.toBitVec_ofBitVec, BitVec.getLsbD_extractLsb',
    show (0 : BitVec 64).getLsbD _ = false from BitVec.getLsbD_zero, Bool.and_false]

section Hasher

variable {rate : ℕ} (hr : 0 < rate)

/-- The machine after absorbing a string. -/
def absorbed (M : List UInt8) : Words 25 × ℕ :=
  (wordSponge rate hr f1600).absorb (Vector.replicate 25 0, 0) M

/-- The state with the padding of a string added. -/
def paddedState (M : List UInt8) : Words 25 :=
  (wordSponge rate hr f1600).mixFrom (absorbed hr M).1 (absorbed hr M).2
    (padBytes rate (absorbed hr M).2)

/-- The first `n` bytes of the output on a string. -/
def shakeOutput (M : List UInt8) (n : ℕ) : List UInt8 :=
  ((wordSponge rate hr f1600).squeeze n (paddedState hr M, 0)).1

/-- The string without its whole blocks is still in the current block. -/
theorem absorbed_eq (M : List UInt8) :
    absorbed hr M
      = ((wordSponge rate hr f1600).mixFrom
          ((wordSponge rate hr f1600).absorb (Vector.replicate 25 0, 0)
            (chunksExact rate M).flatten).1 0 (remainder rate M), M.length % rate) := by
  have hwhole := fun c hc => length_of_mem_chunksExact rate M c hc
  have hblocks := (wordSponge rate hr f1600).absorb_blocks _ hwhole (Vector.replicate 25 0)
  unfold absorbed
  conv_lhs => rw [← flatten_chunksExact rate M]
  rw [Sponge.absorb_append, hblocks,
    Sponge.absorb_of_lt _ _ _ _ (by rw [Nat.zero_add]; exact length_remainder_lt rate M hr),
    Nat.zero_add, length_remainder]

/-- The output is the standard's. -/
theorem shakeOutput_eq (hn : rate ≤ 8 * 25) (M : List UInt8) (n : ℕ) :
    bytesToBits (shakeOutput hr M n)
      = Fips202.shake (1600 - 8 * rate) (bytesToBits M) (8 * n) := by
  have hrefines := refines hr hn
  have hwhole := fun c hc => length_of_mem_chunksExact rate M c hc
  -- The standard's blocks are the hasher's, the last one with its padding.
  have hsponge := sponge_eq (bits_pos hr) 1600 (by omega)
    length_keccakF1600
    (bytesToBits M ++ [true, true, true, true]) (8 * n)
    ((chunksExact rate M).map bytesToBits)
    (bytesToBits (remainder rate M ++ padBytes rate (M.length % rate))) ?_ ?_ ?_
  · have hcapacity : 1600 - (1600 - 8 * rate) = 8 * rate := by omega
    unfold Fips202.shake Fips202.keccak
    rw [hcapacity, hsponge, ← bytesToBits_flatten, ← stateString_zero]
    -- Absorbing, padding and squeezing in step.
    have habsorb := (hrefines.absorb (chunksExact rate M).flatten (Vector.replicate 25 0)
      (stateString (Vector.replicate 25 0)) 0 rfl hr).1
    have hfits : 0 + (remainder rate M ++ padBytes rate (M.length % rate)).length ≤ rate := by
      have h := Nat.mod_lt M.length hr
      rw [List.length_append, length_remainder, length_padBytes _ _ h]
      omega
    have hmix := hrefines.mixFrom (remainder rate M ++ padBytes rate (M.length % rate)) _ _ 0
      habsorb hfits
    have hsqueeze := hrefines.squeeze n _ _ 0 hmix hr
    have hpadded : paddedState hr M
        = (wordSponge rate hr f1600).mixFrom
            ((wordSponge rate hr f1600).absorb (Vector.replicate 25 0, 0)
              (chunksExact rate M).flatten).1 0
            (remainder rate M ++ padBytes rate (M.length % rate)) := by
      unfold paddedState
      rw [absorbed_eq, Sponge.mixFrom_append, length_remainder, Nat.zero_add]
    unfold shakeOutput
    rw [hpadded, Nat.mul_comm 8 n]
    exact hsqueeze.symm
  · rw [List.length_append, length_bytesToBits, List.length_cons, List.length_cons,
      List.length_cons, List.length_cons, List.length_nil, List.append_assoc,
      ← bytesToBits_padBytes rate M.length hr, ← bytesToBits_append, ← bytesToBits_flatten,
      ← bytesToBits_append, ← List.append_assoc, flatten_chunksExact]
  · intro c hc
    rw [List.mem_map] at hc
    rcases hc with ⟨chunk, hchunk, rfl⟩
    rw [length_bytesToBits, hwhole chunk hchunk]
  · have h := Nat.mod_lt M.length hr
    rw [length_bytesToBits, List.length_append, length_remainder,
      length_padBytes _ _ h]
    congr 1
    omega

end Hasher

namespace Shake

variable {rate : ℕ}

theorem rate_pos (self : Shake rate) : 0 < rate :=
  self.cursor.rate_pos

/-- The hasher has absorbed a string. -/
def Represents (self : Shake rate) (M : List UInt8) : Prop :=
  (self.state, self.cursor.pos) = absorbed self.rate_pos M

theorem represents_default (h : 0 < rate) : (Shake.default h).Represents [] := rfl

theorem represents_reset (self : Shake rate) : self.reset.Represents [] := rfl

theorem represents_update (target : Endian) (self : Shake rate) (M data : List UInt8)
    (h8 : rate % 8 = 0) (hn : rate ≤ 8 * 25) (h : self.Represents M) :
    (self.update target data).Represents (M ++ data) := by
  have hloop := absorbU64Le_eq f1600 target self.cursor self.state data h8 hn
  unfold Represents at h ⊢
  unfold update
  simp only
  rw [hloop, h]
  unfold absorbed
  rw [Sponge.absorb_append]

/-- The padding words add the padding bytes. -/
theorem pad_state (self : Shake rate) (h8 : rate % 8 = 0) (hn : rate ≤ 8 * 25) :
    self.pad.state
      = (wordSponge rate self.cursor.rate_pos f1600).mixFrom self.state self.cursor.pos
          (padBytes rate self.cursor.pos) := by
  have hpos := self.cursor.pos_lt
  have hlen := length_padBytes rate self.cursor.pos hpos
  -- The two words are single bytes, at the position and at the end.
  have hend : (1 <<< 63 : BitVec 64) = (0x80 : UInt8).toBitVec.setWidth 64 <<< (8 * 7) := by
    decide
  have hdiv : (rate - 1) / 8 = rate / 8 - 1 := by omega
  have hmod : (rate - 1) % 8 = 7 := by omega
  have hbytes : self.pad.state
      = xorByte (xorByte self.state self.cursor.pos 0x1F) (rate - 1) 0x80 := by
    unfold pad xorByte
    simp only
    rw [hdiv, hmod, ← hend]
    rfl
  rw [hbytes]
  refine words_ext _ _ (fun i hi => ?_)
  rw [byteAt_mixFrom _ _ _ _ _ _ (by omega), byteAt_xorByte _ _ _ _ (by omega),
    byteAt_xorByte _ _ _ _ (by omega), UInt8.xor_assoc]
  congr 1
  by_cases hle : self.cursor.pos ≤ i
  · have hfirst : i - self.cursor.pos = 0 ↔ self.cursor.pos = i := by omega
    have hlast : i - self.cursor.pos = rate - self.cursor.pos - 1 ↔ rate - 1 = i := by omega
    rw [if_pos hle, getD_padBytes _ _ _ hpos]
    simp only [hfirst, hlast]
  · -- The bytes before the position stay as they are.
    rw [if_neg hle, if_neg (by omega), if_neg (by omega)]
    rfl

theorem pad_state_of_represents (self : Shake rate) (M : List UInt8) (h8 : rate % 8 = 0)
    (hn : rate ≤ 8 * 25) (h : self.Represents M) :
    self.pad.state = paddedState self.cursor.rate_pos M := by
  unfold Represents at h
  unfold paddedState
  rw [pad_state self h8 hn, ← h]

end Shake

namespace ShakeReader

variable {rate : ℕ}

/-- The reader has given out the first `k` bytes of the output on a string. -/
def Represents (self : ShakeReader rate) (M : List UInt8) (k : ℕ) : Prop :=
  (self.state, self.cursor.pos)
    = ((wordSponge rate self.cursor.rate_pos f1600).squeeze k
        (paddedState self.cursor.rate_pos M, 0)).2

theorem represents_finalizeXof (self : Shake rate) (M : List UInt8) (h8 : rate % 8 = 0)
    (hn : rate ≤ 8 * 25) (h : self.Represents M) : self.finalizeXof.Represents M 0 := by
  have hpad := self.pad_state_of_represents M h8 hn h
  unfold Represents Shake.finalizeXof
  simp only
  rw [hpad]
  rfl

/-- A read gives out the next bytes. -/
theorem represents_read (target : Endian) (self : ShakeReader rate) (M buf : List UInt8)
    (k : ℕ) (h8 : rate % 8 = 0) (hn : rate ≤ 8 * 25) (h : self.Represents M k) :
    shakeOutput self.cursor.rate_pos M (k + buf.length)
        = shakeOutput self.cursor.rate_pos M k ++ (self.read target buf).1 ∧
      (self.read target buf).2.Represents M (k + buf.length) := by
  have hloop := squeezeReadU64Le_eq f1600 target self.cursor self.state buf h8 hn
  unfold Represents at h
  simp only at hloop
  rw [h] at hloop
  have hadd := (wordSponge rate self.cursor.rate_pos f1600).squeeze_add k buf.length
    (paddedState self.cursor.rate_pos M, 0)
  unfold shakeOutput Represents
  rw [hadd]
  unfold read
  refine ⟨?_, ?_⟩
  · rw [hloop.1]
  · exact hloop.2

end ShakeReader

/-- The byte with the given bits, least significant first. -/
def bitsToByte (bits : List Bool) : UInt8 :=
  UInt8.ofBitVec (bits.foldr (fun bit acc => (acc <<< 1) ||| (BitVec.ofBool bit).setWidth 8) 0)

/-- The bytes of a bit string. -/
def bitsToBytes (bits : List Bool) : List UInt8 :=
  (chunksExact 8 bits).map bitsToByte

theorem bitsToByte_byteToBits (b : UInt8) : bitsToByte (byteToBits b) = b := by
  have hall : ∀ v : BitVec 8, bitsToByte (byteToBits (UInt8.ofBitVec v)) = UInt8.ofBitVec v := by
    decide +kernel
  exact hall b.toBitVec

theorem bitsToBytes_bytesToBits (bs : List UInt8) : bitsToBytes (bytesToBits bs) = bs := by
  have hlen : ∀ c ∈ bs.map byteToBits, c.length = 8 := by
    intro c hc
    rw [List.mem_map] at hc
    rcases hc with ⟨b, _, rfl⟩
    exact length_byteToBits b
  unfold bitsToBytes bytesToBits
  rw [List.flatMap_def, chunksExact_flatten 8 (by omega) _ hlen, List.map_map]
  calc bs.map (bitsToByte ∘ byteToBits)
      = bs.map id := List.map_congr_left (fun b _ => bitsToByte_byteToBits b)
    _ = bs := List.map_id bs

/-- The first `n` bytes of the standard's function. -/
def fips202Bytes (M : List UInt8) (n : ℕ) : List UInt8 :=
  bitsToBytes (Fips202.shake256 (bytesToBits M) (8 * n))

theorem fips202Bytes_eq (M : List UInt8) (n : ℕ) :
    fips202Bytes M n = shakeOutput (show 0 < 136 by decide) M n := by
  have h := shakeOutput_eq (show 0 < 136 by decide) (by decide) M n
  unfold fips202Bytes Fips202.shake256
  rw [← bitsToBytes_bytesToBits (shakeOutput _ M n), h]

/-- Updating with parts absorbs their concatenation. -/
theorem Shake.represents_updates (target : Endian) {rate : ℕ} (h8 : rate % 8 = 0)
    (hn : rate ≤ 8 * 25) (parts : List (List UInt8)) :
    ∀ (self : Shake rate) (M : List UInt8), self.Represents M →
      (parts.foldl (Shake.update target) self).Represents (M ++ parts.flatten) := by
  induction parts with
  | nil =>
      intro self M h
      rw [List.flatten_nil, List.append_nil]
      exact h
  | cons part parts ih =>
      intro self M h
      rw [List.foldl_cons, List.flatten_cons, ← List.append_assoc]
      exact ih _ _ (represents_update target self M part h8 hn h)

/-- The transcript hash is the standard's function of the concatenation. -/
theorem shakeHashParts_eq (target : Endian) (parts : List (List UInt8)) :
    shakeHashParts target parts = fips202Bytes parts.flatten 76 := by
  have habsorbed := Shake.represents_updates target (by decide) (by decide) parts
    (Shake.default (by decide) : Shake 136) [] (Shake.represents_default _)
  have hreader := ShakeReader.represents_finalizeXof _ _ (by decide) (by decide) habsorbed
  have hread := (ShakeReader.represents_read target _ _ (List.replicate 76 0) 0 (by decide)
    (by decide) hreader).1
  rw [List.length_replicate, Nat.zero_add, List.nil_append] at hread
  rw [fips202Bytes_eq, hread]
  rfl

theorem length_fips202Bytes (M : List UInt8) (n : ℕ) : (fips202Bytes M n).length = n := by
  rw [fips202Bytes_eq]
  exact Sponge.length_squeeze _ _ _

end Ed301
