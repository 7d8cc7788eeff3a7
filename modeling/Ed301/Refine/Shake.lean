import Ed301.Core.Shake
import Mathlib.Data.List.GetD

/-!
# The Cursor against the Sponge Machine

The loops of the cursor are the machine that takes and gives single bytes.

Everything that touches the words is described by what it does to each byte
of the state, `byteAt`, since a state is determined by its bytes. The view of
the words as bytes, on either kind of target, the chunks of eight bytes and
the single padding words all come out as additions of bytes at positions, and
so as `mixFrom` of one sponge. The loops then only split their data where the
machine permutes.

## Main definitions

* `byteAt`: A byte of the state.
* `wordSponge`: The sponge of a permutation on words, byte by byte.

## Theorems

* `absorbPartial_eq`, `absorbFull_eq`: Adding bytes to the words, on either
  target.
* `squeezeReadPartial_eq`, `squeezeXorPartial_eq`, ...: Taking bytes from
  them.
* `absorbU64Le_eq`: The absorbing loop is the machine.
* `squeezeInnerU64Le_eq`: The squeezing loop is the machine.
* `squeezeReadU64Le_eq`, `squeezeXorU64Le_eq`: Its two uses.
-/

namespace Ed301

/-- A bit of a word read from bytes. -/
theorem getLsbD_fromLeBytes (chunk : List UInt8) :
    ∀ z, z < 64 →
      (fromLeBytes chunk).getLsbD z = (chunk.getD (z / 8) 0).toBitVec.getLsbD (z % 8) := by
  induction chunk with
  | nil =>
      intro z _
      simp [fromLeBytes]
  | cons b rest ih =>
      intro z hz
      have hunfold : fromLeBytes (b :: rest)
          = (fromLeBytes rest <<< 8) ||| b.toBitVec.setWidth 64 := rfl
      rw [hunfold, BitVec.getLsbD_or, BitVec.getLsbD_shiftLeft, BitVec.getLsbD_setWidth]
      by_cases h8 : z < 8
      · have hdiv : z / 8 = 0 := by omega
        have hmod : z % 8 = z := by omega
        simp [h8, hz, hdiv, hmod]
      · -- Past the first byte the position moves to the rest.
        have hdiv : z / 8 = (z - 8) / 8 + 1 := by omega
        have hmod : z % 8 = (z - 8) % 8 := by omega
        have hout : b.toBitVec.getLsbD z = false := BitVec.getLsbD_of_ge _ _ (by omega)
        rw [ih (z - 8) (by omega), hout, hdiv, hmod, List.getD_cons_succ]
        simp [h8, hz]

/-- The bytes of a word read from bytes. -/
theorem byte_fromLeBytes (chunk : List UInt8) (k : ℕ) (hk : k < 8) :
    UInt8.ofBitVec ((fromLeBytes chunk).extractLsb' (8 * k) 8) = chunk.getD k 0 := by
  refine UInt8.toBitVec_inj.mp (BitVec.eq_of_getLsbD_eq (fun z hz => ?_))
  have hdiv : (8 * k + z) / 8 = k := by omega
  have hmod : (8 * k + z) % 8 = z := by omega
  rw [UInt8.toBitVec_ofBitVec, BitVec.getLsbD_extractLsb', decide_eq_true hz, Bool.true_and,
    getLsbD_fromLeBytes chunk _ (by omega), hdiv, hmod]

@[simp] theorem length_toLeBytes (word : BitVec 64) : (toLeBytes word).length = 8 := by
  unfold toLeBytes
  rw [List.length_map, List.length_range]

theorem getD_toLeBytes (word : BitVec 64) (k : ℕ) (hk : k < 8) :
    (toLeBytes word).getD k 0 = UInt8.ofBitVec (word.extractLsb' (8 * k) 8) := by
  unfold toLeBytes
  rw [List.getD_eq_getElem _ _ (by simpa using hk), List.getElem_map, List.getElem_range]

/-- Words with the same bytes are equal. -/
theorem word_ext (v w : BitVec 64)
    (h : ∀ k, k < 8 → UInt8.ofBitVec (v.extractLsb' (8 * k) 8)
      = UInt8.ofBitVec (w.extractLsb' (8 * k) 8)) : v = w := by
  refine BitVec.eq_of_getLsbD_eq (fun z hz => ?_)
  have hbyte := congrArg UInt8.toBitVec (h (z / 8) (by omega))
  have hbit := congrArg (fun b : BitVec 8 => b.getLsbD (z % 8)) hbyte
  have hz8 : z % 8 < 8 := Nat.mod_lt _ (by omega)
  have hpos : 8 * (z / 8) + z % 8 = z := by omega
  simp only [BitVec.getLsbD_extractLsb', hz8, decide_true, Bool.true_and, hpos] at hbit
  exact hbit

section State

variable {n : ℕ}

/-- The word at a position. -/
def wordAt (state : Words n) (k : ℕ) : BitVec 64 :=
  if h : k < n then state.get ⟨k, h⟩ else 0

/-- The byte at a position. -/
def byteAt (state : Words n) (i : ℕ) : UInt8 :=
  UInt8.ofBitVec ((wordAt state (i / 8)).extractLsb' (8 * (i % 8)) 8)

/-- Add a byte at a position. -/
def xorByte (state : Words n) (i : ℕ) (b : UInt8) : Words n :=
  xorWord state (i / 8) (b.toBitVec.setWidth 64 <<< (8 * (i % 8)))

theorem wordAt_ofFn (f : Fin n → BitVec 64) (k : ℕ) (h : k < n) :
    wordAt (Vector.ofFn f) k = f ⟨k, h⟩ := by
  unfold wordAt
  rw [dif_pos h]
  change (Vector.ofFn f)[k] = _
  rw [Vector.getElem_ofFn]

/-- A state is determined by its bytes. -/
theorem words_ext (s t : Words n) (h : ∀ i, i < 8 * n → byteAt s i = byteAt t i) : s = t := by
  refine Vector.ext (fun k hk => ?_)
  have hword : wordAt s k = wordAt t k := by
    refine word_ext _ _ (fun j hj => ?_)
    have hbyte := h (8 * k + j) (by omega)
    have hdiv : (8 * k + j) / 8 = k := by omega
    have hmod : (8 * k + j) % 8 = j := by omega
    unfold byteAt at hbyte
    rwa [hdiv, hmod] at hbyte
  unfold wordAt at hword
  rw [dif_pos hk, dif_pos hk] at hword
  exact hword

theorem getD_viewBytes_list (words : List (BitVec 64)) :
    ∀ i, (words.flatMap toLeBytes).getD i 0
      = UInt8.ofBitVec ((words.getD (i / 8) 0).extractLsb' (8 * (i % 8)) 8) := by
  induction words with
  | nil =>
      intro i
      simp
  | cons word words ih =>
      intro i
      rw [List.flatMap_cons]
      by_cases h8 : i < 8
      · have hdiv : i / 8 = 0 := by omega
        have hmod : i % 8 = i := by omega
        rw [List.getD_append _ _ _ _ (by rw [length_toLeBytes]; exact h8),
          getD_toLeBytes _ _ h8, hdiv, hmod]
        rfl
      · have hdiv : i / 8 = (i - 8) / 8 + 1 := by omega
        have hmod : i % 8 = (i - 8) % 8 := by omega
        rw [List.getD_append_right _ _ _ _ (by rw [length_toLeBytes]; omega), length_toLeBytes,
          ih, hdiv, hmod, List.getD_cons_succ]

theorem getD_toList (state : Words n) (k : ℕ) : state.toList.getD k 0 = wordAt state k := by
  unfold wordAt
  by_cases h : k < n
  · rw [dif_pos h, List.getD_eq_getElem _ _ (by rwa [Vector.length_toList])]
    rfl
  · rw [dif_neg h, List.getD_eq_default _ _ (by rw [Vector.length_toList]; omega)]

theorem getD_viewBytes (state : Words n) (i : ℕ) :
    (viewBytes state).getD i 0 = byteAt state i := by
  unfold viewBytes byteAt
  rw [getD_viewBytes_list, getD_toList]

theorem length_flatMap_toLeBytes (words : List (BitVec 64)) :
    (words.flatMap toLeBytes).length = 8 * words.length := by
  induction words with
  | nil => rfl
  | cons word words ih =>
      rw [List.flatMap_cons, List.length_append, ih, length_toLeBytes, List.length_cons]
      omega

theorem length_viewBytes (state : Words n) : (viewBytes state).length = 8 * n := by
  unfold viewBytes
  rw [length_flatMap_toLeBytes, Vector.length_toList]

/-- A byte of a chunk of eight. -/
theorem getD_chunk (bytes : List UInt8) (start k : ℕ) (hk : k < 8) :
    ((bytes.drop start).take 8).getD k 0 = bytes.getD (start + k) 0 := by
  rw [List.getD_eq_getElem?_getD, List.getD_eq_getElem?_getD, List.getElem?_take, if_pos hk,
    List.getElem?_drop]

theorem byteAt_ofView (bytes : List UInt8) (i : ℕ) (h : i < 8 * n) :
    byteAt (ofView n bytes) i = bytes.getD i 0 := by
  have hk : i % 8 < 8 := Nat.mod_lt _ (by omega)
  have hpos : 8 * (i / 8) + i % 8 = i := by omega
  unfold byteAt ofView
  rw [wordAt_ofFn _ _ (by omega), byte_fromLeBytes _ _ hk, getD_chunk _ _ _ hk, hpos]

theorem byte_xor (v w : BitVec 64) (k : ℕ) :
    UInt8.ofBitVec ((v ^^^ w).extractLsb' k 8)
      = UInt8.ofBitVec (v.extractLsb' k 8) ^^^ UInt8.ofBitVec (w.extractLsb' k 8) := by
  rw [BitVec.extractLsb'_xor]
  rfl

theorem byteAt_xorChunks (state : Words n) (block : List UInt8) (h8 : block.length % 8 = 0)
    (i : ℕ) (h : i < 8 * n) :
    byteAt (xorChunks state (chunksExact 8 block)) i = byteAt state i ^^^ block.getD i 0 := by
  have hk : i % 8 < 8 := Nat.mod_lt _ (by omega)
  have hword : i / 8 < n := by omega
  have hpos : i / 8 * 8 + i % 8 = i := by omega
  unfold byteAt xorChunks
  rw [wordAt_ofFn _ _ hword]
  unfold chunksExact wordAt
  rw [dif_pos hword, List.getElem?_map]
  by_cases hin : i / 8 < block.length / 8
  · rw [List.getElem?_range hin]
    simp only [Option.map_some]
    rw [byte_xor, byte_fromLeBytes _ _ hk, getD_chunk _ _ _ hk, hpos]
  · -- There is no chunk here, and no byte to add.
    have hrange : (List.range (block.length / 8))[i / 8]? = none := by
      rw [List.getElem?_eq_none_iff, List.length_range]
      omega
    rw [hrange, List.getD_eq_default _ _ (by omega)]
    simp only [Option.map_none]
    exact (UInt8.xor_zero).symm

theorem wordAt_xorWord (state : Words n) (i k : ℕ) (v : BitVec 64) (h : i < n) :
    wordAt (xorWord state i v) k = if i = k then wordAt state k ^^^ v else wordAt state k := by
  unfold xorWord wordAt
  rw [dif_pos h]
  by_cases hk : k < n
  · rw [dif_pos hk, dif_pos hk]
    change (state.set i _ h)[k] = _
    rw [Vector.getElem_set]
    by_cases hik : i = k
    · subst hik
      rw [if_pos rfl, if_pos rfl]
    · rw [if_neg hik, if_neg hik]
      rfl
  · rw [dif_neg hk, dif_neg hk, if_neg (by omega)]

/-- A shifted byte has one byte. -/
theorem byte_shift (b : BitVec 8) (j k : ℕ) (hj : j < 8) (hk : k < 8) :
    UInt8.ofBitVec ((b.setWidth 64 <<< (8 * j)).extractLsb' (8 * k) 8)
      = if j = k then UInt8.ofBitVec b else 0 := by
  refine UInt8.toBitVec_inj.mp (BitVec.eq_of_getLsbD_eq (fun z hz => ?_))
  rw [UInt8.toBitVec_ofBitVec, BitVec.getLsbD_extractLsb', BitVec.getLsbD_shiftLeft,
    BitVec.getLsbD_setWidth]
  by_cases hjk : j = k
  · subst hjk
    rw [if_pos rfl]
    have hlt : ¬ 8 * j + z < 8 * j := by omega
    have h64 : 8 * j + z < 64 := by omega
    have hz64 : z < 64 := by omega
    simp [hz, h64, hz64, hlt]
  · -- The other bytes lie below the shift or past the eight bits.
    rw [if_neg hjk]
    have hzero : (0 : UInt8).toBitVec.getLsbD z = false := BitVec.getLsbD_zero
    rw [hzero]
    by_cases hlt : 8 * k + z < 8 * j
    · simp [hlt]
    · have hout : b.getLsbD (8 * k + z - 8 * j) = false := BitVec.getLsbD_of_ge _ _ (by omega)
      simp [hout]

theorem byteAt_xorByte (state : Words n) (i j : ℕ) (b : UInt8) (hi : i < 8 * n) :
    byteAt (xorByte state i b) j = byteAt state j ^^^ (if i = j then b else 0) := by
  have hi8 : i % 8 < 8 := Nat.mod_lt _ (by omega)
  have hj8 : j % 8 < 8 := Nat.mod_lt _ (by omega)
  unfold byteAt xorByte
  rw [wordAt_xorWord _ _ _ _ (by omega)]
  -- Another byte of the same word is changed by the zeros of the shift.
  by_cases hword : i / 8 = j / 8
  · rw [if_pos hword, byte_xor, byte_shift _ _ _ hi8 hj8]
    congr 1
    by_cases hij : i = j
    · rw [if_pos hij, if_pos (by rw [hij])]
    · rw [if_neg hij, if_neg (by omega)]
  · have hij : i ≠ j := fun h => hword (by rw [h])
    rw [if_neg hword, if_neg hij]
    exact (UInt8.xor_zero).symm

end State

/-- The sponge that adds and reads the bytes of the words. -/
def wordSponge {n : ℕ} (rate : ℕ) (h : 0 < rate) (f : Words n → Words n) :
    Sponge (Words n) UInt8 where
  rate := rate
  rate_pos := h
  mix := xorByte
  read := byteAt
  permute := f

section Loops

variable {n rate : ℕ} (hr : 0 < rate) (f : Words n → Words n)

/-- What several bytes add to each byte of the state. -/
theorem byteAt_mixFrom (data : List UInt8) :
    ∀ (s : Words n) (off i : ℕ), off + data.length ≤ 8 * n →
      byteAt ((wordSponge rate hr f).mixFrom s off data) i
        = byteAt s i ^^^ (if off ≤ i then data.getD (i - off) 0 else 0) := by
  induction data with
  | nil =>
      intro s off i _
      simp
  | cons b data ih =>
      intro s off i h
      rw [List.length_cons] at h
      rw [Sponge.mixFrom_cons, ih _ _ _ (by omega)]
      -- The first byte goes to its own position, the others to later ones.
      have hone : byteAt ((wordSponge rate hr f).mix s off b) i
          = byteAt s i ^^^ (if off = i then b else 0) :=
        byteAt_xorByte s off i b (by omega)
      rw [hone, UInt8.xor_assoc]
      congr 1
      by_cases heq : off = i
      · subst heq
        rw [if_pos rfl, if_neg (by omega), if_pos (Nat.le_refl _), Nat.sub_self,
          List.getD_cons_zero]
        exact UInt8.xor_zero
      · rw [if_neg heq]
        by_cases hle : off + 1 ≤ i
        · have hsub : i - off = (i - (off + 1)) + 1 := by omega
          rw [if_pos hle, if_pos (by omega), hsub, List.getD_cons_succ]
          exact UInt8.zero_xor
        · rw [if_neg hle, if_neg (by omega)]
          exact UInt8.zero_xor

theorem absorbFull_eq (s : Words n) (block : List UInt8) (h8 : block.length % 8 = 0)
    (hn : block.length ≤ 8 * n) :
    absorbFull s block = (wordSponge rate hr f).mixFrom s 0 block := by
  refine words_ext _ _ (fun i hi => ?_)
  unfold absorbFull
  rw [byteAt_xorChunks s block h8 i hi, byteAt_mixFrom hr f block s 0 i (by omega),
    if_pos (Nat.zero_le i), Nat.sub_zero]

/-- A byte of the view of a little-endian target after the addition. -/
theorem getD_xor_view (bytes data : List UInt8) (off i : ℕ)
    (h : off + data.length ≤ bytes.length) :
    (bytes.take off ++ List.zipWith (· ^^^ ·) (bytes.drop off) data
        ++ bytes.drop (off + data.length)).getD i 0
      = bytes.getD i 0 ^^^ (if off ≤ i then data.getD (i - off) 0 else 0) := by
  have hlen : (bytes.take off).length = off := by
    rw [List.length_take]
    omega
  have hzip : (List.zipWith (· ^^^ ·) (bytes.drop off) data).length = data.length := by
    rw [List.length_zipWith, List.length_drop]
    omega
  rw [List.append_assoc]
  by_cases hbefore : i < off
  · rw [List.getD_append _ _ _ _ (by omega), if_neg (by omega), List.getD_eq_getElem?_getD,
      List.getElem?_take, if_pos hbefore, ← List.getD_eq_getElem?_getD]
    exact (UInt8.xor_zero).symm
  · rw [List.getD_append_right _ _ _ _ (by omega), hlen, if_pos (by omega)]
    by_cases hinside : i - off < data.length
    · rw [List.getD_append _ _ _ _ (by omega), List.getD_eq_getElem _ _ (by omega),
        List.getElem_zipWith, List.getElem_drop, List.getD_eq_getElem _ _ hinside,
        List.getD_eq_getElem _ _ (by omega)]
      congr 2
      omega
    · -- Past the data the view is unchanged.
      rw [List.getD_append_right _ _ _ _ (by omega), hzip,
        List.getD_eq_default data _ (by omega), List.getD_eq_getElem?_getD, List.getElem?_drop,
        ← List.getD_eq_getElem?_getD, show off + data.length + (i - off - data.length) = i by omega]
      exact (UInt8.xor_zero).symm

/-- A byte of the buffer a big-endian target converts. -/
theorem getD_padded (data : List UInt8) (off rest i : ℕ) :
    (List.replicate off 0 ++ data ++ List.replicate rest 0).getD i 0
      = if off ≤ i then data.getD (i - off) (0 : UInt8) else 0 := by
  rw [List.append_assoc]
  by_cases hbefore : i < off
  · rw [List.getD_append _ _ _ _ (by rwa [List.length_replicate]), if_neg (by omega),
      List.getD_replicate 0 hbefore]
  · rw [List.getD_append_right _ _ _ _ (by rw [List.length_replicate]; omega),
      List.length_replicate, if_pos (by omega)]
    by_cases hinside : i - off < data.length
    · rw [List.getD_append _ _ _ _ hinside]
    · rw [List.getD_append_right _ _ _ _ (by omega), List.getD_eq_default data _ (by omega)]
      by_cases hlt : i - off - data.length < rest
      · rw [List.getD_replicate 0 hlt]
      · rw [List.getD_eq_default _ _ (by rw [List.length_replicate]; omega)]

/-- Both targets add the same bytes. -/
theorem absorbPartial_eq (target : Endian) (s : Words n) (off : ℕ) (data : List UInt8)
    (h8 : rate % 8 = 0) (hn : rate ≤ 8 * n) (h : off + data.length ≤ rate) :
    absorbPartial target rate s off data = (wordSponge rate hr f).mixFrom s off data := by
  refine words_ext _ _ (fun i hi => ?_)
  rw [byteAt_mixFrom hr f data s off i (by omega)]
  cases target with
  | little =>
      unfold absorbPartial
      simp only
      rw [byteAt_ofView _ _ hi, getD_xor_view _ _ _ _ (by rw [length_viewBytes]; omega),
        getD_viewBytes]
  | big =>
      -- The buffer that is converted has a whole number of words.
      have hlen : (List.replicate off 0 ++ data
          ++ List.replicate (rate - (off + data.length)) 0).length = rate := by
        rw [List.length_append, List.length_append, List.length_replicate, List.length_replicate]
        omega
      unfold absorbPartial
      simp only
      rw [byteAt_xorChunks _ _ (by rw [hlen]; exact h8) i hi, getD_padded]

theorem getD_readFrom (s : Words n) (off len i : ℕ) (h : i < len) :
    ((wordSponge rate hr f).readFrom s off len).getD i 0 = byteAt s (off + i) := by
  unfold Sponge.readFrom
  rw [List.getD_eq_getElem _ _ (by simpa using h), List.getElem_map, List.getElem_range]
  rfl

theorem length_subState (target : Endian) (s : Words n) (h8 : rate % 8 = 0)
    (hn : rate ≤ 8 * n) : (subState target rate s).length = rate := by
  cases target with
  | little =>
      unfold subState
      simp only
      rw [List.length_take, length_viewBytes]
      omega
  | big =>
      unfold subState
      simp only
      rw [length_flatMap_toLeBytes, List.length_take, Vector.length_toList]
      omega

theorem getD_subState (target : Endian) (s : Words n) (i : ℕ) (h8 : rate % 8 = 0)
    (h : i < rate) : (subState target rate s).getD i 0 = byteAt s i := by
  cases target with
  | little =>
      unfold subState
      simp only
      rw [List.getD_eq_getElem?_getD, List.getElem?_take, if_pos h, ← List.getD_eq_getElem?_getD,
        getD_viewBytes]
  | big =>
      unfold subState byteAt
      simp only
      rw [getD_viewBytes_list, List.getD_eq_getElem?_getD, List.getElem?_take,
        if_pos (by omega), ← List.getD_eq_getElem?_getD, getD_toList]

/-- Both targets read the same bytes. -/
theorem slice_subState (target : Endian) (s : Words n) (off len : ℕ) (h8 : rate % 8 = 0)
    (hn : rate ≤ 8 * n) (h : off + len ≤ rate) :
    ((subState target rate s).drop off).take len = (wordSponge rate hr f).readFrom s off len := by
  have hlen := length_subState target s h8 hn
  have hslice : (((subState target rate s).drop off).take len).length = len := by
    rw [List.length_take, List.length_drop, hlen]
    omega
  refine ext_getD 0 _ _ (by rw [hslice, Sponge.length_readFrom]) (fun i hi => ?_)
  rw [hslice] at hi
  rw [getD_readFrom hr f s off len i hi, List.getD_eq_getElem?_getD, List.getElem?_take,
    if_pos hi, List.getElem?_drop, ← List.getD_eq_getElem?_getD,
    getD_subState target s _ h8 (by omega)]

theorem squeezeReadFull_eq (s : Words n) (block : List UInt8) (h8 : rate % 8 = 0)
    (hn : rate ≤ 8 * n) :
    squeezeReadFull rate s block = (wordSponge rate hr f).readFrom s 0 rate := by
  -- A whole block is converted word by word, as the big-endian view is.
  have h := slice_subState hr f .big s 0 rate h8 hn (by omega)
  have hlen := length_subState Endian.big s h8 hn
  rw [List.drop_zero, List.take_of_length_le (by omega)] at h
  exact h

/-- Adding whole words of output to chunks of the buffer. -/
theorem squeezeXorFull_eq (s : Words n) (block : List UInt8) (h8 : rate % 8 = 0)
    (hn : rate ≤ 8 * n) (h : block.length = rate) :
    squeezeXorFull rate s block
      = List.zipWith (· ^^^ ·) block ((wordSponge rate hr f).readFrom s 0 rate) := by
  have hunfold : squeezeXorFull rate s block
      = (List.zipWith (fun src chunk => fromLeBytes chunk ^^^ src) s.toList
          (chunksExact 8 block)).flatMap toLeBytes := by
    unfold squeezeXorFull
    rw [List.flatMap_def, List.map_zipWith]
  have hchunks : (chunksExact 8 block).length = rate / 8 := by
    unfold chunksExact
    rw [List.length_map, List.length_range, h]
  have hwords : (List.zipWith (fun src chunk => fromLeBytes chunk ^^^ src) s.toList
      (chunksExact 8 block)).length = rate / 8 := by
    rw [List.length_zipWith, hchunks, Vector.length_toList]
    omega
  rw [hunfold]
  refine ext_getD 0 _ _ ?_ (fun i hi => ?_)
  · rw [length_flatMap_toLeBytes, hwords, List.length_zipWith, Sponge.length_readFrom, h]
    omega
  · rw [length_flatMap_toLeBytes, hwords] at hi
    have hk : i % 8 < 8 := Nat.mod_lt _ (by omega)
    have hpos : i / 8 * 8 + i % 8 = i := by omega
    have hread : (((wordSponge rate hr f).readFrom s 0 rate).getD i 0) = byteAt s i := by
      rw [getD_readFrom hr f s 0 rate i (by omega), Nat.zero_add]
    -- The byte of the word is that of the chunk plus that of the state.
    rw [getD_viewBytes_list, List.getD_eq_getElem _ _ (by omega), List.getElem_zipWith, byte_xor,
      byte_fromLeBytes _ _ hk, List.getD_eq_getElem (List.zipWith _ _ _) _ (by
        rw [List.length_zipWith, Sponge.length_readFrom]
        omega), List.getElem_zipWith]
    rw [List.getD_eq_getElem _ _ (by rw [Sponge.length_readFrom]; omega)] at hread
    rw [hread]
    unfold chunksExact
    rw [List.getElem_map, List.getElem_range, getD_chunk _ _ _ hk, hpos,
      List.getD_eq_getElem _ _ (by omega)]
    congr 1
    unfold byteAt
    rw [← getD_toList, List.getD_eq_getElem _ _ (by rw [Vector.length_toList]; omega)]

theorem squeezeReadPartial_eq (target : Endian) (s : Words n) (off : ℕ) (dst : List UInt8)
    (h8 : rate % 8 = 0) (hn : rate ≤ 8 * n) (h : off + dst.length ≤ rate) :
    squeezeReadPartial target rate s off dst
      = (wordSponge rate hr f).readFrom s off dst.length :=
  slice_subState hr f target s off dst.length h8 hn h

theorem squeezeXorPartial_eq (target : Endian) (s : Words n) (off : ℕ) (dst : List UInt8)
    (h8 : rate % 8 = 0) (hn : rate ≤ 8 * n) (h : off + dst.length ≤ rate) :
    squeezeXorPartial target rate s off dst
      = List.zipWith (· ^^^ ·) dst ((wordSponge rate hr f).readFrom s off dst.length) := by
  unfold squeezeXorPartial
  rw [slice_subState hr f target s off dst.length h8 hn h]

theorem absorbBlocks_eq (target : Endian) (s : Words n) (data : List UInt8)
    (h8 : rate % 8 = 0) (hn : rate ≤ 8 * n) :
    ((SpongeCursor.absorbBlocks target hr s f data).2,
        (SpongeCursor.absorbBlocks target hr s f data).1.pos)
      = (wordSponge rate hr f).absorb (s, 0) data := by
  have htail := length_remainder_lt rate data hr
  have hwhole := fun c hc => length_of_mem_chunksExact rate data c hc
  -- Block by block, the loop and the machine do the same.
  have hblocks : (chunksExact rate data).foldl (fun s b => f (absorbFull s b)) s
      = (chunksExact rate data).foldl (wordSponge rate hr f).absorbBlock s := by
    refine List.foldl_ext _ _ s (fun s b hb => ?_)
    have hb := hwhole b hb
    rw [absorbFull_eq hr f s b (by rw [hb]; exact h8) (by rw [hb]; exact hn)]
    rfl
  conv_rhs => rw [← flatten_chunksExact rate data]
  rw [Sponge.absorb_append, Sponge.absorb_blocks _ _ hwhole,
    Sponge.absorb_of_lt _ _ _ _ (by rw [Nat.zero_add]; exact htail), Nat.zero_add]
  unfold SpongeCursor.absorbBlocks
  simp only
  rw [hblocks]
  by_cases hnil : remainder rate data = []
  · rw [if_neg (fun h => h hnil), hnil]
    rfl
  · rw [if_pos hnil, absorbPartial_eq hr f target _ 0 _ h8 hn (by omega)]

/-- The absorbing loop is the machine. -/
theorem absorbU64Le_eq (target : Endian) (cursor : SpongeCursor rate) (s : Words n)
    (data : List UInt8) (h8 : rate % 8 = 0) (hn : rate ≤ 8 * n) :
    ((cursor.absorbU64Le target s f data).2, (cursor.absorbU64Le target s f data).1.pos)
      = (wordSponge rate cursor.rate_pos f).absorb (s, cursor.pos) data := by
  have hpos := cursor.pos_lt
  unfold SpongeCursor.absorbU64Le
  -- Whether a block is started, and then whether the data completes it.
  by_cases h0 : cursor.pos = 0
  · rw [if_neg (fun h => h h0), h0]
    exact absorbBlocks_eq cursor.rate_pos f target s data h8 hn
  · rw [if_pos h0]
    simp only
    by_cases hlt : data.length < rate - cursor.pos
    · -- The data stays inside the started block.
      rw [dif_pos hlt, Sponge.absorb_of_lt _ _ _ _ (cursor.pos_add_lt _ hlt),
        absorbPartial_eq cursor.rate_pos f target s cursor.pos data h8 hn (by omega)]
    · -- The data completes the started block first.
      have hhead : (data.take (rate - cursor.pos)).length = rate - cursor.pos := by
        rw [List.length_take]
        omega
      have hfill := (wordSponge rate cursor.rate_pos f).absorb_fill
        (data.take (rate - cursor.pos)) s cursor.pos hpos
        (by rw [hhead]; exact Nat.add_sub_cancel' hpos.le)
      rw [dif_neg hlt, absorbBlocks_eq cursor.rate_pos f target _ _ h8 hn]
      conv_rhs => rw [← List.take_append_drop (rate - cursor.pos) data]
      rw [Sponge.absorb_append, hfill,
        absorbPartial_eq cursor.rate_pos f target s cursor.pos _ h8 hn (by omega)]
      rfl

section Squeeze

variable (processPartial : Words n → ℕ → List UInt8 → List UInt8)
  (processFull : Words n → List UInt8 → List UInt8)
  (combine : List UInt8 → List UInt8 → List UInt8)

/-- The processing functions combine the buffer with the output, piece by
    piece. -/
structure Combines : Prop where
  nil : combine [] [] = []
  append : ∀ a b c d, a.length = c.length → combine (a ++ b) (c ++ d) = combine a c ++ combine b d
  partialBlock : ∀ s off dst, off + dst.length ≤ rate →
    processPartial s off dst = combine dst ((wordSponge rate hr f).readFrom s off dst.length)
  fullBlock : ∀ s block, block.length = rate →
    processFull s block = combine block ((wordSponge rate hr f).readFrom s 0 rate)

variable {processPartial processFull combine}

theorem squeezeFullBlocks_eq (h : Combines hr f processPartial processFull combine)
    (blocks : List (List UInt8)) :
    (∀ b ∈ blocks, b.length = rate) → ∀ s : Words n,
      SpongeCursor.squeezeFullBlocks f processFull blocks s
          = (combine blocks.flatten
              ((wordSponge rate hr f).squeeze (blocks.length * rate) (s, 0)).1,
            ((wordSponge rate hr f).squeeze (blocks.length * rate) (s, 0)).2.1) ∧
        ((wordSponge rate hr f).squeeze (blocks.length * rate) (s, 0)).2.2 = 0 := by
  induction blocks with
  | nil =>
      intro _ s
      rw [List.length_nil, Nat.zero_mul, Sponge.squeeze_zero, List.flatten_nil, h.nil]
      exact ⟨rfl, rfl⟩
  | cons block blocks ih =>
      intro hlen s
      have hblock := hlen block List.mem_cons_self
      rcases ih (fun b hb => hlen b (List.mem_cons_of_mem _ hb)) (f s) with ⟨hrest, hpos⟩
      -- The permutation comes before the block it gives out.
      have hone : (wordSponge rate hr f).squeeze rate (s, 0)
          = ((wordSponge rate hr f).readFrom (f s) 0 rate, f s, 0) :=
        (wordSponge rate hr f).squeeze_block s
      rw [List.length_cons, Nat.succ_mul, Nat.add_comm, Sponge.squeeze_add, hone,
        List.flatten_cons, h.append _ _ _ _ (by rw [hblock, Sponge.length_readFrom]),
        ← h.fullBlock _ _ hblock]
      unfold SpongeCursor.squeezeFullBlocks
      simp only
      rw [hrest]
      exact ⟨rfl, hpos⟩

theorem squeezeBlocks_eq (h : Combines hr f processPartial processFull combine) (s : Words n)
    (buf : List UInt8) :
    let r := SpongeCursor.squeezeBlocks hr s f buf processPartial processFull
    (r.1, r.2.2, r.2.1.pos)
      = (combine buf ((wordSponge rate hr f).squeeze buf.length (s, 0)).1,
          ((wordSponge rate hr f).squeeze buf.length (s, 0)).2) := by
  have htail := length_remainder_lt rate buf hr
  have hwhole := fun c hc => length_of_mem_chunksExact rate buf c hc
  rcases squeezeFullBlocks_eq hr f h _ hwhole s with ⟨hblocks, hpos⟩
  have hflat : (chunksExact rate buf).flatten.length = (chunksExact rate buf).length * rate := by
    rw [List.length_flatten, List.map_congr_left hwhole, List.map_const',
      List.sum_replicate_nat]
  have hlen : buf.length
      = (chunksExact rate buf).length * rate + (remainder rate buf).length := by
    rw [← hflat, ← List.length_append, flatten_chunksExact]
  intro r
  -- The output after the whole blocks starts a new block.
  set q := (wordSponge rate hr f).squeeze ((chunksExact rate buf).length * rate) (s, 0) with hq
  have hq2 : q.2 = (q.2.1, 0) := Prod.ext rfl hpos
  have hsplit : combine buf ((wordSponge rate hr f).squeeze buf.length (s, 0)).1
      = combine (chunksExact rate buf).flatten q.1
        ++ combine (remainder rate buf)
          ((wordSponge rate hr f).squeeze (remainder rate buf).length q.2).1 := by
    rw [← h.append _ _ _ _ (by rw [hflat, hq, Sponge.length_squeeze]), flatten_chunksExact, hlen,
      Sponge.squeeze_add]
  have hend : ((wordSponge rate hr f).squeeze buf.length (s, 0)).2
      = ((wordSponge rate hr f).squeeze (remainder rate buf).length q.2).2 := by
    rw [hlen, Sponge.squeeze_add]
  rw [hsplit, hend, hq2]
  simp only [r]
  unfold SpongeCursor.squeezeBlocks
  simp only
  rw [hblocks]
  -- Without a tail there is no permutation for it, and the machine stands at
  -- the end of a block with its output not yet started.
  by_cases hnil : remainder rate buf = []
  · rw [if_neg (fun hh => hh hnil)]
    simp only
    rw [hnil, List.length_nil, Sponge.squeeze_zero, h.nil, List.append_nil]
  · have hstart : (wordSponge rate hr f).squeeze (remainder rate buf).length (q.2.1, 0)
        = ((wordSponge rate hr f).readFrom (f q.2.1) 0 (remainder rate buf).length, f q.2.1,
            (remainder rate buf).length) :=
      (wordSponge rate hr f).squeeze_start _ _ (List.length_pos_iff.mpr hnil) htail
    rw [if_pos hnil, hstart, h.partialBlock _ _ _ (by omega)]

/-- The squeezing loop is the machine. -/
theorem squeezeInnerU64Le_eq (cursor : SpongeCursor rate)
    (h : Combines cursor.rate_pos f processPartial processFull combine) (s : Words n)
    (buf : List UInt8) :
    let r := cursor.squeezeInnerU64Le s f buf processPartial processFull
    (r.1, r.2.2, r.2.1.pos)
      = (combine buf
            ((wordSponge rate cursor.rate_pos f).squeeze buf.length (s, cursor.pos)).1,
          ((wordSponge rate cursor.rate_pos f).squeeze buf.length (s, cursor.pos)).2) := by
  have hpos := cursor.pos_lt
  unfold SpongeCursor.squeezeInnerU64Le
  by_cases h0 : cursor.pos = 0
  · rw [if_neg (fun hh => hh h0), h0]
    exact squeezeBlocks_eq cursor.rate_pos f h s buf
  · rw [if_pos h0]
    simp only
    by_cases hlt : buf.length < rate - cursor.pos
    · rw [dif_pos hlt, Sponge.squeeze_of_lt _ _ _ _ (by omega) (cursor.pos_add_lt _ hlt),
        h.partialBlock _ _ _ (by omega)]
    · -- The rest of the started block comes first.
      have hhead : (buf.take (rate - cursor.pos)).length = rate - cursor.pos := by
        rw [List.length_take]
        omega
      have hlen : buf.length
          = (rate - cursor.pos) + (buf.drop (rate - cursor.pos)).length := by
        rw [List.length_drop]
        omega
      have hfill : (wordSponge rate cursor.rate_pos f).squeeze (rate - cursor.pos)
            (s, cursor.pos)
          = ((wordSponge rate cursor.rate_pos f).readFrom s cursor.pos (rate - cursor.pos), s, 0) :=
        (wordSponge rate cursor.rate_pos f).squeeze_fill _ _ _ (by omega) hpos
          (Nat.add_sub_cancel' hpos.le)
      have hrest := squeezeBlocks_eq cursor.rate_pos f h s (buf.drop (rate - cursor.pos))
      simp only at hrest
      have hwhole : combine buf
            ((wordSponge rate cursor.rate_pos f).squeeze buf.length (s, cursor.pos)).1
          = combine (buf.take (rate - cursor.pos))
              ((wordSponge rate cursor.rate_pos f).readFrom s cursor.pos (rate - cursor.pos))
            ++ combine (buf.drop (rate - cursor.pos))
              ((wordSponge rate cursor.rate_pos f).squeeze
                (buf.drop (rate - cursor.pos)).length (s, 0)).1 := by
        rw [← h.append _ _ _ _ (by rw [hhead, Sponge.length_readFrom]), List.take_append_drop,
          hlen, Sponge.squeeze_add, hfill]
      have hend : ((wordSponge rate cursor.rate_pos f).squeeze buf.length (s, cursor.pos)).2
          = ((wordSponge rate cursor.rate_pos f).squeeze
              (buf.drop (rate - cursor.pos)).length (s, 0)).2 := by
        rw [hlen, Sponge.squeeze_add, hfill]
      have hpart := h.partialBlock s cursor.pos (buf.take (rate - cursor.pos)) (by omega)
      rw [hhead] at hpart
      rw [Prod.mk.injEq] at hrest
      rw [dif_neg hlt, hwhole, hend, hpart, hrest.1, hrest.2]

end Squeeze

/-- The state and position of the machine. -/
def machineState (q : SpongeCursor rate × Words n) : Words n × ℕ :=
  (q.2, q.1.pos)

theorem machineState_injective (p q : SpongeCursor rate × Words n)
    (h : machineState p = machineState q) : p = q := by
  unfold machineState at h
  rw [Prod.mk.injEq] at h
  rcases p with ⟨⟨pos, hpos⟩, state⟩
  rcases q with ⟨⟨pos', hpos'⟩, state'⟩
  simp only at h
  rcases h with ⟨rfl, rfl⟩
  rfl

/-- Reading leaves nothing of the buffer. -/
theorem combines_read (target : Endian) (h8 : rate % 8 = 0) (hn : rate ≤ 8 * n) :
    Combines hr f (squeezeReadPartial target rate) (squeezeReadFull rate)
      (fun _ output => output) where
  nil := rfl
  append := fun _ _ _ _ _ => rfl
  partialBlock := fun s off dst h => squeezeReadPartial_eq hr f target s off dst h8 hn h
  fullBlock := fun s block _ => squeezeReadFull_eq hr f s block h8 hn

/-- Adding works byte by byte. -/
theorem combines_xor (target : Endian) (h8 : rate % 8 = 0) (hn : rate ≤ 8 * n) :
    Combines hr f (squeezeXorPartial target rate) (squeezeXorFull rate)
      (List.zipWith (· ^^^ ·)) where
  nil := rfl
  append := fun _ _ _ _ h => List.zipWith_append h
  partialBlock := fun s off dst h => squeezeXorPartial_eq hr f target s off dst h8 hn h
  fullBlock := fun s block h => squeezeXorFull_eq hr f s block h8 hn h

/-- A read gives the machine's output and moves to its state. -/
theorem squeezeReadU64Le_eq (target : Endian) (cursor : SpongeCursor rate) (s : Words n)
    (buf : List UInt8) (h8 : rate % 8 = 0) (hn : rate ≤ 8 * n) :
    let q := (wordSponge rate cursor.rate_pos f).squeeze buf.length (s, cursor.pos)
    let r := cursor.squeezeReadU64Le target s f buf
    r.1 = q.1 ∧ machineState r.2 = q.2 := by
  have h := squeezeInnerU64Le_eq f cursor (combines_read cursor.rate_pos f target h8 hn) s buf
  simp only [Prod.mk.injEq] at h
  exact h

/-- Squeezing by addition adds the machine's output and moves to its state. -/
theorem squeezeXorU64Le_eq (target : Endian) (cursor : SpongeCursor rate) (s : Words n)
    (buf : List UInt8) (h8 : rate % 8 = 0) (hn : rate ≤ 8 * n) :
    let q := (wordSponge rate cursor.rate_pos f).squeeze buf.length (s, cursor.pos)
    let r := cursor.squeezeXorU64Le target s f buf
    r.1 = List.zipWith (· ^^^ ·) buf q.1 ∧ machineState r.2 = q.2 := by
  have h := squeezeInnerU64Le_eq f cursor (combines_xor cursor.rate_pos f target h8 hn) s buf
  simp only [Prod.mk.injEq] at h
  exact h

end Loops

end Ed301
