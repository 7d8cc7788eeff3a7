import Ed301.Core.Keccak
import Ed301.Theory.Sponge

/-!
# Streaming SHAKE

The extendable-output hasher: a cursor that absorbs and squeezes byte strings
of any length, and the hasher and reader built on it.

The cursor keeps a position below the rate, and the position is a field with
its bound, so that every function that moves it has to show that it stays in
range. The source relies on this bound for more than its panics: an
out-of-range position is declared unreachable.

Partial blocks are read and written through a view of the words as bytes. On a
little-endian target that is a cast, on a big-endian one a conversion, and the
two branches are both here, chosen by the target.

## Main definitions

* `Endian`: The byte order of the target.
* `Words`: An array of 64-bit words.
* `absorbPartial`, `absorbFull`: Adding bytes to the words.
* `squeezeReadPartial`, `squeezeXorPartial`, ...: Taking bytes from them.
* `SpongeCursor`: A position below the rate.
* `SpongeCursor.absorbU64Le`, `SpongeCursor.squeezeInnerU64Le`: The loops.
* `Shake`, `ShakeReader`: The hasher and its output.
* `shakeHashParts`: The transcript hash of the crate.
-/

namespace Ed301

/-- The byte order of the target. -/
inductive Endian
  | little
  | big
deriving DecidableEq

/-- `u64::from_le_bytes`. -/
def fromLeBytes (chunk : List UInt8) : BitVec 64 :=
  chunk.foldr (fun b acc => (acc <<< 8) ||| b.toBitVec.setWidth 64) 0

/-- `u64::to_le_bytes`. -/
def toLeBytes (word : BitVec 64) : List UInt8 :=
  (List.range 8).map fun i => UInt8.ofBitVec (word.extractLsb' (8 * i) 8)

/-- The array type `[u64; n]`. -/
abbrev Words (n : ℕ) := Vector (BitVec 64) n

section WordBytes

variable {n : ℕ}

/-- The words as bytes, least significant byte first. -/
def viewBytes (state : Words n) : List UInt8 :=
  state.toList.flatMap toLeBytes

/-- The words a view of bytes belongs to. -/
def ofView (n : ℕ) (bytes : List UInt8) : Words n :=
  Vector.ofFn fun i => fromLeBytes ((bytes.drop (8 * i.val)).take 8)

/-- `for (dst, chunk) in state.iter_mut().zip(chunks) { *dst ^= chunk }`. -/
def xorChunks (state : Words n) (chunks : List (List UInt8)) : Words n :=
  Vector.ofFn fun i =>
    match chunks[i.val]? with
    | some chunk => state.get i ^^^ fromLeBytes chunk
    | none => state.get i

def absorbFull (state : Words n) (block : List UInt8) : Words n :=
  xorChunks state (chunksExact 8 block)

def absorbPartial (target : Endian) (rate : ℕ) (state : Words n) (offset : ℕ)
    (data : List UInt8) : Words n :=
  match target with
  | .little =>
    let bytes := viewBytes state
    ofView n (bytes.take offset ++ List.zipWith (· ^^^ ·) (bytes.drop offset) data
      ++ bytes.drop (offset + data.length))
  | .big =>
    -- The bytes around the data are zero, so adding the whole buffer is the same.
    let buf := List.replicate offset 0 ++ data
      ++ List.replicate (rate - (offset + data.length)) 0
    xorChunks state (chunksExact 8 buf)

/-- The first `rate` bytes of the words. -/
def subState (target : Endian) (rate : ℕ) (state : Words n) : List UInt8 :=
  match target with
  | .little => (viewBytes state).take rate
  | .big => (state.toList.take (rate / 8)).flatMap toLeBytes

def squeezeReadFull (rate : ℕ) (state : Words n) (_dst : List UInt8) : List UInt8 :=
  (state.toList.take (rate / 8)).flatMap toLeBytes

def squeezeReadPartial (target : Endian) (rate : ℕ) (state : Words n) (offset : ℕ)
    (dst : List UInt8) : List UInt8 :=
  ((subState target rate state).drop offset).take dst.length

def squeezeXorFull (_rate : ℕ) (state : Words n) (dst : List UInt8) : List UInt8 :=
  (List.zipWith (fun src chunk => toLeBytes (fromLeBytes chunk ^^^ src)) state.toList
    (chunksExact 8 dst)).flatten

def squeezeXorPartial (target : Endian) (rate : ℕ) (state : Words n) (offset : ℕ)
    (dst : List UInt8) : List UInt8 :=
  List.zipWith (· ^^^ ·) dst (((subState target rate state).drop offset).take dst.length)

/-- `state[i] ^= v`. -/
def xorWord (state : Words n) (i : ℕ) (v : BitVec 64) : Words n :=
  if h : i < n then state.set i (state.get ⟨i, h⟩ ^^^ v) h else state

end WordBytes

/-- A position in a block, always below the rate. -/
structure SpongeCursor (rate : ℕ) where
  pos : ℕ
  pos_lt : pos < rate

namespace SpongeCursor

variable {rate n : ℕ}

def default (h : 0 < rate) : SpongeCursor rate where
  pos := 0
  pos_lt := h

theorem rate_pos (cursor : SpongeCursor rate) : 0 < rate :=
  Nat.zero_lt_of_lt cursor.pos_lt

theorem pos_add_lt (cursor : SpongeCursor rate) (k : ℕ) (h : k < rate - cursor.pos) :
    cursor.pos + k < rate := by
  omega

/-- Absorbing from the start of a block: whole blocks, then the tail. -/
def absorbBlocks (target : Endian) (h : 0 < rate) (state : Words n)
    (sponge : Words n → Words n) (data : List UInt8) : SpongeCursor rate × Words n :=
  let blocks := chunksExact rate data
  let tail := remainder rate data
  let state := blocks.foldl (fun state block => sponge (absorbFull state block)) state
  let state := if tail ≠ [] then absorbPartial target rate state 0 tail else state
  (⟨tail.length, length_remainder_lt rate data h⟩, state)

/-- Absorb bytes, permuting after each block that they fill. -/
def absorbU64Le (target : Endian) (cursor : SpongeCursor rate) (state : Words n)
    (sponge : Words n → Words n) (data : List UInt8) : SpongeCursor rate × Words n :=
  if cursor.pos ≠ 0 then
    let remLen := rate - cursor.pos
    if h : data.length < remLen then
      -- The block does not get full, so the permutation has to wait.
      (⟨cursor.pos + data.length, cursor.pos_add_lt _ h⟩,
        absorbPartial target rate state cursor.pos data)
    else
      let state := absorbPartial target rate state cursor.pos (data.take remLen)
      absorbBlocks target cursor.rate_pos (sponge state) sponge (data.drop remLen)
  else
    absorbBlocks target cursor.rate_pos state sponge data

/-- Whole blocks of the buffer, each after a permutation. -/
def squeezeFullBlocks (sponge : Words n → Words n)
    (processFull : Words n → List UInt8 → List UInt8) :
    List (List UInt8) → Words n → List UInt8 × Words n
  | [], state => ([], state)
  | block :: blocks, state =>
    let state := sponge state
    let rest := squeezeFullBlocks sponge processFull blocks state
    (processFull state block ++ rest.1, rest.2)

/-- Squeezing from the start of a block: whole blocks, then the tail. -/
def squeezeBlocks (h : 0 < rate) (state : Words n) (sponge : Words n → Words n)
    (buf : List UInt8) (processPartial : Words n → ℕ → List UInt8 → List UInt8)
    (processFull : Words n → List UInt8 → List UInt8) :
    List UInt8 × SpongeCursor rate × Words n :=
  let blocks := squeezeFullBlocks sponge processFull (chunksExact rate buf) state
  let tail := remainder rate buf
  let cursor := ⟨tail.length, length_remainder_lt rate buf h⟩
  if tail ≠ [] then
    let state := sponge blocks.2
    (blocks.1 ++ processPartial state 0 tail, cursor, state)
  else (blocks.1, cursor, blocks.2)

/-- Squeeze into a buffer, permuting before each block that is started. -/
def squeezeInnerU64Le (cursor : SpongeCursor rate) (state : Words n)
    (sponge : Words n → Words n) (buf : List UInt8)
    (processPartial : Words n → ℕ → List UInt8 → List UInt8)
    (processFull : Words n → List UInt8 → List UInt8) :
    List UInt8 × SpongeCursor rate × Words n :=
  if cursor.pos ≠ 0 then
    let remLen := rate - cursor.pos
    if h : buf.length < remLen then
      -- What is left of the block is enough.
      (processPartial state cursor.pos buf,
        ⟨cursor.pos + buf.length, cursor.pos_add_lt _ h⟩, state)
    else
      let head := processPartial state cursor.pos (buf.take remLen)
      let rest := squeezeBlocks cursor.rate_pos state sponge (buf.drop remLen) processPartial
        processFull
      (head ++ rest.1, rest.2)
  else
    squeezeBlocks cursor.rate_pos state sponge buf processPartial processFull

def squeezeReadU64Le (target : Endian) (cursor : SpongeCursor rate) (state : Words n)
    (sponge : Words n → Words n) (buf : List UInt8) :
    List UInt8 × SpongeCursor rate × Words n :=
  squeezeInnerU64Le cursor state sponge buf (squeezeReadPartial target rate)
    (squeezeReadFull rate)

def squeezeXorU64Le (target : Endian) (cursor : SpongeCursor rate) (state : Words n)
    (sponge : Words n → Words n) (buf : List UInt8) :
    List UInt8 × SpongeCursor rate × Words n :=
  squeezeInnerU64Le cursor state sponge buf (squeezeXorPartial target rate)
    (squeezeXorFull rate)

end SpongeCursor

/-- The hasher with a given rate. -/
structure Shake (rate : ℕ) where
  state : Words 25
  cursor : SpongeCursor rate

/-- The output of a hasher with a given rate. -/
structure ShakeReader (rate : ℕ) where
  state : Words 25
  cursor : SpongeCursor rate

namespace Shake

variable {rate : ℕ}

def default (h : 0 < rate) : Shake rate where
  state := Vector.replicate 25 0
  cursor := SpongeCursor.default h

def update (target : Endian) (self : Shake rate) (data : List UInt8) : Shake rate :=
  let absorbed := self.cursor.absorbU64Le target self.state Keccak.f1600 data
  { state := absorbed.2
    cursor := absorbed.1 }

def reset (self : Shake rate) : Shake rate :=
  default self.cursor.rate_pos

def shakePad : BitVec 8 := 0x1F

/-- Add the domain bits and the padding. -/
def pad (self : Shake rate) : Shake rate :=
  let pos := self.cursor.pos
  let wordOffset := pos / 8
  let byteOffset := pos % 8
  let pad := shakePad.setWidth 64 <<< (8 * byteOffset)
  let state := xorWord self.state wordOffset pad
  -- Both bytes may fall into one word, and even into one byte.
  { self with state := xorWord state (rate / 8 - 1) (1 <<< 63) }

def finalizeXof (self : Shake rate) : ShakeReader rate where
  state := self.pad.state
  cursor := SpongeCursor.default self.cursor.rate_pos

/-- The output so far, and a cleared hasher. -/
def finalizeXofReset (self : Shake rate) : ShakeReader rate × Shake rate :=
  ({ state := self.pad.state
     cursor := SpongeCursor.default self.cursor.rate_pos }, self.pad.reset)

end Shake

namespace ShakeReader

variable {rate : ℕ}

/-- Fill a buffer with the next bytes of the output. -/
def read (target : Endian) (self : ShakeReader rate) (buf : List UInt8) :
    List UInt8 × ShakeReader rate :=
  let squeezed := self.cursor.squeezeReadU64Le target self.state Keccak.f1600 buf
  (squeezed.1,
    { state := squeezed.2.2
      cursor := squeezed.2.1 })

end ShakeReader

/-- The hash of a list of parts: the crate's `hash_parts`, with the hasher it
    calls. -/
def shakeHashParts (target : Endian) (parts : List (List UInt8)) : List UInt8 :=
  let state : Shake 136 := parts.foldl (Shake.update target) (Shake.default (by decide))
  let output := List.replicate 76 0
  (state.finalizeXof.read target output).1

end Ed301
