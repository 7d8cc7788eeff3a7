import Mathlib.Data.Fin.Basic
import Mathlib.Data.List.FinRange
import Mathlib.Data.Vector.Basic

/-!
# The Keccak-p Permutation

The software backend of the permutation, over the lane sizes it is
instantiated at.

The state is 25 lanes, and the lane at column `x` and row `y` sits at index
`5 y + x`. A round runs five loops over this array. Theta and chi read the old
values of a column or a row and then write every lane once, so they are
written here lane by lane. Rho and pi are one loop that moves the lanes around
a single cycle in place, each step reading the lane it is about to overwrite,
and that loop is kept.

## Main definitions

* `LaneSize`: The lane types.
* `Keccak.rho`, `Keccak.pi`, `Keccak.rc`: The tables of the loops.
* `Keccak.theta`, `Keccak.rhoPi`, `Keccak.chi`, `Keccak.iota`: The loops of a
  round.
* `Keccak.keccakP`: The permutation with a number of rounds.
* `Keccak.f1600`: The permutation of the hash.
-/

namespace Ed301

/-- The types a lane may have. -/
inductive LaneSize
  | u8
  | u16
  | u32
  | u64
deriving DecidableEq

namespace LaneSize

abbrev bits : LaneSize → ℕ
  | .u8 => 8
  | .u16 => 16
  | .u32 => 32
  | .u64 => 64

/-- The number of rounds of the Keccak-f permutation. -/
def keccakFRoundCount : LaneSize → ℕ
  | .u8 => 18
  | .u16 => 20
  | .u32 => 22
  | .u64 => 24

/-- `rc as Self`. -/
def truncateRc (L : LaneSize) (rc : BitVec 64) : BitVec L.bits :=
  rc.setWidth L.bits

end LaneSize

namespace Keccak

/-- The permuted state. -/
abbrev State (w : ℕ) := Vector (BitVec w) 25

def rho : List ℕ :=
  [1, 3, 6, 10, 15, 21, 28, 36, 45, 55, 2, 14, 27, 41, 56, 8, 25, 43, 62, 18, 39, 61, 20, 44]

def pi : List (Fin 25) :=
  [10, 7, 11, 17, 18, 3, 5, 16, 8, 21, 24, 4, 15, 23, 19, 13, 12, 2, 20, 14, 22, 9, 6, 1]

def rc : List (BitVec 64) :=
  [0x0000000000000001, 0x0000000000008082, 0x800000000000808a, 0x8000000080008000,
    0x000000000000808b, 0x0000000080000001, 0x8000000080008081, 0x8000000000008009,
    0x000000000000008a, 0x0000000000000088, 0x0000000080008009, 0x000000008000000a,
    0x000000008000808b, 0x800000000000008b, 0x8000000000008089, 0x8000000000008003,
    0x8000000000008002, 0x8000000000000080, 0x000000000000800a, 0x800000008000000a,
    0x8000000080008081, 0x8000000000008080, 0x0000000080000001, 0x8000000080008008]

theorem lane_lt (x y : Fin 5) : 5 * y.val + x.val < 25 := by
  omega

theorem column_lt (i : Fin 25) : i.val % 5 < 5 :=
  Nat.mod_lt _ (by omega)

theorem row_lt (i : Fin 25) : i.val / 5 < 5 := by
  omega

/-- The index of a lane in the state. -/
def lane (x y : Fin 5) : Fin 25 :=
  ⟨5 * y.val + x.val, lane_lt x y⟩

def column (i : Fin 25) : Fin 5 :=
  ⟨i.val % 5, column_lt i⟩

def row (i : Fin 25) : Fin 5 :=
  ⟨i.val / 5, row_lt i⟩

variable {w : ℕ}

/-- The assignment `state[i] = v`. -/
def setLane (state : State w) (i : Fin 25) (v : BitVec w) : State w :=
  state.set i.val v i.isLt

/-- The first loop of theta: `array[x] ^= state[5 * y + x]`, from zero. -/
def parities (state : State w) : Vector (BitVec w) 5 :=
  Vector.ofFn fun x => (List.finRange 5).foldl (fun acc y => acc ^^^ state.get (lane x y)) 0

/-- The second loop of theta. -/
def theta (state : State w) : State w :=
  let array := parities state
  Vector.ofFn fun i =>
    let t1 := array.get (column i + 4)
    let t2 := (array.get (column i + 1)).rotateLeft 1
    state.get i ^^^ (t1 ^^^ t2)

/-- One step of the loop of rho and pi: the lane in hand is rotated into its
    place, and the lane that was there is taken in hand. -/
def rhoPiStep (q : State w × BitVec w) (step : Fin 25 × ℕ) : State w × BitVec w :=
  (setLane q.1 step.1 (q.2.rotateLeft step.2), q.1.get step.1)

def rhoPi (state : State w) : State w :=
  ((pi.zip rho).foldl rhoPiStep (state, state.get 1)).1

def chi (state : State w) : State w :=
  Vector.ofFn fun i =>
    let array := fun x => state.get (lane x (row i))
    let t1 := ~~~ array (column i + 1)
    let t2 := array (column i + 2)
    array (column i) ^^^ (t1 &&& t2)

def iota (state : State w) (rc : BitVec w) : State w :=
  setLane state 0 (state.get 0 ^^^ rc)

def round (state : State w) (rc : BitVec w) : State w :=
  iota (chi (rhoPi (theta state))) rc

/-- The last `rounds` of the round constants of Keccak-f, if there are that
    many. -/
def roundConsts (L : LaneSize) (rounds : ℕ) : Option (List (BitVec L.bits)) :=
  let consts := rc.take L.keccakFRoundCount
  if rounds ≤ consts.length then
    some ((consts.drop (consts.length - rounds)).map L.truncateRc)
  else none

/-- The permutation, absent where the code panics. -/
def keccakP (L : LaneSize) (rounds : ℕ) (state : State L.bits) : Option (State L.bits) :=
  (roundConsts L rounds).map fun consts => consts.foldl round state

/-- The permutation `with_f1600` hands to the hash. -/
def f1600 (state : State 64) : State 64 :=
  (keccakP .u64 LaneSize.u64.keccakFRoundCount state).getD state

end Keccak

end Ed301
