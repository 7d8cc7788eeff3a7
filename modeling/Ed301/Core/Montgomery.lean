import Ed301.Core.Limbs

/-!
# Montgomery Arithmetic on Limbs

How the library stores a residue and computes with it.

The product of two stored residues is taken one limb of the first factor at a
time. A row adds that limb times the second factor and a multiple of the
modulus chosen so that the lowest limb vanishes, and drops it. Rows run in a
type of twice the width of a limb, and its sums and products come close to its
bound. The library is built without overflow checks. What a build with checks
would do is kept in the model, since the arithmetic of wide words is a
parameter of the rows: under `WideArith.checked` a sum or a product that does
not fit is a panic.

Squaring is the same product, apart from one size of integers where the square
is taken first and reduced afterwards, and apart from repeated squaring, which
puts off the subtractions of the modulus until the end.

## Main definitions

* `WideArith`: Sums and products of wide words.
* `montgomeryMultiplyInner`: The rows of a product.
* `mulMontgomeryForm`: The product of two stored residues.
* `montgomeryReductionInner`, `montgomeryReduction`: The reduction of an
  integer of twice the length.
* `montgomeryRetrieve`: The residue that is stored.
* `squareMontgomeryForm`, `squareRepeatMontgomeryForm`: Squares.
* `almostMontgomeryMul`, `almostMontgomeryReduce`: Products reduced only if
  they overflow.
* `MontyParams`, `MontyParams.ofModulus`: A modulus and what is precomputed
  for it.
* `FixedMontyForm`: A stored residue.
-/

namespace Ed301

open Limbs

/-- What a sum and a product of wide words are. -/
structure WideArith (m : Type → Type) where
  add : WideWord → WideWord → m WideWord
  mul : WideWord → WideWord → m WideWord

/-- Without overflow checks. -/
def WideArith.wrapping : WideArith Id where
  add a b := pure (a + b)
  mul a b := pure (a * b)

/-- With overflow checks. -/
def WideArith.checked : WideArith Option where
  add a b := if a.toNat + b.toNat < 2 ^ 128 then some (a + b) else none
  mul a b := if a.toNat * b.toNat < 2 ^ 128 then some (a * b) else none

/-- `((c as WideWord) << Word::BITS) | (sum >> Word::BITS)`, of the result of
    an overflowing addition. -/
def carryOf (sum : WideWord) (c : Bool) : WideWord :=
  (BitVec.ofBool c).setWidth 128 <<< 64 ||| sum.high

section Rows

variable {m : Type → Type} [Monad m] (A : WideArith m)

/-- The inner loop at a limb of the second factor, of the modulus and of what
    has been computed so far. -/
def mulStep (xi u : Limb) (carry : WideWord) (p : Limb × Limb × Limb) : m (Limb × WideWord) := do
  let axy ← A.add (← A.mul xi.toWide p.1.toWide) p.2.2.toWide
  let umc ← A.add (← A.mul u.toWide p.2.1.toWide) carry
  let ab := axy + umc
  -- Here the code asks for the overflow, so this sum is not one that panics.
  let c := BitVec.uaddOverflow axy umc
  pure (ab.toWord, carryOf ab c)

/-- The outer loop at a limb of the first factor. -/
def mulRow (modNegInv : Limb) (y modulus : List Limb) (q : List Limb × WideWord) (xi : Limb) :
    m (List Limb × WideWord) :=
  match y, modulus, q.1 with
  | y0 :: y, m0 :: modulus, out0 :: out => do
    let axy ← A.add (← A.mul xi.toWide y0.toWide) out0.toWide
    -- The multiple of the modulus that clears the lowest limb.
    let u := axy.toWord * modNegInv
    let um ← A.mul u.toWide m0.toWide
    let a := um + axy
    let c := BitVec.uaddOverflow um axy
    let row ← sweepM (mulStep A xi u) (carryOf a c) (y.zip (modulus.zip out))
    let carry ← A.add row.2 q.2
    pure (row.1 ++ [carry.toWord], carry.high)
  | _, _, _ => pure q

/-- The rows of a product of slices of one length, added to `out`. -/
def montgomeryMultiplyInner (x y out modulus : List Limb) (modNegInv : Limb) :
    m (List Limb × Limb) := do
  let q ← x.foldlM (mulRow A modNegInv y modulus) (out, 0)
  pure (q.1, q.2.toWord)

end Rows

/-- The inner loop of a reduction, at a limb of the modulus and of the integer. -/
def reduceStep (u carry : Limb) (p : Limb × Limb) : Limb × Limb :=
  Limb.carryingMulAdd u p.1 p.2 carry

/-- The outer loop of a reduction. The list is what is left of `lower` with
    `upper` above it; the limb at its bottom is not read again. -/
def reductionRow (modulus : List Limb) (modNegInv : Limb) (q : List Limb × Limb) :
    List Limb × Limb :=
  match modulus, q.1 with
  | m0 :: modulus, lower0 :: rest =>
    let u := lower0 * modNegInv
    let carry := (Limb.carryingMulAdd u m0 lower0 0).2
    let row := sweep (reduceStep u) carry (modulus.zip rest)
    -- The carry of the loop goes into the limb above it.
    let above := rest.drop modulus.length
    let (newSum, metaCarry) := Limb.carryingAdd (above.headD 0) row.2 q.2
    (row.1 ++ newSum :: above.tail, metaCarry)
  | _, _ => q

/-- The reduction of `lower` with `upper` above it, without the final
    subtraction. -/
def montgomeryReductionInner (upper lower modulus : List Limb) (modNegInv : Limb) :
    List Limb × Limb :=
  (reductionRow modulus modNegInv)^[modulus.length] (lower ++ upper, 0)

/-- The loop that takes the factor out of a stored residue, at one of its
    limbs. -/
def retrieveRow (modulus : List Limb) (modNegInv : Limb) (out : List Limb) (xi : Limb) :
    List Limb :=
  match modulus, out with
  | m0 :: modulus, out0 :: out =>
    let u := (out0 + xi) * modNegInv
    let carry := (Limb.carryingMulAdd u m0 xi out0).2
    let row := sweep (reduceStep u) carry (modulus.zip out)
    row.1 ++ [row.2]
  | _, _ => out

def montgomeryRetrieveInner (x out modulus : List Limb) (modNegInv : Limb) : List Limb :=
  x.foldl (retrieveRow modulus modNegInv) out

theorem length_mulRow (modNegInv : Limb) (y modulus : List Limb) (q : List Limb × WideWord)
    (xi : Limb) (hy : y.length = q.1.length) (hm : modulus.length = q.1.length) :
    (mulRow .wrapping modNegInv y modulus q xi).run.1.length = q.1.length := by
  rcases q with ⟨out, metaCarry⟩
  cases y with
  | nil => rfl
  | cons y0 y =>
      cases modulus with
      | nil => rfl
      | cons m0 modulus =>
          cases out with
          | nil => rfl
          | cons out0 out =>
              simp only [List.length_cons, Nat.add_right_cancel_iff] at hy hm
              simp only [mulRow, sweepM_id]
              simp [WideArith.wrapping, hy, hm]

theorem length_montgomeryMultiplyInner (x y out modulus : List Limb) (modNegInv : Limb)
    (hy : y.length = out.length) (hm : modulus.length = out.length) :
    (montgomeryMultiplyInner .wrapping x y out modulus modNegInv).run.1.length = out.length := by
  have hfold : ∀ q : List Limb × WideWord, q.1.length = out.length →
      (x.foldlM (m := Id) (mulRow .wrapping modNegInv y modulus) q).run.1.length = out.length := by
    induction x with
    | nil => intro q hq; exact hq
    | cons xi x ih =>
        intro q hq
        exact ih _ ((length_mulRow modNegInv y modulus q xi (hy.trans hq.symm)
          (hm.trans hq.symm)).trans hq)
  exact hfold (out, 0) rfl

theorem length_reductionRow (modulus : List Limb) (modNegInv : Limb) (q : List Limb × Limb)
    (k : ℕ) (hm : modulus ≠ []) (h : q.1.length = modulus.length + (k + 1)) :
    (reductionRow modulus modNegInv q).1.length = modulus.length + k := by
  rcases q with ⟨l, metaCarry⟩
  cases modulus with
  | nil => exact absurd rfl hm
  | cons m0 modulus =>
      cases l with
      | nil => simp at h
      | cons lower0 rest =>
          simp only [List.length_cons] at h
          have hrest : rest.length = modulus.length + (k + 1) := by omega
          simp [reductionRow, hrest]
          omega

theorem length_montgomeryReductionInner (upper lower modulus : List Limb) (modNegInv : Limb)
    (hu : upper.length = modulus.length) (hl : lower.length = modulus.length) :
    (montgomeryReductionInner upper lower modulus modNegInv).1.length = modulus.length := by
  by_cases hm : modulus = []
  · subst hm
    exact (List.length_append).trans (by rw [hu, hl]; rfl)
  · have hiter : ∀ (k : ℕ) (q : List Limb × Limb), q.1.length = modulus.length + k →
        ((reductionRow modulus modNegInv)^[k] q).1.length = modulus.length := by
      intro k
      induction k with
      | zero => intro q hq; exact hq
      | succ k ih =>
          intro q hq
          exact ih _ (length_reductionRow modulus modNegInv q k hm hq)
    exact hiter _ _ (by rw [List.length_append, hu, hl])

theorem length_retrieveRow (modulus : List Limb) (modNegInv : Limb) (out : List Limb)
    (xi : Limb) (h : modulus.length = out.length) :
    (retrieveRow modulus modNegInv out xi).length = out.length := by
  cases modulus with
  | nil => rfl
  | cons m0 modulus =>
      cases out with
      | nil => rfl
      | cons out0 out =>
          simp only [List.length_cons, Nat.add_right_cancel_iff] at h
          simp [retrieveRow, h]

theorem length_montgomeryRetrieveInner (x out modulus : List Limb) (modNegInv : Limb)
    (h : modulus.length = out.length) :
    (montgomeryRetrieveInner x out modulus modNegInv).length = out.length := by
  unfold montgomeryRetrieveInner
  induction x generalizing out with
  | nil => rfl
  | cons xi x ih =>
      have hrow := length_retrieveRow modulus modNegInv out xi h
      exact (ih _ (h.trans hrow.symm)).trans hrow

variable {n : ℕ}

/-- `montgomery_multiply_inner` on integers, into a zero. -/
def multiplyInner (a b modulus : Uint n) (modNegInv : Limb) : Uint n × Limb :=
  let r := (montgomeryMultiplyInner .wrapping a.limbs b.limbs (Uint.zero : Uint n).limbs
    modulus.limbs modNegInv).run
  (⟨r.1, by
    rw [length_montgomeryMultiplyInner _ _ _ _ _ (by simp [Uint.length_limbs])
      (by simp [Uint.length_limbs]), Uint.length_limbs]⟩, r.2)

/-- The product of two stored residues. -/
def mulMontgomeryForm (a b modulus : Uint n) (modNegInv : Limb) : Uint n :=
  let (out, carry) := multiplyInner a b modulus modNegInv
  (out.trySubWithCarry carry modulus).1

/-- The reduction of an integer of twice the length. -/
def montgomeryReduction (lower upper modulus : Uint n) (modNegInv : Limb) : Uint n :=
  let r := montgomeryReductionInner upper.limbs lower.limbs modulus.limbs modNegInv
  let out : Uint n := ⟨r.1, by
    rw [length_montgomeryReductionInner _ _ _ _ (by simp [Uint.length_limbs])
      (by simp [Uint.length_limbs]), Uint.length_limbs]⟩
  (out.trySubWithCarry r.2 modulus).1

/-- The residue that is stored. -/
def montgomeryRetrieve (montgomeryForm modulus : Uint n) (modNegInv : Limb) : Uint n where
  limbs := montgomeryRetrieveInner montgomeryForm.limbs (Uint.zero : Uint n).limbs modulus.limbs
    modNegInv
  length_limbs := by
    rw [length_montgomeryRetrieveInner _ _ _ _ (by simp [Uint.length_limbs]),
      Uint.length_limbs]

theorem length_squareRow (limbs acc : List Limb) (i : ℕ) (hi : i < limbs.length)
    (h : acc.length = 2 * limbs.length) : (squareRow limbs acc i).length = acc.length := by
  unfold squareRow
  simp
  omega

theorem length_squareDiagonal (limbs : List Limb) : ∀ (carry : Limb) (acc : List Limb),
    (squareDiagonal carry limbs acc).length = acc.length := by
  induction limbs with
  | nil => intro carry acc; simp [squareDiagonal]
  | cons xi limbs ih =>
      intro carry acc
      cases acc with
      | nil => rfl
      | cons acc0 acc =>
          cases acc with
          | nil => rfl
          | cons acc1 acc => simp [squareDiagonal, ih]

theorem length_squareRows (limbs : List Limb) (k : ℕ) (hk : k < limbs.length) :
    ((List.range k).foldl (fun acc i => squareRow limbs acc (i + 1))
      (List.replicate (2 * limbs.length) 0)).length = 2 * limbs.length := by
  induction k with
  | zero => simp
  | succ k ih =>
      have hrows := ih (by omega)
      rw [List.range_succ, List.foldl_append, List.foldl_cons, List.foldl_nil,
        length_squareRow limbs _ (k + 1) hk hrows, hrows]

theorem length_squareWide (limbs : List Limb) (h : 0 < limbs.length) :
    (squareWide limbs).length = 2 * limbs.length := by
  have hrows := length_squareRows limbs (limbs.length - 1) (by omega)
  unfold squareWide
  simp only [length_squareDiagonal, List.length_append, length_sweep, List.length_take, hrows,
    List.length_singleton]
  omega

/-- The square, as its lower and its upper half. -/
def wideningSquare (a : Uint (n + 1)) : Uint (n + 1) × Uint (n + 1) :=
  let r := squareWide a.limbs
  have hr : r.length = 2 * (n + 1) := by
    rw [length_squareWide _ (by rw [a.length_limbs]; omega), a.length_limbs]
  (⟨r.take (n + 1), by rw [List.length_take, hr]; omega⟩,
    ⟨r.drop (n + 1), by rw [List.length_drop, hr]; omega⟩)

/-- The square of a stored residue. Integers of four limbs are squared first
    and reduced afterwards. -/
def squareMontgomeryForm : {n : ℕ} → (a modulus : Uint n) → (modNegInv : Limb) → Uint n
  | 4, a, modulus, modNegInv =>
    let (lower, upper) := wideningSquare a
    montgomeryReduction lower upper modulus modNegInv
  | _, a, modulus, modNegInv =>
    let (out, carry) := multiplyInner a a modulus modNegInv
    (out.trySubWithCarry carry modulus).1

/-- A square that is reduced only if it overflows. -/
def almostSquare (modulus : Uint n) (modNegInv : Limb) (base : Uint n) : Uint n :=
  let (out, carry) := multiplyInner base base modulus modNegInv
  (out.conditionalBorrowingSub modulus (Limb.isNonzero carry)).1

/-- The square taken `times` times. The squares in between are reduced only if
    they overflow, and the last one is reduced twice. -/
def squareRepeatMontgomeryForm (a : Uint n) (times : ℕ) (modulus : Uint n) (modNegInv : Limb) :
    Uint n :=
  if times = 0 then a
  else if times = 1 then squareMontgomeryForm a modulus modNegInv
  else
    let base := (almostSquare modulus modNegInv)^[times - 1] a
    let (out, carry) := multiplyInner base base modulus modNegInv
    let (out, carry) := out.trySubWithCarry carry modulus
    (out.trySubWithCarry carry modulus).1

/-- A product that is reduced only if it overflows. -/
def almostMontgomeryMul (x y modulus : Uint n) (modNegInv : Limb) : Uint n :=
  let (out, overflow) := multiplyInner x y modulus modNegInv
  (out.conditionalBorrowingSub modulus (Limb.lsbToChoice overflow)).1

/-- Up to two subtractions of the modulus. -/
def almostMontgomeryReduce (z modulus : Uint n) : Uint n :=
  let z := (z.conditionalBorrowingSub modulus (!z.lt modulus)).1
  (z.conditionalBorrowingSub modulus (!z.lt modulus)).1

/-- Half of a stored residue: of the integer if it is even, of its sum with the
    modulus otherwise. -/
def divBy2 (a modulus : Uint n) : Uint n :=
  let isOdd := a.isOdd
  let (ifOdd, carry) := a.carryingAdd modulus 0
  -- The sum with the modulus may carry out, and the carry is the bit shifted in.
  let carry := Limb.select 0 carry isOdd
  (Uint.select a ifOdd isOdd).shr1.setBit (64 * n - 1) (Limb.isNonzero carry)

/-- A modulus and what is precomputed for it. -/
structure MontyParams (n : ℕ) where
  modulus : Uint n
  one : Uint n
  r2 : Uint n
  modInv : Limb

namespace MontyParams

def modNegInv (params : MontyParams n) : Limb := -params.modInv

/-- The parameters of a modulus, over a remainder and a square modulo a
    number. -/
def newVartime (remVartime squareModVartime : Uint n → Uint n → Uint n) (modulus : Uint n) :
    MontyParams n :=
  let max : Uint n := Uint.ofNat n ((2 ^ 64) ^ n - 1)
  let one := (remVartime max modulus).wrappingAdd (Uint.ofNat n 1)
  let one := Uint.select one Uint.zero (one.ctEq modulus)
  { modulus, one
    r2 := squareModVartime one modulus
    modInv := invertOdd (modulus.limbs.headD 0) }

/-- Parameters with division taken from the numbers. -/
def ofModulus (modulus : Uint n) : MontyParams n :=
  newVartime (fun a m => Uint.ofNat n (a.toNat % m.toNat))
    (fun a m => Uint.ofNat n (a.toNat ^ 2 % m.toNat)) modulus

end MontyParams

/-- A residue as it is stored. -/
structure FixedMontyForm (params : MontyParams n) where
  montgomeryForm : Uint n

namespace FixedMontyForm

variable {params : MontyParams n}

def zero : FixedMontyForm params := ⟨Uint.zero⟩

def one : FixedMontyForm params := ⟨params.one⟩

def new (integer : Uint n) : FixedMontyForm params :=
  ⟨mulMontgomeryForm integer params.r2 params.modulus params.modNegInv⟩

def retrieve (a : FixedMontyForm params) : Uint n :=
  montgomeryRetrieve a.montgomeryForm params.modulus params.modNegInv

def add (a rhs : FixedMontyForm params) : FixedMontyForm params :=
  ⟨a.montgomeryForm.addMod rhs.montgomeryForm params.modulus⟩

def double (a : FixedMontyForm params) : FixedMontyForm params :=
  ⟨a.montgomeryForm.doubleMod params.modulus⟩

def sub (a rhs : FixedMontyForm params) : FixedMontyForm params :=
  ⟨a.montgomeryForm.subMod rhs.montgomeryForm params.modulus⟩

def neg (a : FixedMontyForm params) : FixedMontyForm params :=
  ⟨a.montgomeryForm.negMod params.modulus⟩

def mul (a rhs : FixedMontyForm params) : FixedMontyForm params :=
  ⟨mulMontgomeryForm a.montgomeryForm rhs.montgomeryForm params.modulus params.modNegInv⟩

def square (a : FixedMontyForm params) : FixedMontyForm params :=
  ⟨squareMontgomeryForm a.montgomeryForm params.modulus params.modNegInv⟩

def divBy2 (a : FixedMontyForm params) : FixedMontyForm params :=
  ⟨Ed301.divBy2 a.montgomeryForm params.modulus⟩

def ctEq (a b : FixedMontyForm params) : Choice :=
  a.montgomeryForm.ctEq b.montgomeryForm

def ctSelect (a b : FixedMontyForm params) (choice : Choice) : FixedMontyForm params :=
  ⟨Uint.select a.montgomeryForm b.montgomeryForm choice⟩

end FixedMontyForm

end Ed301
