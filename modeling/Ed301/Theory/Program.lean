import Mathlib.Data.Nat.Notation
import Mathlib.Logic.Function.Basic

/-!
# Programs over Residues

Straight-line programs whose registers hold residues, run over any
representation of residues.

A representation is its operations, gathered in `Ops`. What integers and
exponents are is left open. Two representations that are related, operation by
operation, stay related over any program, whatever it computes: that is
`run_refines`. Nothing about arithmetic enters here. It is what makes it enough
to compare two representations one operation at a time.

Programs branch only by selecting between two registers with a flag, and flags
come from comparing registers. That is how constant-time code is written.

Code around such programs may fail. `Outcome` relates computations that fail
alike and otherwise give related results, and it goes through them step by step.

## Main definitions

* `Ops`: The operations of a representation.
* `Instr`, `run`: Programs.
* `Refines`: Operations that keep a relation.
* `Outcome`: Computations that fail alike.

## Theorems

* `step_refines`, `run_refines`: A run keeps the relation.
* `Outcome.bind`, `Outcome.guard`: So do computations that can fail.
-/

namespace Ed301

namespace Program

/-- The operations of a representation of residues. -/
structure Ops (ι ε α : Type) where
  zero : α
  one : α
  new : ι → α
  add : α → α → α
  double : α → α
  sub : α → α → α
  neg : α → α
  mul : α → α → α
  square : α → α
  half : α → α
  pow : α → ε → α
  ctEq : α → α → Bool
  ctSelect : α → α → Bool → α

/-- An instruction, with the register or the flag it writes first. -/
inductive Instr (ι ε : Type)
  | zero (dst : ℕ)
  | one (dst : ℕ)
  | new (dst : ℕ) (integer : ι)
  | add (dst a b : ℕ)
  | double (dst a : ℕ)
  | sub (dst a b : ℕ)
  | neg (dst a : ℕ)
  | mul (dst a b : ℕ)
  | square (dst a : ℕ)
  | half (dst a : ℕ)
  | pow (dst a : ℕ) (exponent : ε)
  | ctEq (flag a b : ℕ)
  | ctSelect (dst a b flag : ℕ)

/-- Registers and flags. -/
structure State (α : Type) where
  regs : ℕ → α
  flags : ℕ → Bool

variable {ι ε α β : Type}

namespace State

def setReg (s : State α) (dst : ℕ) (value : α) : State α :=
  { s with regs := Function.update s.regs dst value }

def setFlag (s : State α) (flag : ℕ) (value : Bool) : State α :=
  { s with flags := Function.update s.flags flag value }

end State

def step (A : Ops ι ε α) (s : State α) : Instr ι ε → State α
  | .zero dst => s.setReg dst A.zero
  | .one dst => s.setReg dst A.one
  | .new dst integer => s.setReg dst (A.new integer)
  | .add dst a b => s.setReg dst (A.add (s.regs a) (s.regs b))
  | .double dst a => s.setReg dst (A.double (s.regs a))
  | .sub dst a b => s.setReg dst (A.sub (s.regs a) (s.regs b))
  | .neg dst a => s.setReg dst (A.neg (s.regs a))
  | .mul dst a b => s.setReg dst (A.mul (s.regs a) (s.regs b))
  | .square dst a => s.setReg dst (A.square (s.regs a))
  | .half dst a => s.setReg dst (A.half (s.regs a))
  | .pow dst a exponent => s.setReg dst (A.pow (s.regs a) exponent)
  | .ctEq flag a b => s.setFlag flag (A.ctEq (s.regs a) (s.regs b))
  | .ctSelect dst a b flag =>
    s.setReg dst (A.ctSelect (s.regs a) (s.regs b) (s.flags flag))

/-- Run a program. -/
def run (A : Ops ι ε α) (program : List (Instr ι ε)) (s : State α) : State α :=
  program.foldl (step A) s

/-- Operations that take related arguments to related results. -/
structure Refines (R : α → β → Prop) (A : Ops ι ε α) (B : Ops ι ε β) : Prop where
  zero : R A.zero B.zero
  one : R A.one B.one
  new : ∀ integer, R (A.new integer) (B.new integer)
  add : ∀ a b r s, R a r → R b s → R (A.add a b) (B.add r s)
  double : ∀ a r, R a r → R (A.double a) (B.double r)
  sub : ∀ a b r s, R a r → R b s → R (A.sub a b) (B.sub r s)
  neg : ∀ a r, R a r → R (A.neg a) (B.neg r)
  mul : ∀ a b r s, R a r → R b s → R (A.mul a b) (B.mul r s)
  square : ∀ a r, R a r → R (A.square a) (B.square r)
  half : ∀ a r, R a r → R (A.half a) (B.half r)
  pow : ∀ a r exponent, R a r → R (A.pow a exponent) (B.pow r exponent)
  ctEq : ∀ a b r s, R a r → R b s → A.ctEq a b = B.ctEq r s
  ctSelect : ∀ a b r s choice, R a r → R b s → R (A.ctSelect a b choice) (B.ctSelect r s choice)

/-- Related registers and equal flags. -/
structure Related (R : α → β → Prop) (s : State α) (t : State β) : Prop where
  regs : ∀ i, R (s.regs i) (t.regs i)
  flags : s.flags = t.flags

variable {R : α → β → Prop} {A : Ops ι ε α} {B : Ops ι ε β} {s : State α} {t : State β}

namespace Related

theorem setReg (h : Related R s t) (dst : ℕ) {a : α} {r : β} (hr : R a r) :
    Related R (s.setReg dst a) (t.setReg dst r) where
  regs := by
    -- The register written is related by the hypothesis, the others as before.
    intro i
    unfold State.setReg
    by_cases hi : i = dst
    · subst hi
      simpa using hr
    · simpa [Function.update_of_ne hi] using h.regs i
  flags := h.flags

theorem setFlag (h : Related R s t) (flag : ℕ) {b c : Bool} (hbc : b = c) :
    Related R (s.setFlag flag b) (t.setFlag flag c) where
  regs := h.regs
  flags := by
    unfold State.setFlag
    rw [h.flags, hbc]

end Related

/-- One instruction keeps the relation. -/
theorem step_refines (hAB : Refines R A B) (h : Related R s t) (instr : Instr ι ε) :
    Related R (step A s instr) (step B t instr) := by
  cases instr with
  | zero dst => exact h.setReg dst hAB.zero
  | one dst => exact h.setReg dst hAB.one
  | new dst integer => exact h.setReg dst (hAB.new integer)
  | add dst a b => exact h.setReg dst (hAB.add _ _ _ _ (h.regs a) (h.regs b))
  | double dst a => exact h.setReg dst (hAB.double _ _ (h.regs a))
  | sub dst a b => exact h.setReg dst (hAB.sub _ _ _ _ (h.regs a) (h.regs b))
  | neg dst a => exact h.setReg dst (hAB.neg _ _ (h.regs a))
  | mul dst a b => exact h.setReg dst (hAB.mul _ _ _ _ (h.regs a) (h.regs b))
  | square dst a => exact h.setReg dst (hAB.square _ _ (h.regs a))
  | half dst a => exact h.setReg dst (hAB.half _ _ (h.regs a))
  | pow dst a exponent => exact h.setReg dst (hAB.pow _ _ exponent (h.regs a))
  | ctEq flag a b => exact h.setFlag flag (hAB.ctEq _ _ _ _ (h.regs a) (h.regs b))
  | ctSelect dst a b flag =>
      -- The condition is a flag, and the flags are equal and not only related.
      have hselect := h.setReg dst (hAB.ctSelect _ _ _ _ (s.flags flag) (h.regs a) (h.regs b))
      unfold step
      rw [← h.flags]
      exact hselect

/-- A run keeps the relation. -/
theorem run_refines (hAB : Refines R A B) (program : List (Instr ι ε)) :
    ∀ {s : State α} {t : State β}, Related R s t →
      Related R (run A program s) (run B program t) := by
  induction program with
  | nil => intro s t h; exact h
  | cons instr program ih => intro s t h; exact ih (step_refines hAB h instr)

/-- Computations that fail with one error or give related results. -/
inductive Outcome {ε α β : Type} (R : α → β → Prop) : Except ε α → Except ε β → Prop
  | ok (a : α) (b : β) (h : R a b) : Outcome R (.ok a) (.ok b)
  | error (e : ε) : Outcome R (.error e) (.error e)

namespace Outcome

variable {ε α β γ δ : Type} {R : α → β → Prop} {S : γ → δ → Prop} {x : Except ε α}
  {y : Except ε β}

/-- The same computation on both sides. -/
theorem refl (x : Except ε α) : Outcome (fun a b => a = b) x x := by
  cases x with
  | ok a => exact ok a a rfl
  | error e => exact error e

/-- One computation after another. -/
theorem bind {f : α → Except ε γ} {g : β → Except ε δ} (h : Outcome R x y)
    (hfg : ∀ a b, R a b → Outcome S (f a) (g b)) : Outcome S (x >>= f) (y >>= g) := by
  cases h with
  | ok a b h => exact hfg a b h
  | error e => exact error e

/-- A check that fails on both sides or on neither. -/
theorem guard {c d : Bool} (hcd : c = d) (e : ε) (h : Outcome R x y) :
    Outcome R (if c = true then .error e else x) (if d = true then .error e else y) := by
  subst hcd
  -- The error is one and the same, so nothing is asked of the results then.
  cases c with
  | false => exact h
  | true => exact error e

/-- A result on the left comes with a related one on the right. -/
theorem exists_right {a : α} (h : Outcome R x y) (hx : x = .ok a) : ∃ b, y = .ok b ∧ R a b := by
  cases h with
  | ok a' b h =>
      cases hx
      exact ⟨b, rfl, h⟩
  | error e => exact nomatch hx

/-- A result on the right comes with a related one on the left. -/
theorem exists_left {b : β} (h : Outcome R x y) (hy : y = .ok b) : ∃ a, x = .ok a ∧ R a b := by
  cases h with
  | ok a b' h =>
      cases hy
      exact ⟨a, rfl, h⟩
  | error e => exact nomatch hy

theorem isOk_eq (h : Outcome R x y) : x.isOk = y.isOk := by
  cases h with
  | ok a b h => rfl
  | error e => rfl

/-- Results that are equal make the computations equal. -/
theorem eq {z : Except ε α} (h : Outcome (fun a b => a = b) x z) : x = z := by
  cases h with
  | ok a b h => rw [h]
  | error e => rfl

end Outcome

end Program

end Ed301
