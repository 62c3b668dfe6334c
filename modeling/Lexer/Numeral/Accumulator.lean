import Lexer.Cursor
import Lexer.Numeral.Radix
/-! # Reading digits under a ceiling

An `Accumulator` reads a numeral digit by digit. A digit that would carry the value past the
ceiling sets the overflow flag and freezes the value, but later digits are still counted, so a
reader takes the whole run of digits it is allowed.
-/

namespace Lexer

structure Accumulator where
  radix : Radix
  ceiling : Nat
  /-- The value of the digits read before the first overflow. -/
  value : Nat
  count : Nat
  overflow : Bool

namespace Accumulator

def init (r : Radix) (ceiling : Nat) : Accumulator := ⟨r, ceiling, 0, 0, false⟩

/-- Reads one more digit `d`, which may be at least the radix: the value becomes
`value * radix + d` unless that passes the ceiling, which sets the flag instead. The three tests
come in an order in which no quantity computed passes the ceiling: first the digit, then the value
shifted one place, then the sum. After an overflow only the count grows. -/
def push (a : Accumulator) (d : Nat) : Accumulator :=
  if a.overflow then { a with count := a.count + 1 }
  else if a.ceiling < d then { a with count := a.count + 1, overflow := true }
  else if a.ceiling / a.radix.val < a.value then { a with count := a.count + 1, overflow := true }
  else if a.ceiling - d < a.value * a.radix.val then { a with count := a.count + 1, overflow := true }
  else { a with count := a.count + 1, value := a.value * a.radix.val + d }

@[simp] theorem push_count (a : Accumulator) (d : Nat) : (a.push d).count = a.count + 1 := by
  unfold push
  split <;> (try split) <;> (try split) <;> (try split) <;> rfl

@[simp] theorem push_radix (a : Accumulator) (d : Nat) : (a.push d).radix = a.radix := by
  unfold push
  split <;> (try split) <;> (try split) <;> (try split) <;> rfl

@[simp] theorem push_ceiling (a : Accumulator) (d : Nat) : (a.push d).ceiling = a.ceiling := by
  unfold push
  split <;> (try split) <;> (try split) <;> (try split) <;> rfl

theorem push_of_overflow (a : Accumulator) (d : Nat) (h : a.overflow = true) :
    (a.push d).overflow = true ∧ (a.push d).value = a.value := by
  simp [push, h]

/-- Without an earlier overflow, the three checks of `push` together say that the next value
passes the ceiling. -/
theorem push_overflow_iff (a : Accumulator) (d : Nat) (h : a.overflow = false) :
    (a.push d).overflow = true ↔ a.ceiling < a.value * a.radix.val + d := by
  have hr := a.radix.two_le
  unfold push
  simp only [h, Bool.false_eq_true, if_false]
  by_cases h1 : a.ceiling < d
  · simp only [h1, if_true, true_iff]
    omega
  · simp only [h1, if_false]
    by_cases h2 : a.ceiling / a.radix.val < a.value
    · simp only [h2, if_true, true_iff]
      have := (Nat.div_lt_iff_lt_mul (by omega)).1 h2
      omega
    · simp only [h2, if_false]
      by_cases h3 : a.ceiling - d < a.value * a.radix.val
      · simp only [h3, if_true, true_iff]
        omega
      · have fits : a.value * a.radix.val + d ≤ a.ceiling :=
          Nat.add_le_of_le_sub (Nat.le_of_not_lt h1) (Nat.le_of_not_lt h3)
        rw [if_neg h3]
        exact ⟨fun e => absurd e Bool.false_ne_true, fun lt => absurd lt (Nat.not_lt.2 fits)⟩

/-- Reads the digits of the radix at the cursor, while fewer than `limit` digits have been
counted (or without a limit); returns them and the accumulator. -/
def scan (a : Accumulator) (c : Cursor) (limit : Option Nat) :
    Except Halt ((Accumulator × List Char) × Cursor) :=
  if limit.all (a.count < ·) then do
    match ← c.fetch a.radix.isDigit with
    | (some ch, c') =>
      let a' := match a.radix.digit? ch with
        | some d => a.push d
        | none => a
      if c'.rest.length < c.rest.length then do
        let ((a'', more), c'') ← a'.scan c' limit
        return ((a'', ch :: more), c'')
      else return ((a', [ch]), c')
    | (none, c') => return ((a, []), c')
  else return ((a, []), c)
termination_by c.rest.length

end Accumulator

def extractCeiling : Nat := 4294967295

def extractHex (c : Cursor) (limit : Option Nat) : Except Halt (Accumulator × Cursor) := do
  let ((a, _), c) ← (Accumulator.init Radix.hex extractCeiling).scan c limit
  return (a, c)

def extractOctal (c : Cursor) (limit : Option Nat) : Except Halt (Accumulator × Cursor) := do
  let ((a, _), c) ← (Accumulator.init Radix.octal extractCeiling).scan c limit
  return (a, c)

/-- Reads a numeral of radix `r` into the width `w`: `unmatched` if no digit stands at the
cursor, `overflow` if its value does not fit. -/
def extractUnsigned (c : Cursor) (r : Radix) (w : Width) :
    Except Halt (Except Failure Nat × Cursor) := do
  let ((a, _), c) ← (Accumulator.init r w.max).scan c none
  if a.count = 0 then return (.error .unmatched, c)
  else if a.overflow then return (.error .overflow, c)
  else return (.ok a.value, c)

end Lexer
