import Lexer.Halt
/-! # Line and column

A `Position` is the zero-based line and column of a scalar boundary, with columns counted in
scalars. Both counts are 32-bit: a step past `maxCount`, or showing a count already at it, halts
with `Halt.countOverflow`.
-/

namespace Lexer

def maxCount : Nat := 4294967295

/-- Adds `k` to the count `n`, refusing a sum above `maxCount`. -/
def bumpCount (n k : Nat) : Except Halt Nat :=
  if n + k ≤ maxCount then .ok (n + k) else .error .countOverflow

structure Position where
  line : Nat
  column : Nat
deriving DecidableEq, Repr, Inhabited

namespace Position

def start : Position := ⟨0, 0⟩

/-- The position after the scalar `c`: a line feed opens the next line, anything else moves
one column on. -/
def advance (p : Position) (c : Char) : Except Halt Position :=
  if c = '\n' then do
    let line ← bumpCount p.line 1
    return ⟨line, 0⟩
  else do
    let column ← bumpCount p.column 1
    return ⟨p.line, column⟩

/-- The position after the whole text `s`: each line feed opens a line, and after the last one
the column counts only the scalars that follow it. -/
def advanceText (p : Position) (s : String) : Except Halt Position :=
  let cs := s.toList
  let breaks := cs.count '\n'
  if breaks = 0 then do
    let column ← bumpCount p.column cs.length
    return ⟨p.line, column⟩
  else do
    let line ← bumpCount p.line breaks
    return ⟨line, (cs.reverse.takeWhile (· ≠ '\n')).length⟩

def render (p : Position) : Except Halt String := do
  let line ← bumpCount p.line 1
  let column ← bumpCount p.column 1
  return s!"{line}:{column}"

example : (start.advanceText "ab\ncd").toOption = some ⟨1, 2⟩ := by decide
example : (Position.mk 0 maxCount).render.toOption = none := by decide

end Position

end Lexer
