import Lexer.Capture
import Lexer.Numeral.Accumulator
/-! # Numeral terms

A numeral is a lead text followed at once by a digit, then the rest of the run of digits; its
term writes the digits and then the value. `readUnsigned` takes the whole run, and a value beyond
the width is an `overflow`; `readFixedHex` takes as many digits as spell the width.
-/

namespace Lexer

/-- The lead text and the first digit of a numeral, and the accumulator that has read it. -/
def readLeadDigit (c : Cursor) (lead : String) (r : Radix) (ceiling : Nat) :
    Except Halt (Option (Char × Accumulator) × Cursor) := do
  match ← c.leapFetch lead r.isDigit with
  | (some ch, c) =>
    let a := Accumulator.init r ceiling
    let a := match r.digit? ch with
      | some d => a.push d
      | none => a
    return (some (ch, a), c)
  | (none, c) => return (none, c)

def readUnsigned (c : Cursor) (lead : String) (r : Radix) (w : Width) :
    Except Halt Attempt := do
  match ← readLeadDigit c lead r w.max with
  | (none, c) => return .failed .unmatched c .empty
  | (some (first, a), c) =>
    let ((a, more), c) ← a.scan c none
    let digits := Capture.ofChars (first :: more)
    if a.overflow then return .failed .overflow c digits
    else return .matched c (digits ++ .ofValue a.value)

def readFixedHex (c : Cursor) (lead : String) (w : Width) : Except Halt Attempt := do
  match ← readLeadDigit c lead Radix.hex w.max with
  | (none, c) => return .failed .unmatched c .empty
  | (some (first, a), c) =>
    let ((a, more), c) ← a.scan c (some w.hexDigits)
    let digits := Capture.ofChars (first :: more)
    if a.count < w.hexDigits then return .failed .incomplete c digits
    else return .matched c (digits ++ .ofValue a.value)

end Lexer
