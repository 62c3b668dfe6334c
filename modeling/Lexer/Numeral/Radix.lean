import Lexer.Outcome
import Lexer.Text.CharClass
/-! # Radixes and widths

A `Radix` is a base from 2 to 36, whose digits are `0`–`9` and then the letters of either case.
A `Width` is the size of an unsigned integer a numeral is read into, 8 to 64 bits.
-/

namespace Lexer

/-- A numeral base from 2 to 36. -/
structure Radix where
  val : Nat
  two_le : 2 ≤ val
  le_thirtySix : val ≤ 36

namespace Radix

def ofNat? (r : Nat) : Except BuildError Radix :=
  if h : 2 ≤ r ∧ r ≤ 36 then .ok ⟨r, h.1, h.2⟩ else .error (.unsupportedRadix r)

def octal : Radix := ⟨8, by decide, by decide⟩

def hex : Radix := ⟨16, by decide, by decide⟩

def digit? (r : Radix) (c : Char) : Option Nat :=
  match digitValue? c with
  | some v => if v < r.val then some v else none
  | none => none

def isDigit (r : Radix) (c : Char) : Bool := (r.digit? c).isSome

example : (hex.digit? 'f', hex.digit? 'G', octal.digit? '8') = (some 15, none, none) := by decide

end Radix

/-- The size of an unsigned integer. -/
inductive Width where
  | w8
  | w16
  | w32
  | w64
deriving DecidableEq, Repr, Inhabited

namespace Width

def bits : Width → Nat
  | w8 => 8
  | w16 => 16
  | w32 => 32
  | w64 => 64

def ofBits? : Nat → Option Width
  | 8 => some w8
  | 16 => some w16
  | 32 => some w32
  | 64 => some w64
  | _ => none

def max : Width → Nat
  | w8 => 255
  | w16 => 65535
  | w32 => 4294967295
  | w64 => 18446744073709551615

/-- The number of hexadecimal digits that spell every value of the width. -/
def hexDigits (w : Width) : Nat := w.bits / 4

example (w : Width) : w.max = 2 ^ w.bits - 1 ∧ w.max < 16 ^ w.hexDigits := by
  cases w <;> decide

end Width

end Lexer
