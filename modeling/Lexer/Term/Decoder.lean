import Lexer.Capture
import Lexer.Numeral.Accumulator
import Lexer.Term.Basic
/-! # Escape decoders

The decoders an escape hands off to after its key: digits that spell a byte or a scalar, and
UTF-16 units, where a high surrogate pairs with a low one after it. Each reads as many digits as
it takes before it judges them, and does not apply where no digit stands.
-/

namespace Lexer

/-- A match that writes the scalar `v`, or `invalid` if `v` is a surrogate or beyond U+10FFFF. -/
def writeScalar (c : Cursor) (v : Nat) : Attempt :=
  if v.isValidChar then .matched c (.ofChar (Char.ofNat v)) else .failed .invalid c .empty

/-- A match that writes the byte `v`, or `invalid` if `v` is above 255. -/
def writeByte (c : Cursor) (v : Nat) : Attempt :=
  if v < 256 then .matched c (.ofByte v.toUInt8) else .failed .invalid c .empty

def readHexByteRun (c : Cursor) : Except Halt Attempt := do
  let (a, c) ← extractHex c none
  if a.count = 0 then return .failed .unmatched c .empty
  else if a.overflow then return .failed .invalid c .empty
  else return writeByte c a.value

def readHexByte (c : Cursor) : Except Halt Attempt := do
  let (a, c) ← extractHex c (some 2)
  if a.count = 0 then return .failed .unmatched c .empty
  else if a.count = 1 then return .failed .incomplete c .empty
  else return writeByte c a.value

def readHexScalar4 (c : Cursor) : Except Halt Attempt := do
  let (a, c) ← extractHex c (some 4)
  if a.count = 0 then return .failed .unmatched c .empty
  else if a.count = 4 then return writeScalar c a.value
  else return .failed .invalid c .empty

def readHexScalar8 (c : Cursor) : Except Halt Attempt := do
  let (a, c) ← extractHex c (some 8)
  if a.count = 0 then return .failed .unmatched c .empty
  else if a.count = 8 then return writeScalar c a.value
  else return .failed .incomplete c .empty

def readOctalByte (c : Cursor) : Except Halt Attempt := do
  let (a, c) ← extractOctal c (some 3)
  if a.count = 0 then return .failed .unmatched c .empty
  else return writeByte c a.value

/-- The scalar that the high surrogate `high` and the low surrogate `low` spell together: ten
bits from each above U+10000. -/
def combineSurrogates (high low : Nat) : Nat :=
  0x10000 + high % 0x400 * 0x400 + low % 0x400

def isHighSurrogate (u : Nat) : Bool := 0xD800 ≤ u ∧ u ≤ 0xDBFF

def isLowSurrogate (u : Nat) : Bool := 0xDC00 ≤ u ∧ u ≤ 0xDFFF

/-- Reads a UTF-16 unit of four hexadecimal digits. Without any digit, it does not apply unless
an introducer was already read (`committed`), and then it is `invalid`, as are one to three
digits. -/
def readUnit (c : Cursor) (committed : Bool) : Except Halt (Except Failure Nat × Cursor) := do
  let (a, c) ← extractHex c (some 4)
  if a.count = 0 ∧ !committed then return (.error .unmatched, c)
  else if a.count = 4 then return (.ok a.value, c)
  else return (.error .invalid, c)

def unpairedSurrogate (c : Cursor) : UnpairedPolicy → Attempt
  | .reject => .failed .invalid c .empty
  | .replace => .matched c (.ofChar '�')

/-- Reads a UTF-16 escape: `first` and a unit; a high surrogate then needs `second` and a low
surrogate. A unit that pairs with nothing is unpaired, and so is a high surrogate followed by
something else; when unpaired surrogates are replaced, a second unit that cannot pair is then
read on its own. -/
def readSurrogatePair (c : Cursor) (first second : String) (policy : UnpairedPolicy) :
    Except Halt Attempt := do
  let (ok, c) ← c.leap first
  if !ok then return .failed .unmatched c .empty
  match ← readUnit c !first.isEmpty with
  | (.error why, c) => return .failed why c .empty
  | (.ok high, c) =>
    if isLowSurrogate high then return unpairedSurrogate c policy
    else if !isHighSurrogate high then return writeScalar c high
    else
      let (ok, c) ← c.leap second
      if !ok then return unpairedSurrogate c policy
      match ← readUnit c true with
      | (.error why, c) => return .failed why c .empty
      | (.ok low, c) =>
        if isLowSurrogate low then return writeScalar c (combineSurrogates high low)
        else match policy with
          | .reject => return .failed .invalid c .empty
          | .replace =>
            let alone := if isHighSurrogate low then unpairedSurrogate c policy else writeScalar c low
            return alone.after (.ofChar '�')

example : combineSurrogates 0xD83D 0xDE00 = 0x1F600 := by decide

end Lexer
