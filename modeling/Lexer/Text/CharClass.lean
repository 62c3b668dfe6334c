/-! # Character classes

A `CharClass` names a set of scalars: fixed ASCII and Unicode classes, explicit sets and ranges,
the digits of a radix, and their complement, union and intersection. White space is the Unicode
property `White_Space`; control characters are general category `Cc`.
-/

namespace Lexer

/-- Closed ranges of the scalars with the Unicode property `White_Space`, ascending. -/
def whiteSpaceRanges : List (Nat × Nat) :=
  [(0x09, 0x0D), (0x20, 0x20), (0x85, 0x85), (0xA0, 0xA0), (0x1680, 0x1680), (0x2000, 0x200A),
   (0x2028, 0x2029), (0x202F, 0x202F), (0x205F, 0x205F), (0x3000, 0x3000)]

/-- The value of an ASCII letter or digit read as a digit of any radix up to 36: `0`–`9`
are 0–9, and a letter of either case is 10–35. -/
def digitValue? (c : Char) : Option Nat :=
  if '0' ≤ c ∧ c ≤ '9' then some (c.toNat - '0'.toNat)
  else if 'a' ≤ c ∧ c ≤ 'z' then some (c.toNat - 'a'.toNat + 10)
  else if 'A' ≤ c ∧ c ≤ 'Z' then some (c.toNat - 'A'.toNat + 10)
  else none

/-- A set of scalars, described by how it is built. -/
inductive CharClass where
  | univ
  | empty
  | ascii
  | asciiAlpha
  | asciiDigit
  | asciiAlnum
  | asciiHexDigit
  | asciiUpper
  | asciiLower
  | asciiBlank
  /-- The ASCII punctuation marks `!`–`/`, `:`–`@`, `[`–`` ` `` and `{`–`~`. -/
  | asciiPunct
  | whiteSpace
  /-- Control characters: U+0000–U+001F and U+007F–U+009F. -/
  | control
  | identStart
  | identContinue
  | oneOf (members : List Char)
  | range (lo hi : Char)
  /-- The ASCII digits and letters whose digit value is below `radix`. -/
  | digit (radix : Nat)
  | compl (c : CharClass)
  | union (cs : List CharClass)
  | inter (cs : List CharClass)
deriving Repr, Inhabited

namespace CharClass

mutual

def contains : CharClass → Char → Bool
  | univ, _ => true
  | empty, _ => false
  | ascii, c => c.toNat < 0x80
  | asciiAlpha, c => ('a' ≤ c ∧ c ≤ 'z') ∨ ('A' ≤ c ∧ c ≤ 'Z')
  | asciiDigit, c => '0' ≤ c ∧ c ≤ '9'
  | asciiAlnum, c => ('a' ≤ c ∧ c ≤ 'z') ∨ ('A' ≤ c ∧ c ≤ 'Z') ∨ ('0' ≤ c ∧ c ≤ '9')
  | asciiHexDigit, c => ('0' ≤ c ∧ c ≤ '9') ∨ ('a' ≤ c ∧ c ≤ 'f') ∨ ('A' ≤ c ∧ c ≤ 'F')
  | asciiUpper, c => 'A' ≤ c ∧ c ≤ 'Z'
  | asciiLower, c => 'a' ≤ c ∧ c ≤ 'z'
  | asciiBlank, c => c = '\t' ∨ c = '\n' ∨ c = '\x0c' ∨ c = '\r' ∨ c = ' '
  | asciiPunct, c =>
    ('!' ≤ c ∧ c ≤ '/') ∨ (':' ≤ c ∧ c ≤ '@') ∨ ('[' ≤ c ∧ c ≤ '\x60') ∨ ('{' ≤ c ∧ c ≤ '~')
  | whiteSpace, c => whiteSpaceRanges.any (fun r => r.1 ≤ c.toNat ∧ c.toNat ≤ r.2)
  | control, c => c.toNat ≤ 0x1F ∨ (0x7F ≤ c.toNat ∧ c.toNat ≤ 0x9F)
  | identStart, c => ('a' ≤ c ∧ c ≤ 'z') ∨ ('A' ≤ c ∧ c ≤ 'Z') ∨ c = '_'
  | identContinue, c => ('a' ≤ c ∧ c ≤ 'z') ∨ ('A' ≤ c ∧ c ≤ 'Z') ∨ ('0' ≤ c ∧ c ≤ '9') ∨ c = '_'
  | oneOf members, c => members.contains c
  | range lo hi, c => lo ≤ c ∧ c ≤ hi
  | digit radix, c => match digitValue? c with
    | some v => v < radix
    | none => false
  | compl k, c => !k.contains c
  | union cs, c => containsSome cs c
  | inter cs, c => containsEvery cs c

def containsSome : List CharClass → Char → Bool
  | [], _ => false
  | k :: ks, c => k.contains c || containsSome ks c

def containsEvery : List CharClass → Char → Bool
  | [], _ => true
  | k :: ks, c => k.contains c && containsEvery ks c

end

example : whiteSpace.contains '　' ∧ !whiteSpace.contains '​' := by decide
example : asciiBlank.contains '\x0c' ∧ !asciiBlank.contains '\x0b' := by decide
example : (digit 16).contains 'F' ∧ !(digit 16).contains 'g' := by decide
example : (compl (union [control, oneOf ['"', '\\']])).contains 'a' := by decide

end CharClass

end Lexer
