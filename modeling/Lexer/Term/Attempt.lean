import Lexer.Term.Basic
import Lexer.Term.Loop
import Lexer.Term.Numeral
import Lexer.Term.Decoder
/-! # Running a term

`Term.attempt t c` runs `t` at `c`: whether it matched, where the cursor stands and what it
wrote. A sequence that has moved on turns `unmatched` into `incomplete`, a delimited form after
its opener into `unterminated`, and an escape after its key into `invalid`.
-/

namespace Lexer

def leapFirst (c : Cursor) : List String → Except Halt Attempt
  | [] => pure (.failed .unmatched c .empty)
  | alt :: alts => do
    let (ok, c') ← c.leap alt
    if ok then return .matched c' (.ofText alt) else leapFirst c alts

/-- The longest text of `alts` that begins with the scalar at the cursor and whose bytes stand
there; `alts` are ordered longest first. -/
def readAnyLiteral (c : Cursor) (alts : List String) : Except Halt Attempt :=
  match c.peek with
  | (none, c) => pure (.failed .unmatched c .empty)
  | (some first, c) => leapFirst c (alts.filter fun alt => alt.toList.head? == some first)

def Substitution.literalText (key : Char) : Substitution → Capture
  | .itself => .ofChar key
  | .byte b => .ofByte b
  | .char ch => .ofChar ch
  | .text s => .ofText s
  | .term _ => .empty

def Substitution.isTerm : Substitution → Bool
  | .term _ => true
  | _ => false

mutual

/-- Runs the term at the cursor. -/
def Term.attempt : Term → Cursor → Except Halt Attempt
  | .literal s, c => do
    let (ok, c) ← c.leap s
    return if ok then .matched c (.ofText s) else .failed .unmatched c .empty
  | .scalar ch, c => do
    let (ok, c) ← c.hop ch
    return if ok then .matched c (.ofChar ch) else .failed .unmatched c .empty
  | .scalarIn k, c => do
    match ← c.fetch k.contains with
    | (some ch, c) => return .matched c (.ofChar ch)
    | (none, c) => return .failed .unmatched c .empty
  | .word first more, c => do
    match ← c.fetch first.contains with
    | (none, c) => return .failed .unmatched c .empty
    | (some ch, c) =>
      let ((run, _), c) ← c.skipRun more.contains
      return .matched c (.ofChars (ch :: run))
  | .endOfInput, c => pure (if c.done then .matched c .empty else .failed .unmatched c .empty)
  | .endOfLine, c => do
    let (fed, c) ← c.hop '\n'
    if fed then return .matched c (.ofText "\n")
    let (fed, c) ← c.leap "\r\n"
    if fed then return .matched c (.ofText "\r\n")
    return if c.done then .matched c .empty else .failed .unmatched c .empty
  | .seq parts, c => attemptSeq c.offset parts c
  | .firstOf choices, c => attemptFirst choices c
  | .optional t, c => do
    let a ← t.attempt c
    match a.outcome with
    | .failed .unmatched => return .matched a.cursor a.written
    | _ => return a
  | .many t, c => repeatStep t.attempt c
  | .many1 t, c => do
    let a ← t.attempt c
    match a.outcome with
    | .matched => return (← repeatStep t.attempt a.cursor).after a.written
    | .failed _ => return a
  | .discard t, c => do return (← t.attempt c).silent
  | .anyLiteral alts, c => readAnyLiteral c alts
  | .between opener content closer, c => do
    let a ← opener.attempt c
    match a.outcome with
    | .failed why => return .failed why a.cursor .empty
    | .matched =>
      let b ← attemptContent content a.cursor
      match b.outcome with
      | .failed _ => return b
      | .matched =>
        let z ← closer.attempt b.cursor
        return ⟨z.outcome.mapFailure Failure.unterminatedIfUnmatched, z.cursor, b.written⟩
  | .untilLineEnd opener, c => do
    let a ← opener.attempt c
    match a.outcome with
    | .failed why => return .failed why a.cursor .empty
    | .matched => readToLineEnd a.cursor
  | .untilStop opener stop, c => do
    let a ← opener.attempt c
    match a.outcome with
    | .failed why => return .failed why a.cursor .empty
    | .matched => readToStop stop.attempt a.cursor
  | .quoted quote content escape, c => do
    match ← c.fetch quote.contains with
    | (none, c) => return .failed .unmatched c .empty
    | (some q, c) => readQuotedBody q content.contains (attemptEscapeStep escape) c
  | .unsigned lead r w, c => readUnsigned c lead r w
  | .fixedHex lead w, c => readFixedHex c lead w
  | .escape lead table fallback, c => do
    let (ok, c) ← c.hop lead
    if !ok then return .failed .unmatched c .empty
    match c.peek with
    | (none, c) => return .failed .invalid c .empty
    | (some key, c) =>
      match ← attemptEntry table key c with
      | some a => return a
      | none => attemptFallback fallback key c
  | .hexByteRun, c => readHexByteRun c
  | .hexByte, c => readHexByte c
  | .hexScalar4, c => readHexScalar4 c
  | .hexScalar8, c => readHexScalar8 c
  | .octalByte, c => readOctalByte c
  | .surrogatePair first second unpaired, c => readSurrogatePair c first second unpaired

/-- Runs the parts of a sequence that began at the offset `start`. -/
def attemptSeq (start : Nat) : List Term → Cursor → Except Halt Attempt
  | [], c => pure (.matched c .empty)
  | t :: ts, c => do
    let a ← t.attempt c
    match a.outcome with
    | .matched => return (← attemptSeq start ts a.cursor).after a.written
    | .failed .unmatched =>
      let why := if a.cursor.offset = start then Failure.unmatched else .incomplete
      return .failed why a.cursor a.written
    | .failed _ => return a

/-- Runs the choices in turn up to the first that does not fail with `unmatched`. -/
def attemptFirst : List Term → Cursor → Except Halt Attempt
  | [], c => pure (.failed .unmatched c .empty)
  | t :: ts, c => do
    let a ← t.attempt c
    match a.outcome with
    | .failed .unmatched => return (← attemptFirst ts a.cursor).after a.written
    | _ => return a

def attemptContent : List Term → Cursor → Except Halt Attempt
  | [], c => pure (.matched c .empty)
  | t :: ts, c => do
    let a ← t.attempt c
    match a.outcome with
    | .matched => return (← attemptContent ts a.cursor).after a.written
    | .failed _ => return a.mapFailure Failure.unterminatedIfUnmatched

def attemptEscapeStep : Option Term → Step
  | none => noEscape
  | some e => e.attempt

def attemptEntry : List (Char × Substitution) → Char → Cursor → Except Halt (Option Attempt)
  | [], _, _ => pure none
  | (k, s) :: entries, key, c => do
    if k = key then
      let (_, c) ← c.hop key
      return some (← s.apply key c)
    else attemptEntry entries key c

/-- Runs the fallback of an escape table for `key`; without one the escape is invalid. -/
def attemptFallback : Option Substitution → Char → Cursor → Except Halt Attempt
  | none, _, c => pure (.failed .invalid c .empty)
  | some s, key, c => do
    if s.isTerm then s.apply key c
    else
      let (_, c) ← c.hop key
      s.apply key c

def Substitution.apply : Substitution → Char → Cursor → Except Halt Attempt
  | .term t, _, c => do return (← t.attempt c).mapFailure Failure.invalidIfUnmatched
  | s, key, c => pure (.matched c (s.literalText key))

end

end Lexer
