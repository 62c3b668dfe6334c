import Lexer.Text.Utf8
import Lexer.Position
/-! # A cursor over a byte buffer

A `Cursor` reads forward one scalar at a time. A lenient cursor reads an invalid span as one
U+FFFD; a strict one reads nothing and keeps the span as its fault. Literals are matched byte for
byte, and every move advances the position, which may halt with `Halt.countOverflow`.
-/

namespace Lexer

/-- How a cursor reads invalid UTF-8. -/
inductive Utf8Policy where
  /-- An invalid span reads as one U+FFFD. -/
  | lenient
  /-- An invalid span reads as nothing and is recorded. -/
  | strict
deriving DecidableEq, Repr, Inhabited

structure Utf8Fault where
  offset : Nat
  position : Position
  length : Nat
deriving DecidableEq, Repr

/-- A cursor partway through a byte buffer. -/
structure Cursor where
  rest : List UInt8
  offset : Nat
  position : Position
  policy : Utf8Policy
  fault : Option Utf8Fault
deriving DecidableEq, Repr

namespace Cursor

def init (bytes : List UInt8) (policy : Utf8Policy) (origin : Position) : Cursor :=
  ⟨bytes, 0, origin, policy, none⟩

def done (c : Cursor) : Bool := c.rest.isEmpty

/-- Records an invalid span of `length` bytes at the cursor, unless a fault is already kept. -/
def noteFault (c : Cursor) (length : Nat) : Cursor :=
  match c.fault with
  | some _ => c
  | none => { c with fault := some ⟨c.offset, c.position, length⟩ }

/-- The scalar at the cursor and the bytes it spans, as the policy reads them; `none` at the
end, and at an invalid span of a strict cursor, which then records the span. -/
def scan (c : Cursor) : Option (Char × Nat) × Cursor :=
  match Utf8.decode c.rest with
  | .scalar ch width => (some (ch, width), c)
  | .empty => (none, c)
  | .invalid length =>
    match c.policy with
    | .lenient => (some ('�', length), c)
    | .strict => (none, c.noteFault length)

def consume (c : Cursor) (ch : Char) (width : Nat) : Except Halt Cursor := do
  let position ← c.position.advance ch
  return { c with rest := c.rest.drop width, offset := c.offset + width, position }

def peek (c : Cursor) : Option Char × Cursor :=
  let (next, c) := c.scan
  (next.map Prod.fst, c)

def hop (c : Cursor) (ch : Char) : Except Halt (Bool × Cursor) :=
  match c.scan with
  | (some (got, width), c) =>
    if got = ch then do return (true, ← c.consume got width) else pure (false, c)
  | (none, c) => pure (false, c)

def leap (c : Cursor) (s : String) : Except Halt (Bool × Cursor) :=
  let bytes := Utf8.encode s
  if bytes.isPrefixOf c.rest then do
    let position ← c.position.advanceText s
    return (true, { c with rest := c.rest.drop bytes.length, offset := c.offset + bytes.length,
                           position })
  else pure (false, c)

def fetch (c : Cursor) (p : Char → Bool) : Except Halt (Option Char × Cursor) :=
  match c.scan with
  | (some (ch, width), c) =>
    if p ch then do return (some ch, ← c.consume ch width) else pure (none, c)
  | (none, c) => pure (none, c)

def fetchAny (c : Cursor) : Except Halt (Option Char × Cursor) :=
  c.fetch fun _ => true

def skipRun (c : Cursor) (p : Char → Bool) :
    Except Halt ((List Char × Option Char) × Cursor) :=
  match c.scan with
  | (some (ch, width), c1) =>
    if p ch then do
      let c2 ← c1.consume ch width
      if c2.rest.length < c.rest.length then do
        let ((run, stop), c3) ← c2.skipRun p
        return ((ch :: run, stop), c3)
      else pure (([ch], none), c2)
    else pure (([], some ch), c1)
  | (none, c1) => pure (([], none), c1)
termination_by c.rest.length

/-- Moves past the longest run of scalars that `p` accepts; returns how many bytes it spans and
the scalar that stopped it. -/
def skip (c : Cursor) (p : Char → Bool) : Except Halt ((Nat × Option Char) × Cursor) := do
  let ((_, stop), c') ← c.skipRun p
  return ((c'.offset - c.offset, stop), c')

/-- Moves past the text `s` and the scalar after it, if the bytes ahead spell `s` and a
well-formed scalar that `p` accepts follows; otherwise stays. -/
def leapFetch (c : Cursor) (s : String) (p : Char → Bool) :
    Except Halt (Option Char × Cursor) :=
  let bytes := Utf8.encode s
  if bytes.isPrefixOf c.rest then
    match Utf8.decode (c.rest.drop bytes.length) with
    | .scalar ch width =>
      if p ch then do
        let position ← c.position.advanceText s
        let position ← position.advance ch
        return (some ch, { c with rest := c.rest.drop (bytes.length + width),
                                  offset := c.offset + bytes.length + width, position })
      else pure (none, c)
    | _ => pure (none, c)
  else pure (none, c)

end Cursor

end Lexer
