import Lexer.Term.Attempt
/-! # Tokens

A scan tries its bindings in order at each place. One that matches and moves on gives a token;
one that fails hard ends the scan there; where none applies the scan ends with unexpected content.
A strict cursor that met invalid UTF-8 reports that instead.
-/

namespace Lexer

/-- A term that makes tokens of kind `key`. -/
structure Binding (κ : Type) where
  key : κ
  term : Term
  description : String

/-- A token of a scan. -/
structure Token (κ : Type) where
  key : κ
  text : List UInt8
  values : List Nat
  position : Position

structure ScanError where
  failure : Failure
  what : String
deriving DecidableEq, Repr

def ScanError.unexpectedContent : ScanError := ⟨.unexpected, "content"⟩

def ScanError.invalidUtf8 : ScanError := ⟨.invalid, "utf-8 sequence"⟩

structure LocatedError where
  error : ScanError
  position : Position
deriving DecidableEq, Repr

def LocatedError.message (e : LocatedError) : Except Halt String := do
  let place ← e.position.render
  return "[" ++ place ++ "] " ++ e.error.failure.word ++ " " ++ e.error.what

/-- The error a scan ends with at cursor `c`: the invalid UTF-8 a strict cursor met, if any,
else `e` at `start`. -/
def locateError (c : Cursor) (e : ScanError) (start : Position) : LocatedError :=
  match c.fault with
  | some fault => ⟨.invalidUtf8, fault.position⟩
  | none => ⟨e, start⟩

/-- What the bindings make of the place where a round of a scan begins. -/
inductive Verdict (κ : Type) where
  | token (key : κ) (w : Capture) (c : Cursor)
  | noMatch (c : Cursor)
  | failed (e : ScanError) (c : Cursor)

/-- Tries the bindings in order at a place that begins at offset `start`. -/
def tryBindings {κ : Type} (start : Nat) : List (Binding κ) → Cursor → Except Halt (Verdict κ)
  | [], c => pure (.noMatch c)
  | b :: bs, c => do
    let a ← b.term.attempt c
    match a.outcome with
    | .matched =>
      if a.cursor.offset = start then tryBindings start bs a.cursor
      else return .token b.key a.written a.cursor
    | .failed .unmatched => tryBindings start bs a.cursor
    | .failed why => return .failed ⟨why, b.description⟩ a.cursor

/-- Scans from the cursor to the end: the tokens found, and the error that ended the scan early,
if one did. -/
def scanTokens {κ : Type} (bindings : List (Binding κ)) (c : Cursor) :
    Except Halt (List (Token κ) × Option LocatedError) := do
  if c.done then return ([], none)
  match ← tryBindings c.offset bindings c with
  | .token key w c' =>
    let t : Token κ := ⟨key, w.text, w.values, c.position⟩
    if c'.rest.length < c.rest.length then
      let (ts, e) ← scanTokens bindings c'
      return (t :: ts, e)
    else return ([t], none)
  | .noMatch c' => return ([], some (locateError c' .unexpectedContent c.position))
  | .failed e c' => return ([], some (locateError c' e c.position))
termination_by c.rest.length

/-- Scans `bytes` with the bindings, reading them under `policy`, the first scalar standing at
`origin`. -/
def tokenize {κ : Type} (bindings : List (Binding κ)) (bytes : List UInt8) (policy : Utf8Policy)
    (origin : Position) : Except Halt (List (Token κ) × Option LocatedError) :=
  scanTokens bindings (Cursor.init bytes policy origin)

def collectTokens {κ : Type} (bindings : List (Binding κ)) (bytes : List UInt8) :
    Except Halt (Except LocatedError (List (Token κ))) := do
  match ← tokenize bindings bytes .lenient Position.start with
  | (ts, none) => return .ok ts
  | (_, some e) => return .error e

end Lexer
