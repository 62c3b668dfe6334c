import Lexer.Capture
/-! # Loops over a cursor

Repetition, reading to the end of a line or up to a closing term, and the body of a quoted
literal, each given its steps as functions. Every loop goes round again only once the cursor has
moved on, so each ends by recursion on the bytes left.
-/

namespace Lexer

abbrev Step := Cursor → Except Halt Attempt

/-- Runs `step` as long as it matches and moves on. It ends with a match where the step does not
apply or matches without moving, and with the step's failure where that is hard. -/
def repeatStep (step : Step) (c : Cursor) : Except Halt Attempt := do
  let a ← step c
  match a.outcome with
  | .matched =>
    if a.cursor.rest.length < c.rest.length then
      return (← repeatStep step a.cursor).after a.written
    else return .matched a.cursor a.written
  | .failed .unmatched => return .matched a.cursor a.written
  | .failed _ => return a
termination_by c.rest.length

def readToLineEnd (c : Cursor) : Except Halt Attempt := do
  if c.done then return .matched c .empty
  let (fed, c1) ← c.hop '\n'
  if fed then return .matched c1 .empty
  let (fed, c2) ← c1.leap "\r\n"
  if fed then return .matched c2 .empty
  match ← c2.fetchAny with
  | (none, c3) => return .failed .unterminated c3 .empty
  | (some ch, c3) =>
    if c3.rest.length < c.rest.length then
      return (← readToLineEnd c3).after (.ofChar ch)
    else return .matched c3 (.ofChar ch)
termination_by c.rest.length

/-- Reads every scalar up to where `stop` matches, and what `stop` matches. Writes the scalars
before it, and nothing of what `stop` writes. A hard failure of `stop` is the loop's failure;
running out of scalars is `unterminated`. -/
def readToStop (stop : Step) (c : Cursor) : Except Halt Attempt := do
  let a ← stop c
  match a.outcome with
  | .matched => return .matched a.cursor .empty
  | .failed .unmatched =>
    match ← a.cursor.fetchAny with
    | (none, c3) => return .failed .unterminated c3 .empty
    | (some ch, c3) =>
      if c3.rest.length < c.rest.length then
        return (← readToStop stop c3).after (.ofChar ch)
      else return .matched c3 (.ofChar ch)
  | .failed why => return .failed why a.cursor .empty
termination_by c.rest.length

/-- How one round of a loop ended: with the loop's result, or ready for another round at `c`
after writing `w`. -/
inductive Round where
  | finished (a : Attempt)
  | again (c : Cursor) (w : Capture)

def closeOrContent (quote : Char) (content : Char → Bool) (c : Cursor) (w : Capture) :
    Except Halt Round := do
  let (closed, c2) ← c.hop quote
  if closed then return .finished (.matched c2 w)
  match ← c2.fetch content with
  | (none, c3) => return .finished (.failed .unterminated c3 w)
  | (some ch, c3) => return .again c3 (w ++ .ofChar ch)

/-- One round of a quoted body: an escape, else the closing quote, else a content scalar. An
escape that matches without moving would match again at the same place in every round after, so
the body never ends. -/
def quotedRound (quote : Char) (content : Char → Bool) (escape : Step) (c : Cursor) :
    Except Halt Round := do
  let e ← escape c
  match e.outcome with
  | .matched =>
    if e.cursor.rest.length < c.rest.length then return .again e.cursor e.written
    else throw .endless
  | .failed .unmatched => closeOrContent quote content e.cursor e.written
  | .failed _ => return .finished e

def readQuotedBody (quote : Char) (content : Char → Bool) (escape : Step) (c : Cursor) :
    Except Halt Attempt := do
  match ← quotedRound quote content escape c with
  | .finished a => return a
  | .again c' w =>
    if c'.rest.length < c.rest.length then
      return (← readQuotedBody quote content escape c').after w
    else return .matched c' w
termination_by c.rest.length

def noEscape : Step := fun c => pure (.failed .unmatched c .empty)

end Lexer
