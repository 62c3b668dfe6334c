import Lexer.Cursor
import Lexer.Text.CharClass
/-! # Operations on a cursor

A `CursorOp` is one thing a client does with a cursor. `Cursor.performAll` carries out a list
of them and returns each reply with the cursor after it.
-/

namespace Lexer

/-- One operation on a cursor. -/
inductive CursorOp where
  | peek
  | hop (c : Char)
  | leap (s : String)
  | fetch (k : CharClass)
  | fetchAny
  | skip (k : CharClass)
  | leapFetch (s : String) (k : CharClass)
  | done
  | rest
deriving Repr

inductive CursorReply where
  | scalar (c : Option Char)
  | flag (b : Bool)
  | skipped (bytes : Nat) (stop : Option Char)
  | bytes (bs : List UInt8)
deriving DecidableEq, Repr

namespace Cursor

def perform (c : Cursor) : CursorOp → Except Halt (CursorReply × Cursor)
  | .peek => let (r, c) := c.peek; pure (.scalar r, c)
  | .hop ch => do let (r, c) ← c.hop ch; return (.flag r, c)
  | .leap s => do let (r, c) ← c.leap s; return (.flag r, c)
  | .fetch k => do let (r, c) ← c.fetch k.contains; return (.scalar r, c)
  | .fetchAny => do let (r, c) ← c.fetchAny; return (.scalar r, c)
  | .skip k => do let ((n, stop), c) ← c.skip k.contains; return (.skipped n stop, c)
  | .leapFetch s k => do let (r, c) ← c.leapFetch s k.contains; return (.scalar r, c)
  | .done => pure (.flag c.done, c)
  | .rest => pure (.bytes c.rest, c)

/-- Carries out the operations in order; each reply comes with the cursor after its operation. -/
def performAll (c : Cursor) : List CursorOp → Except Halt (List (CursorReply × Cursor))
  | [] => pure []
  | op :: ops => do
    let (r, c') ← c.perform op
    return (r, c') :: (← c'.performAll ops)

end Cursor

end Lexer
