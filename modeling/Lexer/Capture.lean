import Lexer.Cursor
import Lexer.Outcome
/-! # What a term writes

A match writes bytes of text and unsigned values into a `Capture`. An `Attempt` is the result
of running a term: its outcome, the cursor after it, and what it wrote, before a failure too.
-/

namespace Lexer

/-- Text bytes and unsigned values written by a match. -/
structure Capture where
  text : List UInt8
  values : List Nat
deriving DecidableEq, Repr, Inhabited

namespace Capture

def empty : Capture := ⟨[], []⟩

def append (a b : Capture) : Capture := ⟨a.text ++ b.text, a.values ++ b.values⟩

instance : Append Capture := ⟨append⟩

def ofByte (b : UInt8) : Capture := ⟨[b], []⟩

def ofChar (c : Char) : Capture := ⟨String.utf8EncodeChar c, []⟩

def ofText (s : String) : Capture := ⟨Utf8.encode s, []⟩

def ofChars (cs : List Char) : Capture := ⟨cs.flatMap String.utf8EncodeChar, []⟩

def ofValue (v : Nat) : Capture := ⟨[], [v]⟩

@[simp] theorem append_text (a b : Capture) : (a ++ b).text = a.text ++ b.text := rfl

@[simp] theorem append_values (a b : Capture) : (a ++ b).values = a.values ++ b.values := rfl

@[simp] theorem empty_append (a : Capture) : empty ++ a = a := rfl

@[simp] theorem append_empty (a : Capture) : a ++ empty = a := by
  change (⟨a.text ++ [], a.values ++ []⟩ : Capture) = a
  simp

theorem append_assoc (a b c : Capture) : a ++ b ++ c = a ++ (b ++ c) := by
  change (⟨(a.text ++ b.text) ++ c.text, (a.values ++ b.values) ++ c.values⟩ : Capture) =
    ⟨a.text ++ (b.text ++ c.text), a.values ++ (b.values ++ c.values)⟩
  simp

end Capture

/-- The result of running a term: how it ended, where the cursor stands, what it wrote. -/
structure Attempt where
  outcome : Outcome
  cursor : Cursor
  written : Capture
deriving Repr

namespace Attempt

def matched (c : Cursor) (w : Capture) : Attempt := ⟨.matched, c, w⟩

def failed (why : Failure) (c : Cursor) (w : Capture) : Attempt := ⟨.failed why, c, w⟩

/-- The same attempt with `w` written before what it wrote. -/
def after (w : Capture) (a : Attempt) : Attempt := { a with written := w ++ a.written }

def silent (a : Attempt) : Attempt := { a with written := Capture.empty }

def mapFailure (g : Failure → Failure) (a : Attempt) : Attempt :=
  { a with outcome := a.outcome.mapFailure g }

end Attempt

end Lexer
