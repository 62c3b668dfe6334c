/-! # Outcomes and errors

A term matches or fails for a `Failure`; `unmatched` is the one soft failure, after which a
caller tries its next alternative, and every other failure ends the scan. A `BuildError` is a
term that cannot be built at all.
-/

namespace Lexer

/-- Why a term, or a scan, did not match. -/
inductive Failure where
  /-- The term does not apply here. -/
  | unmatched
  | unexpected
  | unterminated
  /-- A form stopped partway, after it had begun. -/
  | incomplete
  /-- A form is complete but its value is not allowed. -/
  | invalid
  | overflow
deriving DecidableEq, Repr, Inhabited

namespace Failure

def word : Failure → String
  | unmatched => "unmatched"
  | unexpected => "unexpected"
  | unterminated => "unterminated"
  | incomplete => "incomplete"
  | invalid => "invalid"
  | overflow => "overflow"

def isHard (f : Failure) : Bool := f != unmatched

/-- Inside an opened form, a part that does not apply means the form is unterminated. -/
def unterminatedIfUnmatched : Failure → Failure
  | unmatched => unterminated
  | f => f

/-- Once an escape has begun, a decoder that does not apply means the escape is invalid. -/
def invalidIfUnmatched : Failure → Failure
  | unmatched => invalid
  | f => f

end Failure

inductive Outcome where
  | matched
  | failed (why : Failure)
deriving DecidableEq, Repr, Inhabited

namespace Outcome

def mapFailure (g : Failure → Failure) : Outcome → Outcome
  | matched => matched
  | failed why => failed (g why)

def word : Outcome → String
  | matched => "ok"
  | failed why => why.word

end Outcome

/-- A term that cannot be built. -/
inductive BuildError where
  | noAlternatives
  | emptyAlternative
  | unsupportedRadix (radix : Nat)
  | emptySecondPrefix
deriving DecidableEq, Repr

namespace BuildError

def name : BuildError → String
  | noAlternatives => "NoAlternatives"
  | emptyAlternative => "EmptyAlternative"
  | unsupportedRadix _ => "UnsupportedRadix"
  | emptySecondPrefix => "EmptySecondPrefix"

def message : BuildError → String
  | noAlternatives => "literal alternative list is empty"
  | emptyAlternative => "literal alternative is empty"
  | unsupportedRadix r => s!"unsupported radix {r} (expected 2..=36)"
  | emptySecondPrefix => "surrogate pair decoder needs a non-empty second prefix"

end BuildError

end Lexer
