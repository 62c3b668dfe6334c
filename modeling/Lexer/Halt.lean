/-! # Runs without a result

`Halt` names the two ways a run stops with no result at all: a line or column count would pass
the largest count, or a quoted literal's escape matches without moving, round after round.
-/

namespace Lexer

/-- Why a run stops without a result. -/
inductive Halt where
  | countOverflow
  | endless
deriving DecidableEq, Repr, Inhabited

namespace Halt

def message : Halt → String
  | countOverflow => "attempt to add with overflow"
  | endless => "the run never ends"

end Halt

end Lexer
