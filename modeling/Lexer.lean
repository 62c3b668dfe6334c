import Lexer.Halt
import Lexer.Text.Utf8
import Lexer.Text.CharClass
import Lexer.Position
import Lexer.Cursor
import Lexer.CursorOp
import Lexer.Outcome
import Lexer.Capture
import Lexer.Numeral.Radix
import Lexer.Numeral.Accumulator
import Lexer.Term.Basic
import Lexer.Term.Numeral
import Lexer.Term.Decoder
import Lexer.Term.Loop
import Lexer.Term.Attempt
import Lexer.Term.Sink
import Lexer.Token
import Lexer.Proofs.Position
import Lexer.Proofs.Utf8
import Lexer.Proofs.Cursor
import Lexer.Proofs.Reach
import Lexer.Proofs.Discipline
import Lexer.Proofs.Tracking
import Lexer.Proofs.Tiling
import Lexer.Proofs.Termination
import Lexer.Proofs.Strict
import Lexer.Proofs.Simulation
import Lexer.Proofs.Origin
import Lexer.Proofs.Sink
import Lexer.Proofs.Policy
import Lexer.Proofs.Reading
import Lexer.Proofs.CString
import Lexer.Proofs.Utf16
import Lexer.Proofs.Lossy
import Lexer.Proofs.Ceiling
import Lexer.Proofs.Choice
import Lexer.Proofs.Numeral
import Lexer.Proofs.Decoders
import Lexer.Proofs.Laws
import Lexer.Proofs.Units
import Lexer.Proofs.Counting
import Lexer.Proofs.UnitLoop
import Lexer.Proofs.Until
import Lexer.Proofs.Atomic
import Lexer.Proofs.Plain
