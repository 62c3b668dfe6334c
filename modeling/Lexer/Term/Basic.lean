import Lexer.Text.CharClass
import Lexer.Numeral.Radix
/-! # Terms

A `Term` describes what may stand at the cursor, from literals and scalars to delimited forms,
quoted literals, numerals and escapes. A choice of literals and a surrogate-pair escape are built
through checked constructors, since some arguments make no term.
-/

namespace Lexer

inductive UnpairedPolicy where
  | reject
  | replace
deriving DecidableEq, Repr, Inhabited

mutual

/-- A matcher over a cursor. -/
inductive Term where
  | literal (text : String)
  | scalar (c : Char)
  | scalarIn (k : CharClass)
  | word (first more : CharClass)
  | endOfInput
  /-- A line feed, a carriage return and line feed, or the end of the input; writes what it read. -/
  | endOfLine
  | seq (parts : List Term)
  | firstOf (choices : List Term)
  | optional (t : Term)
  /-- The term as often as it applies and moves on. -/
  | many (t : Term)
  | many1 (t : Term)
  | discard (t : Term)
  /-- The longest of the texts that begin with the scalar at the cursor; writes it. -/
  | anyLiteral (alts : List String)
  /-- The opener, the content parts and the closer; writes only what the content writes. -/
  | between (opener : Term) (content : List Term) (closer : Term)
  | untilLineEnd (opener : Term)
  | untilStop (opener stop : Term)
  /-- A quote of the class, then content scalars and escapes up to the same quote again; writes
  the content and what the escapes write. -/
  | quoted (quote content : CharClass) (escape : Option Term)
  | unsigned (lead : String) (radix : Radix) (width : Width)
  | fixedHex (lead : String) (width : Width)
  | escape (lead : Char) (table : List (Char × Substitution)) (fallback : Option Substitution)
  | hexByteRun
  | hexByte
  | hexScalar4
  | hexScalar8
  | octalByte
  /-- A UTF-16 unit of four hexadecimal digits after `first`, and for a high surrogate a second
  one after `second`; writes the scalar they spell. -/
  | surrogatePair (first second : String) (unpaired : UnpairedPolicy)

inductive Substitution where
  | itself
  | byte (b : UInt8)
  | char (c : Char)
  | text (s : String)
  | term (t : Term)

end

namespace Term

/-- Each text once, in the order first given, then stably ordered by byte length, longest first,
so that a longer literal is tried before any of its prefixes. -/
def orderAlternatives (alts : List String) : List String :=
  (alts.foldl (fun kept a => if kept.contains a then kept else kept ++ [a]) []).mergeSort
    (fun a b => decide (b.utf8ByteSize ≤ a.utf8ByteSize))

/-- The choice of literals `alts`; the empty text cannot be one, and there has to be one. -/
def anyLiteral? (alts : List String) : Except BuildError Term :=
  if alts.any (·.isEmpty) then .error .emptyAlternative
  else if alts.isEmpty then .error .noAlternatives
  else .ok (anyLiteral (orderAlternatives alts))

def surrogatePair? (first second : String) (unpaired : UnpairedPolicy) : Except BuildError Term :=
  if second.isEmpty then .error .emptySecondPrefix else .ok (surrogatePair first second unpaired)

/-- The terminator of an `until` form given as text: the empty text reads to the end of the line,
any other is that literal. -/
def untilText (opener : Term) (stop : String) : Term :=
  if stop.isEmpty then untilLineEnd opener else untilStop opener (literal stop)

example : orderAlternatives ["=", "==", "=", "<", "==="] = ["===", "==", "=", "<"] := by cbv

end Term

/-- An escape table under construction: entries for exact keys, and a fallback. -/
structure EscapeTable where
  exact : List (Char × Substitution)
  fallback : Option Substitution

namespace EscapeTable

def empty : EscapeTable := ⟨[], none⟩

/-- The table with `key` standing for `s`, in place of what it stood for before. -/
def map (t : EscapeTable) (key : Char) (s : Substitution) : EscapeTable :=
  if t.exact.any (·.1 == key) then
    { t with exact := t.exact.map fun e => if e.1 == key then (key, s) else e }
  else { t with exact := t.exact ++ [(key, s)] }

def verbatim (t : EscapeTable) (keys : String) : EscapeTable :=
  keys.toList.foldl (fun t key => t.map key .itself) t

def withFallback (t : EscapeTable) (s : Substitution) : EscapeTable := { t with fallback := some s }

def toTerm (t : EscapeTable) (lead : Char) : Term := .escape lead t.exact t.fallback

end EscapeTable

end Lexer
