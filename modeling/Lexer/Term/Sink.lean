import Lexer.Term.Attempt
/-! # Running a term into a sink

`Term.attemptInto t c sink` runs `t` writing into `sink`, or nowhere where the sink is `none`.
A skipped term, the opener and closer of a delimited form and the stop of a read-until scan get
`none`; a byte spelled by two hexadecimal digits is checked to fit only where there is a sink.
-/

namespace Lexer

/-- The sink after `w` is written to it; where there is no sink, nothing is written. -/
def Capture.pushInto (sink : Option Capture) (w : Capture) : Option Capture := sink.map (· ++ w)

/-- The result of running a term into a sink: how it ended, where the cursor stands, and the
sink with what the term wrote to it. -/
structure SinkRun where
  outcome : Outcome
  cursor : Cursor
  sink : Option Capture

def Attempt.into (sink : Option Capture) (a : Attempt) : SinkRun :=
  ⟨a.outcome, a.cursor, Capture.pushInto sink a.written⟩

abbrev SinkStep := Cursor → Option Capture → Except Halt SinkRun

/-! ## Loops -/

def repeatInto (step : SinkStep) (c : Cursor) (sink : Option Capture) : Except Halt SinkRun := do
  let r ← step c sink
  match r.outcome with
  | .matched =>
    if r.cursor.rest.length < c.rest.length then repeatInto step r.cursor r.sink
    else return ⟨.matched, r.cursor, r.sink⟩
  | .failed .unmatched => return ⟨.matched, r.cursor, r.sink⟩
  | .failed _ => return r
termination_by c.rest.length

def readToLineEndInto (c : Cursor) (sink : Option Capture) : Except Halt SinkRun := do
  if c.done then return ⟨.matched, c, sink⟩
  let (fed, c1) ← c.hop '\n'
  if fed then return ⟨.matched, c1, sink⟩
  let (fed, c2) ← c1.leap "\r\n"
  if fed then return ⟨.matched, c2, sink⟩
  match ← c2.fetchAny with
  | (none, c3) => return ⟨.failed .unterminated, c3, sink⟩
  | (some ch, c3) =>
    let sink := Capture.pushInto sink (.ofChar ch)
    if c3.rest.length < c.rest.length then readToLineEndInto c3 sink
    else return ⟨.matched, c3, sink⟩
termination_by c.rest.length

/-- Reads every scalar into the sink up to where `stop`, run without a sink, matches. -/
def readToStopInto (stop : SinkStep) (c : Cursor) (sink : Option Capture) :
    Except Halt SinkRun := do
  let r ← stop c none
  match r.outcome with
  | .matched => return ⟨.matched, r.cursor, sink⟩
  | .failed .unmatched =>
    match ← r.cursor.fetchAny with
    | (none, c3) => return ⟨.failed .unterminated, c3, sink⟩
    | (some ch, c3) =>
      let sink := Capture.pushInto sink (.ofChar ch)
      if c3.rest.length < c.rest.length then readToStopInto stop c3 sink
      else return ⟨.matched, c3, sink⟩
  | .failed why => return ⟨.failed why, r.cursor, sink⟩
termination_by c.rest.length

inductive SinkRound where
  | finished (r : SinkRun)
  | again (c : Cursor) (sink : Option Capture)

def closeOrContentInto (quote : Char) (content : Char → Bool) (c : Cursor)
    (sink : Option Capture) : Except Halt SinkRound := do
  let (closed, c2) ← c.hop quote
  if closed then return .finished ⟨.matched, c2, sink⟩
  match ← c2.fetch content with
  | (none, c3) => return .finished ⟨.failed .unterminated, c3, sink⟩
  | (some ch, c3) => return .again c3 (Capture.pushInto sink (.ofChar ch))

def quotedRoundInto (quote : Char) (content : Char → Bool) (escape : SinkStep) (c : Cursor)
    (sink : Option Capture) : Except Halt SinkRound := do
  let e ← escape c sink
  match e.outcome with
  | .matched =>
    if e.cursor.rest.length < c.rest.length then return .again e.cursor e.sink
    else throw .endless
  | .failed .unmatched => closeOrContentInto quote content e.cursor e.sink
  | .failed _ => return .finished e

def readQuotedBodyInto (quote : Char) (content : Char → Bool) (escape : SinkStep) (c : Cursor)
    (sink : Option Capture) : Except Halt SinkRun := do
  match ← quotedRoundInto quote content escape c sink with
  | .finished r => return r
  | .again c' sink' =>
    if c'.rest.length < c.rest.length then readQuotedBodyInto quote content escape c' sink'
    else return ⟨.matched, c', sink'⟩
termination_by c.rest.length

/-! ## Literals, numerals and decoders -/

def leapFirstInto (c : Cursor) : List String → Option Capture → Except Halt SinkRun
  | [], sink => pure ⟨.failed .unmatched, c, sink⟩
  | alt :: alts, sink => do
    let (ok, c') ← c.leap alt
    if ok then return ⟨.matched, c', Capture.pushInto sink (.ofText alt)⟩
    else leapFirstInto c alts sink

def readAnyLiteralInto (c : Cursor) (alts : List String) (sink : Option Capture) :
    Except Halt SinkRun :=
  match c.peek with
  | (none, c) => pure ⟨.failed .unmatched, c, sink⟩
  | (some first, c) =>
    leapFirstInto c (alts.filter fun alt => alt.toList.head? == some first) sink

def readUnsignedInto (c : Cursor) (lead : String) (r : Radix) (w : Width)
    (sink : Option Capture) : Except Halt SinkRun := do
  match ← readLeadDigit c lead r w.max with
  | (none, c) => return ⟨.failed .unmatched, c, sink⟩
  | (some (first, a), c) =>
    let sink := Capture.pushInto sink (.ofChar first)
    let ((a, more), c) ← a.scan c none
    let sink := Capture.pushInto sink (.ofChars more)
    if a.overflow then return ⟨.failed .overflow, c, sink⟩
    else return ⟨.matched, c, Capture.pushInto sink (.ofValue a.value)⟩

def readFixedHexInto (c : Cursor) (lead : String) (w : Width) (sink : Option Capture) :
    Except Halt SinkRun := do
  match ← readLeadDigit c lead Radix.hex w.max with
  | (none, c) => return ⟨.failed .unmatched, c, sink⟩
  | (some (first, a), c) =>
    let sink := Capture.pushInto sink (.ofChar first)
    let ((a, more), c) ← a.scan c (some w.hexDigits)
    let sink := Capture.pushInto sink (.ofChars more)
    if a.count < w.hexDigits then return ⟨.failed .incomplete, c, sink⟩
    else return ⟨.matched, c, Capture.pushInto sink (.ofValue a.value)⟩

def readHexByteRunInto (c : Cursor) (sink : Option Capture) : Except Halt SinkRun := do
  let (a, c) ← extractHex c none
  if a.count = 0 then return ⟨.failed .unmatched, c, sink⟩
  else if a.overflow then return ⟨.failed .invalid, c, sink⟩
  else return (writeByte c a.value).into sink

/-- Two hexadecimal digits spelling one byte. Only with a sink to write the byte to is the value
checked to fit a byte. -/
def readHexByteInto (c : Cursor) (sink : Option Capture) : Except Halt SinkRun := do
  let (a, c) ← extractHex c (some 2)
  if a.count = 0 then return ⟨.failed .unmatched, c, sink⟩
  else if a.count = 1 then return ⟨.failed .incomplete, c, sink⟩
  else
    match sink with
    | none => return ⟨.matched, c, none⟩
    | some cap => return (writeByte c a.value).into (some cap)

def readHexScalar4Into (c : Cursor) (sink : Option Capture) : Except Halt SinkRun := do
  let (a, c) ← extractHex c (some 4)
  if a.count = 0 then return ⟨.failed .unmatched, c, sink⟩
  else if a.count = 4 then return (writeScalar c a.value).into sink
  else return ⟨.failed .invalid, c, sink⟩

def readHexScalar8Into (c : Cursor) (sink : Option Capture) : Except Halt SinkRun := do
  let (a, c) ← extractHex c (some 8)
  if a.count = 0 then return ⟨.failed .unmatched, c, sink⟩
  else if a.count = 8 then return (writeScalar c a.value).into sink
  else return ⟨.failed .incomplete, c, sink⟩

def readOctalByteInto (c : Cursor) (sink : Option Capture) : Except Halt SinkRun := do
  let (a, c) ← extractOctal c (some 3)
  if a.count = 0 then return ⟨.failed .unmatched, c, sink⟩
  else return (writeByte c a.value).into sink

/-- The UTF-16 escape, written to the sink. A high surrogate that pairs with nothing is unpaired
first, and then the second unit is read on its own. -/
def readSurrogatePairInto (c : Cursor) (first second : String) (policy : UnpairedPolicy)
    (sink : Option Capture) : Except Halt SinkRun := do
  let (ok, c) ← c.leap first
  if !ok then return ⟨.failed .unmatched, c, sink⟩
  match ← readUnit c !first.isEmpty with
  | (.error why, c) => return ⟨.failed why, c, sink⟩
  | (.ok high, c) =>
    if isLowSurrogate high then return (unpairedSurrogate c policy).into sink
    else if !isHighSurrogate high then return (writeScalar c high).into sink
    else
      let (ok, c) ← c.leap second
      if !ok then return (unpairedSurrogate c policy).into sink
      match ← readUnit c true with
      | (.error why, c) => return ⟨.failed why, c, sink⟩
      | (.ok low, c) =>
        if isLowSurrogate low then return (writeScalar c (combineSurrogates high low)).into sink
        else
          let r := (unpairedSurrogate c policy).into sink
          match r.outcome with
          | .failed _ => return r
          | .matched =>
            let alone := if isHighSurrogate low then unpairedSurrogate c policy
              else writeScalar c low
            return alone.into r.sink

/-! ## Terms -/

mutual

/-- Runs the term at the cursor, writing into the sink. -/
def Term.attemptInto : Term → Cursor → Option Capture → Except Halt SinkRun
  | .literal s, c, sink => do
    let (ok, c) ← c.leap s
    return if ok then ⟨.matched, c, Capture.pushInto sink (.ofText s)⟩
      else ⟨.failed .unmatched, c, sink⟩
  | .scalar ch, c, sink => do
    let (ok, c) ← c.hop ch
    return if ok then ⟨.matched, c, Capture.pushInto sink (.ofChar ch)⟩
      else ⟨.failed .unmatched, c, sink⟩
  | .scalarIn k, c, sink => do
    match ← c.fetch k.contains with
    | (some ch, c) => return ⟨.matched, c, Capture.pushInto sink (.ofChar ch)⟩
    | (none, c) => return ⟨.failed .unmatched, c, sink⟩
  | .word first more, c, sink => do
    match ← c.fetch first.contains with
    | (none, c) => return ⟨.failed .unmatched, c, sink⟩
    | (some ch, c) =>
      let sink := Capture.pushInto sink (.ofChar ch)
      let ((run, _), c) ← c.skipRun more.contains
      return ⟨.matched, c, Capture.pushInto sink (.ofChars run)⟩
  | .endOfInput, c, sink =>
    pure ⟨if c.done then .matched else .failed .unmatched, c, sink⟩
  | .endOfLine, c, sink => do
    let (fed, c) ← c.hop '\n'
    if fed then return ⟨.matched, c, Capture.pushInto sink (.ofText "\n")⟩
    let (fed, c) ← c.leap "\r\n"
    if fed then return ⟨.matched, c, Capture.pushInto sink (.ofText "\r\n")⟩
    return ⟨if c.done then .matched else .failed .unmatched, c, sink⟩
  | .seq parts, c, sink => seqInto c.offset parts c sink
  | .firstOf choices, c, sink => firstInto choices c sink
  | .optional t, c, sink => do
    let r ← t.attemptInto c sink
    match r.outcome with
    | .failed .unmatched => return ⟨.matched, r.cursor, r.sink⟩
    | _ => return r
  | .many t, c, sink => repeatInto t.attemptInto c sink
  | .many1 t, c, sink => do
    let r ← t.attemptInto c sink
    match r.outcome with
    | .matched => repeatInto t.attemptInto r.cursor r.sink
    | .failed _ => return r
  | .discard t, c, sink => do
    let r ← t.attemptInto c none
    return ⟨r.outcome, r.cursor, sink⟩
  | .anyLiteral alts, c, sink => readAnyLiteralInto c alts sink
  | .between opener content closer, c, sink => do
    let a ← opener.attemptInto c none
    match a.outcome with
    | .failed why => return ⟨.failed why, a.cursor, sink⟩
    | .matched =>
      let b ← contentInto content a.cursor sink
      match b.outcome with
      | .failed _ => return b
      | .matched =>
        let z ← closer.attemptInto b.cursor none
        return ⟨z.outcome.mapFailure Failure.unterminatedIfUnmatched, z.cursor, b.sink⟩
  | .untilLineEnd opener, c, sink => do
    let a ← opener.attemptInto c none
    match a.outcome with
    | .failed why => return ⟨.failed why, a.cursor, sink⟩
    | .matched => readToLineEndInto a.cursor sink
  | .untilStop opener stop, c, sink => do
    let a ← opener.attemptInto c none
    match a.outcome with
    | .failed why => return ⟨.failed why, a.cursor, sink⟩
    | .matched => readToStopInto stop.attemptInto a.cursor sink
  | .quoted quote content escape, c, sink => do
    match ← c.fetch quote.contains with
    | (none, c) => return ⟨.failed .unmatched, c, sink⟩
    | (some q, c) => readQuotedBodyInto q content.contains (escapeInto escape) c sink
  | .unsigned lead r w, c, sink => readUnsignedInto c lead r w sink
  | .fixedHex lead w, c, sink => readFixedHexInto c lead w sink
  | .escape lead table fallback, c, sink => do
    let (ok, c) ← c.hop lead
    if !ok then return ⟨.failed .unmatched, c, sink⟩
    match c.peek with
    | (none, c) => return ⟨.failed .invalid, c, sink⟩
    | (some key, c) =>
      match ← entryInto table key c sink with
      | some r => return r
      | none => fallbackInto fallback key c sink
  | .hexByteRun, c, sink => readHexByteRunInto c sink
  | .hexByte, c, sink => readHexByteInto c sink
  | .hexScalar4, c, sink => readHexScalar4Into c sink
  | .hexScalar8, c, sink => readHexScalar8Into c sink
  | .octalByte, c, sink => readOctalByteInto c sink
  | .surrogatePair first second unpaired, c, sink =>
    readSurrogatePairInto c first second unpaired sink

def seqInto (start : Nat) : List Term → Cursor → Option Capture → Except Halt SinkRun
  | [], c, sink => pure ⟨.matched, c, sink⟩
  | t :: ts, c, sink => do
    let r ← t.attemptInto c sink
    match r.outcome with
    | .matched => seqInto start ts r.cursor r.sink
    | .failed .unmatched =>
      let why := if r.cursor.offset = start then Failure.unmatched else .incomplete
      return ⟨.failed why, r.cursor, r.sink⟩
    | .failed _ => return r

def firstInto : List Term → Cursor → Option Capture → Except Halt SinkRun
  | [], c, sink => pure ⟨.failed .unmatched, c, sink⟩
  | t :: ts, c, sink => do
    let r ← t.attemptInto c sink
    match r.outcome with
    | .failed .unmatched => firstInto ts r.cursor r.sink
    | _ => return r

def contentInto : List Term → Cursor → Option Capture → Except Halt SinkRun
  | [], c, sink => pure ⟨.matched, c, sink⟩
  | t :: ts, c, sink => do
    let r ← t.attemptInto c sink
    match r.outcome with
    | .matched => contentInto ts r.cursor r.sink
    | .failed why => return ⟨.failed why.unterminatedIfUnmatched, r.cursor, r.sink⟩

def escapeInto : Option Term → SinkStep
  | none => fun c sink => pure ⟨.failed .unmatched, c, sink⟩
  | some e => e.attemptInto

def entryInto : List (Char × Substitution) → Char → Cursor → Option Capture →
    Except Halt (Option SinkRun)
  | [], _, _, _ => pure none
  | (k, s) :: entries, key, c, sink => do
    if k = key then
      let (_, c) ← c.hop key
      return some (← s.applyInto key c sink)
    else entryInto entries key c sink

def fallbackInto : Option Substitution → Char → Cursor → Option Capture → Except Halt SinkRun
  | none, _, c, sink => pure ⟨.failed .invalid, c, sink⟩
  | some s, key, c, sink => do
    if s.isTerm then s.applyInto key c sink
    else
      let (_, c) ← c.hop key
      s.applyInto key c sink

def Substitution.applyInto : Substitution → Char → Cursor → Option Capture → Except Halt SinkRun
  | .term t, _, c, sink => do
    let r ← t.attemptInto c sink
    return ⟨r.outcome.mapFailure Failure.invalidIfUnmatched, r.cursor, r.sink⟩
  | s, key, c, sink => pure ⟨.matched, c, Capture.pushInto sink (s.literalText key)⟩

end

end Lexer
