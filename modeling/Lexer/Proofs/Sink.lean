import Mathlib
import Lexer.Term.Sink
import Lexer.Proofs.Reach
/-! # What a sink receives

A term run into a sink has the outcome and cursor of `Term.attempt`, and the sink gets exactly the
writes that `Term.attempt` returns appended to it (`attemptInto_eq`). The proof follows the two
interpreters side by side.
-/

namespace Lexer

open Cursor

namespace Capture

@[simp] theorem ofChars_nil : ofChars [] = empty := rfl

@[simp] theorem ofChars_cons (ch : Char) (cs : List Char) :
    ofChars (ch :: cs) = ofChar ch ++ ofChars cs := by
  change (⟨(ch :: cs).flatMap String.utf8EncodeChar, []⟩ : Capture) =
    ⟨String.utf8EncodeChar ch ++ cs.flatMap String.utf8EncodeChar, [] ++ []⟩
  simp

theorem ofChars_append (cs ds : List Char) : ofChars (cs ++ ds) = ofChars cs ++ ofChars ds := by
  change (⟨(cs ++ ds).flatMap String.utf8EncodeChar, []⟩ : Capture) =
    ⟨cs.flatMap String.utf8EncodeChar ++ ds.flatMap String.utf8EncodeChar, [] ++ []⟩
  simp

@[simp] theorem pushInto_none (w : Capture) : pushInto none w = none := rfl

@[simp] theorem pushInto_some (cap w : Capture) : pushInto (some cap) w = some (cap ++ w) := rfl

@[simp] theorem pushInto_empty (sink : Option Capture) : pushInto sink empty = sink := by
  cases sink <;> simp

theorem pushInto_pushInto (sink : Option Capture) (w w' : Capture) :
    pushInto (pushInto sink w) w' = pushInto sink (w ++ w') := by
  cases sink <;> simp [append_assoc]

end Capture

namespace Attempt

variable (sink : Option Capture) (c : Cursor) (w : Capture)

@[simp] theorem into_outcome (a : Attempt) : (a.into sink).outcome = a.outcome := rfl

@[simp] theorem into_cursor (a : Attempt) : (a.into sink).cursor = a.cursor := rfl

@[simp] theorem into_sink (a : Attempt) : (a.into sink).sink = Capture.pushInto sink a.written :=
  rfl

@[simp] theorem into_mk (o : Outcome) : (⟨o, c, w⟩ : Attempt).into sink =
    ⟨o, c, Capture.pushInto sink w⟩ := rfl

@[simp] theorem into_matched : (matched c w).into sink = ⟨.matched, c, Capture.pushInto sink w⟩ :=
  rfl

@[simp] theorem into_failed (f : Failure) :
    (failed f c w).into sink = ⟨.failed f, c, Capture.pushInto sink w⟩ := rfl

@[simp] theorem into_after (a : Attempt) :
    (a.after w).into sink = a.into (Capture.pushInto sink w) := by
  simp [into, after, Capture.pushInto_pushInto]

@[simp] theorem into_silent (a : Attempt) : a.silent.into sink = ⟨a.outcome, a.cursor, sink⟩ := by
  simp [into, silent]

@[simp] theorem into_mapFailure (g : Failure → Failure) (a : Attempt) :
    (a.mapFailure g).into sink =
      ⟨a.outcome.mapFailure g, a.cursor, Capture.pushInto sink a.written⟩ := rfl

end Attempt

/-- A run whose first step succeeds with `a` goes on as the continuation does at `a`. -/
theorem bind_congr_of_ok {ε α β : Type} {x : Except ε α} {f g : α → Except ε β}
    (h : ∀ a, x = .ok a → f a = g a) : x >>= f = x >>= g := by
  cases x with
  | error e => rfl
  | ok a => exact h a rfl

/-- The sink step `step'` delivers the writes of the step `step`: it reads what `step` reads and
appends to any sink what `step` writes. -/
def Delivers (step' : SinkStep) (step : Step) : Prop :=
  ∀ c sink, step' c sink = (·.into sink) <$> step c

/-! ## Loops -/

theorem repeatInto_eq {step' : SinkStep} {step : Step} (h : Delivers step' step) (c : Cursor)
    (sink : Option Capture) :
    repeatInto step' c sink = (·.into sink) <$> repeatStep step c := by
  induction c using repeatStep.induct generalizing sink with
  | _ c ih =>
    rw [repeatInto, repeatStep, h, bind_map_left, map_bind]
    refine bind_congr fun a => ?_
    obtain ⟨o, c₁, w⟩ := a
    rcases o with _ | why
    · by_cases hlt : c₁.rest.length < c.rest.length
      · simp [hlt, ih ⟨.matched, c₁, w⟩ hlt]
      · simp [hlt]
    · cases why <;> simp

theorem readToLineEndInto_eq (c : Cursor) (sink : Option Capture) :
    readToLineEndInto c sink = (·.into sink) <$> readToLineEnd c := by
  induction c using readToLineEnd.induct generalizing sink with
  | case1 c hd =>
    rw [readToLineEndInto, readToLineEnd, if_pos hd, if_pos hd]
    simp
  | case2 c hd ih =>
    rw [readToLineEndInto, readToLineEnd, if_neg hd, if_neg hd, map_bind]
    refine bind_congr fun x => ?_
    obtain ⟨fed, c₁⟩ := x
    cases fed
    · simp only [Bool.false_eq_true, if_false, map_bind]
      refine bind_congr fun x => ?_
      obtain ⟨fed, c₂⟩ := x
      cases fed
      · simp only [Bool.false_eq_true, if_false, map_bind]
        refine bind_congr fun x => ?_
        obtain ⟨r, c₃⟩ := x
        cases r with
        | none => simp
        | some ch =>
          by_cases hlt : c₃.rest.length < c.rest.length
          · simp [hlt, ih c₃ hlt]
          · simp [hlt]
      · simp
    · simp

theorem readToStopInto_eq {stop' : SinkStep} {stop : Step} (h : Delivers stop' stop) (c : Cursor)
    (sink : Option Capture) :
    readToStopInto stop' c sink = (·.into sink) <$> readToStop stop c := by
  induction c using readToStop.induct generalizing sink with
  | _ c ih =>
    rw [readToStopInto, readToStop, h, bind_map_left, map_bind]
    refine bind_congr fun a => ?_
    obtain ⟨o, c₁, w⟩ := a
    dsimp only [Attempt.into_outcome, Attempt.into_cursor]
    split
    · simp
    · simp only [map_bind]
      refine bind_congr fun x => ?_
      obtain ⟨r, c₃⟩ := x
      cases r with
      | none => simp
      | some ch =>
        by_cases hlt : c₃.rest.length < c.rest.length
        · simp [hlt, ih c₃ hlt]
        · simp [hlt]
    · simp

/-- A round whose writes go to `sink`. -/
def Round.into (sink : Option Capture) : Round → SinkRound
  | .finished a => .finished (a.into sink)
  | .again c w => .again c (Capture.pushInto sink w)

theorem closeOrContentInto_eq (q : Char) (p : Char → Bool) (c : Cursor) (w : Capture)
    (sink : Option Capture) :
    closeOrContentInto q p c (Capture.pushInto sink w) = (·.into sink) <$> closeOrContent q p c w := by
  rw [closeOrContentInto, closeOrContent, map_bind]
  refine bind_congr fun x => ?_
  obtain ⟨closed, c₂⟩ := x
  cases closed
  · simp only [Bool.false_eq_true, if_false, map_bind]
    refine bind_congr fun x => ?_
    obtain ⟨r, c₃⟩ := x
    cases r <;> simp [Round.into, Capture.pushInto_pushInto]
  · simp [Round.into]

theorem quotedRoundInto_eq {escape' : SinkStep} {escape : Step} (h : Delivers escape' escape)
    (q : Char) (p : Char → Bool) (c : Cursor) (sink : Option Capture) :
    quotedRoundInto q p escape' c sink = (·.into sink) <$> quotedRound q p escape c := by
  rw [quotedRoundInto, quotedRound, h, bind_map_left, map_bind]
  refine bind_congr fun a => ?_
  obtain ⟨o, c₁, w⟩ := a
  dsimp only [Attempt.into_outcome, Attempt.into_cursor, Attempt.into_sink]
  split
  · by_cases hlt : c₁.rest.length < c.rest.length
    · simp [hlt, Round.into]
    · simp [hlt]
      rfl
  · exact closeOrContentInto_eq q p c₁ w sink
  · simp [Round.into]

theorem readQuotedBodyInto_eq {escape' : SinkStep} {escape : Step} (h : Delivers escape' escape)
    (q : Char) (p : Char → Bool) (c : Cursor) (sink : Option Capture) :
    readQuotedBodyInto q p escape' c sink = (·.into sink) <$> readQuotedBody q p escape c := by
  induction c using readQuotedBody.induct generalizing sink with
  | _ c ih =>
    rw [readQuotedBodyInto, readQuotedBody, quotedRoundInto_eq h, bind_map_left, map_bind]
    refine bind_congr fun r => ?_
    cases r with
    | finished a => simp [Round.into]
    | again c' w =>
      by_cases hlt : c'.rest.length < c.rest.length
      · simp [Round.into, hlt, ih c' hlt]
      · simp [Round.into, hlt]

theorem leapFirstInto_eq (c : Cursor) (alts : List String) (sink : Option Capture) :
    leapFirstInto c alts sink = (·.into sink) <$> leapFirst c alts := by
  induction alts with
  | nil =>
    rw [leapFirstInto, leapFirst]
    simp
  | cons alt alts ih =>
    rw [leapFirstInto, leapFirst, map_bind]
    refine bind_congr fun x => ?_
    obtain ⟨ok, c₁⟩ := x
    cases ok
    · simpa using ih
    · simp

theorem readAnyLiteralInto_eq (c : Cursor) (alts : List String) (sink : Option Capture) :
    readAnyLiteralInto c alts sink = (·.into sink) <$> readAnyLiteral c alts := by
  unfold readAnyLiteralInto readAnyLiteral
  rcases c.peek with ⟨_ | first, c₁⟩
  · simp
  · exact leapFirstInto_eq c₁ _ sink

/-! ## Numerals -/

theorem readUnsignedInto_eq (c : Cursor) (lead : String) (r : Radix) (w : Width)
    (sink : Option Capture) :
    readUnsignedInto c lead r w sink = (·.into sink) <$> readUnsigned c lead r w := by
  rw [readUnsignedInto, readUnsigned, map_bind]
  refine bind_congr fun x => ?_
  obtain ⟨_ | ⟨first, a⟩, c₁⟩ := x
  · simp
  · simp only [map_bind]
    refine bind_congr fun y => ?_
    obtain ⟨⟨a₂, more⟩, c₂⟩ := y
    by_cases ho : a₂.overflow <;> simp [ho, Capture.pushInto_pushInto, Capture.append_assoc]

theorem readFixedHexInto_eq (c : Cursor) (lead : String) (w : Width) (sink : Option Capture) :
    readFixedHexInto c lead w sink = (·.into sink) <$> readFixedHex c lead w := by
  rw [readFixedHexInto, readFixedHex, map_bind]
  refine bind_congr fun x => ?_
  obtain ⟨_ | ⟨first, a⟩, c₁⟩ := x
  · simp
  · simp only [map_bind]
    refine bind_congr fun y => ?_
    obtain ⟨⟨a₂, more⟩, c₂⟩ := y
    by_cases hc : a₂.count < w.hexDigits <;>
      simp [hc, Capture.pushInto_pushInto, Capture.append_assoc]

/-! ## Two hexadecimal digits fit a byte -/

theorem Radix.digit?_lt {r : Radix} {ch : Char} {d : Nat} (h : r.digit? ch = some d) :
    d < r.val := by
  unfold Radix.digit? at h
  split at h
  · split at h
    · next hlt => exact Option.some.inj h ▸ hlt
    · cases h
  · cases h

/-- A digit below the radix keeps the value below the radix to the power of the count. -/
theorem Accumulator.push_value_lt {a : Accumulator} {d : Nat} (hd : d < a.radix.val)
    (h : a.value < a.radix.val ^ a.count) : (a.push d).value < a.radix.val ^ (a.count + 1) := by
  have hle : a.radix.val ^ a.count ≤ a.radix.val ^ (a.count + 1) :=
    Nat.pow_le_pow_right (by have := a.radix.two_le; omega) (Nat.le_succ _)
  unfold push
  split
  · exact Nat.lt_of_lt_of_le h hle
  split
  · exact Nat.lt_of_lt_of_le h hle
  split
  · exact Nat.lt_of_lt_of_le h hle
  split
  · exact Nat.lt_of_lt_of_le h hle
  · have hmul : (a.value + 1) * a.radix.val ≤ a.radix.val ^ a.count * a.radix.val :=
      Nat.mul_le_mul_right _ h
    rw [Nat.pow_succ]
    calc a.value * a.radix.val + d < a.value * a.radix.val + a.radix.val := by omega
      _ = (a.value + 1) * a.radix.val := by rw [Nat.succ_mul]
      _ ≤ a.radix.val ^ a.count * a.radix.val := hmul

/-- A fact about accumulators that every push of a digit of the radix keeps, where the limit
allows the push, holds after a scan. -/
theorem Accumulator.scan_keeps {P : Accumulator → Prop} {limit : Option Nat}
    (hpush : ∀ a d, limit.all (a.count < ·) → d < a.radix.val → P a → P (a.push d))
    {a a' : Accumulator} {ds : List Char} {c c' : Cursor}
    (h : a.scan c limit = .ok ((a', ds), c')) (ha : P a) : P a' := by
  induction a, c using Accumulator.scan.induct limit generalizing a' ds c' with
  | case1 a c hlim ih =>
    rw [Accumulator.scan, if_pos hlim] at h
    obtain ⟨⟨r, c₁⟩, hf, h⟩ := bind_eq_ok.1 h
    cases r with
    | none =>
      simp only [pure_eq_ok, Prod.mk.injEq] at h
      exact h.1.1 ▸ ha
    | some ch =>
      obtain ⟨d, hd⟩ := Option.isSome_iff_exists.1 (fetch_some hf)
      have hpa : P (a.push d) := hpush a d hlim (Radix.digit?_lt hd) ha
      dsimp only at h
      simp only [hd] at h
      split at h
      · next hlen =>
        obtain ⟨⟨⟨a'', more⟩, c''⟩, hc'', h⟩ := bind_eq_ok.1 h
        simp only [pure_eq_ok, Prod.mk.injEq] at h
        have ih := @ih ch c₁ hlen a'' more c''
        simp only [hd] at ih
        exact h.1.1 ▸ ih hc'' hpa
      · simp only [pure_eq_ok, Prod.mk.injEq] at h
        exact h.1.1 ▸ hpa
  | case2 a c hlim =>
    rw [Accumulator.scan, if_neg hlim] at h
    simp only [pure_eq_ok, Prod.mk.injEq] at h
    exact h.1.1 ▸ ha

/-- The digits that two hexadecimal digits at most spell are worth less than `256`. -/
theorem extractHex_two_value_lt {c c' : Cursor} {a : Accumulator}
    (h : extractHex c (some 2) = .ok (a, c')) : a.value < 256 := by
  unfold extractHex at h
  obtain ⟨⟨⟨a₁, ds⟩, c₁⟩, hs, h⟩ := bind_eq_ok.1 h
  simp only [pure_eq_ok, Prod.mk.injEq] at h
  obtain ⟨rfl, -⟩ := h
  have inv : a₁.radix = Radix.hex ∧ a₁.value < 16 ^ a₁.count ∧ a₁.count ≤ 2 := by
    refine Accumulator.scan_keeps (P := fun a => a.radix = Radix.hex ∧ a.value < 16 ^ a.count ∧
      a.count ≤ 2) ?_ hs ⟨rfl, by decide, by decide⟩
    rintro a d hlim hd ⟨hr, hv, -⟩
    have hv' : a.value < a.radix.val ^ a.count := by rw [hr]; exact hv
    refine ⟨by rw [Accumulator.push_radix, hr], ?_, ?_⟩
    · rw [Accumulator.push_count]
      have := Accumulator.push_value_lt hd hv'
      rwa [hr] at this
    · simp only [Option.all_some, decide_eq_true_eq] at hlim
      rw [Accumulator.push_count]
      omega
  obtain ⟨-, hv, hc⟩ := inv
  calc a₁.value < 16 ^ a₁.count := hv
    _ ≤ 16 ^ 2 := Nat.pow_le_pow_right (by decide) hc
    _ = 256 := by decide

/-! ## Escape decoders -/

theorem readHexByteRunInto_eq (c : Cursor) (sink : Option Capture) :
    readHexByteRunInto c sink = (·.into sink) <$> readHexByteRun c := by
  rw [readHexByteRunInto, readHexByteRun, map_bind]
  refine bind_congr fun x => ?_
  obtain ⟨acc, c₁⟩ := x
  dsimp only
  split
  · simp
  split
  · simp
  · simp

/-- Without a sink the byte is not checked, and with one it always fits. -/
theorem readHexByteInto_eq (c : Cursor) (sink : Option Capture) :
    readHexByteInto c sink = (·.into sink) <$> readHexByte c := by
  rw [readHexByteInto, readHexByte, map_bind]
  refine bind_congr_of_ok fun x hx => ?_
  obtain ⟨acc, c₁⟩ := x
  dsimp only
  split
  · simp
  split
  · simp
  · cases sink with
    | none => simp [writeByte, extractHex_two_value_lt hx]
    | some cap => simp

theorem readHexScalar4Into_eq (c : Cursor) (sink : Option Capture) :
    readHexScalar4Into c sink = (·.into sink) <$> readHexScalar4 c := by
  rw [readHexScalar4Into, readHexScalar4, map_bind]
  refine bind_congr fun x => ?_
  obtain ⟨acc, c₁⟩ := x
  dsimp only
  split
  · simp
  split
  · simp
  · simp

theorem readHexScalar8Into_eq (c : Cursor) (sink : Option Capture) :
    readHexScalar8Into c sink = (·.into sink) <$> readHexScalar8 c := by
  rw [readHexScalar8Into, readHexScalar8, map_bind]
  refine bind_congr fun x => ?_
  obtain ⟨acc, c₁⟩ := x
  dsimp only
  split
  · simp
  split
  · simp
  · simp

theorem readOctalByteInto_eq (c : Cursor) (sink : Option Capture) :
    readOctalByteInto c sink = (·.into sink) <$> readOctalByte c := by
  rw [readOctalByteInto, readOctalByte, map_bind]
  refine bind_congr fun x => ?_
  obtain ⟨acc, c₁⟩ := x
  dsimp only
  split
  · simp
  · simp

theorem readSurrogatePairInto_eq (c : Cursor) (first second : String) (p : UnpairedPolicy)
    (sink : Option Capture) :
    readSurrogatePairInto c first second p sink =
      (·.into sink) <$> readSurrogatePair c first second p := by
  rw [readSurrogatePairInto, readSurrogatePair, map_bind]
  refine bind_congr fun x => ?_
  obtain ⟨ok, c₁⟩ := x
  cases ok
  · simp
  simp only [Bool.not_true, Bool.false_eq_true, if_false, map_bind]
  refine bind_congr fun y => ?_
  obtain ⟨_ | high, c₂⟩ := y
  · simp
  dsimp only
  split
  · simp
  split
  · simp
  simp only [map_bind]
  refine bind_congr fun z => ?_
  obtain ⟨ok, c₃⟩ := z
  cases ok
  · simp
  simp only [Bool.not_true, Bool.false_eq_true, if_false, map_bind]
  refine bind_congr fun u => ?_
  obtain ⟨_ | low, c₄⟩ := u
  · simp
  dsimp only
  split
  · simp
  cases p with
  | reject => simp [unpairedSurrogate]
  | replace => simp [unpairedSurrogate]

/-! ## Terms -/

mutual

/-- A term run into a sink has the outcome and cursor of its plain run and appends to the sink
what the plain run writes. -/
theorem attemptInto_eq : ∀ (t : Term) (c : Cursor) (sink : Option Capture),
    t.attemptInto c sink = (·.into sink) <$> t.attempt c
  | .literal s, c, sink => by
    rw [Term.attemptInto, Term.attempt, map_bind]
    refine bind_congr fun x => ?_
    obtain ⟨ok, c₁⟩ := x
    cases ok <;> simp
  | .scalar ch, c, sink => by
    rw [Term.attemptInto, Term.attempt, map_bind]
    refine bind_congr fun x => ?_
    obtain ⟨ok, c₁⟩ := x
    cases ok <;> simp
  | .scalarIn k, c, sink => by
    rw [Term.attemptInto, Term.attempt, map_bind]
    refine bind_congr fun x => ?_
    obtain ⟨_ | ch, c₁⟩ := x <;> simp
  | .word first more, c, sink => by
    rw [Term.attemptInto, Term.attempt, map_bind]
    refine bind_congr fun x => ?_
    obtain ⟨_ | ch, c₁⟩ := x
    · simp
    · simp only [map_bind]
      refine bind_congr fun y => ?_
      obtain ⟨⟨run, stop⟩, c₂⟩ := y
      simp [Capture.pushInto_pushInto]
  | .endOfInput, c, sink => by
    rw [Term.attemptInto, Term.attempt]
    by_cases hd : c.done <;> simp [hd]
  | .endOfLine, c, sink => by
    rw [Term.attemptInto, Term.attempt, map_bind]
    refine bind_congr fun x => ?_
    obtain ⟨fed, c₁⟩ := x
    cases fed
    · simp only [Bool.false_eq_true, if_false, map_bind]
      refine bind_congr fun y => ?_
      obtain ⟨fed, c₂⟩ := y
      cases fed
      · by_cases hd : c₂.done <;> simp [hd]
      · simp
    · simp
  | .seq parts, c, sink => by
    rw [Term.attemptInto, Term.attempt]
    exact seqInto_eq c.offset parts c sink
  | .firstOf choices, c, sink => by
    rw [Term.attemptInto, Term.attempt]
    exact firstInto_eq choices c sink
  | .optional t, c, sink => by
    rw [Term.attemptInto, Term.attempt, attemptInto_eq t, bind_map_left, map_bind]
    refine bind_congr fun a => ?_
    obtain ⟨o, c₁, w⟩ := a
    rcases o with _ | why
    · simp
    · cases why <;> simp
  | .many t, c, sink => by
    rw [Term.attemptInto, Term.attempt]
    exact repeatInto_eq (attemptInto_eq t) c sink
  | .many1 t, c, sink => by
    rw [Term.attemptInto, Term.attempt, attemptInto_eq t, bind_map_left, map_bind]
    refine bind_congr fun a => ?_
    obtain ⟨o, c₁, w⟩ := a
    rcases o with _ | why
    · simp [repeatInto_eq (attemptInto_eq t)]
    · simp
  | .discard t, c, sink => by
    rw [Term.attemptInto, Term.attempt, attemptInto_eq t, bind_map_left]
    simp
  | .anyLiteral alts, c, sink => by
    rw [Term.attemptInto, Term.attempt]
    exact readAnyLiteralInto_eq c alts sink
  | .between opener content closer, c, sink => by
    rw [Term.attemptInto, Term.attempt, attemptInto_eq opener, bind_map_left, map_bind]
    refine bind_congr fun a => ?_
    obtain ⟨o, c₁, w⟩ := a
    rcases o with _ | why
    · rw [contentInto_eq, bind_map_left]
      simp only [map_bind]
      refine bind_congr fun b => ?_
      obtain ⟨o₂, c₂, w₂⟩ := b
      rcases o₂ with _ | why₂
      · simp [attemptInto_eq closer]
      · simp
    · simp
  | .untilLineEnd opener, c, sink => by
    rw [Term.attemptInto, Term.attempt, attemptInto_eq opener, bind_map_left, map_bind]
    refine bind_congr fun a => ?_
    obtain ⟨o, c₁, w⟩ := a
    rcases o with _ | why
    · exact readToLineEndInto_eq c₁ sink
    · simp
  | .untilStop opener stop, c, sink => by
    rw [Term.attemptInto, Term.attempt, attemptInto_eq opener, bind_map_left, map_bind]
    refine bind_congr fun a => ?_
    obtain ⟨o, c₁, w⟩ := a
    rcases o with _ | why
    · exact readToStopInto_eq (attemptInto_eq stop) c₁ sink
    · simp
  | .quoted quote content escape, c, sink => by
    rw [Term.attemptInto, Term.attempt, map_bind]
    refine bind_congr fun x => ?_
    obtain ⟨_ | q, c₁⟩ := x
    · simp
    · exact readQuotedBodyInto_eq (escapeInto_eq escape) q _ c₁ sink
  | .unsigned lead r w, c, sink => by
    rw [Term.attemptInto, Term.attempt]
    exact readUnsignedInto_eq c lead r w sink
  | .fixedHex lead w, c, sink => by
    rw [Term.attemptInto, Term.attempt]
    exact readFixedHexInto_eq c lead w sink
  | .escape lead table otherwise, c, sink => by
    rw [Term.attemptInto, Term.attempt, map_bind]
    refine bind_congr fun x => ?_
    obtain ⟨ok, c₁⟩ := x
    cases ok
    · simp
    simp only [Bool.not_true, Bool.false_eq_true, if_false]
    rcases c₁.peek with ⟨_ | key, c₂⟩
    · simp
    · dsimp only
      rw [entryInto_eq, bind_map_left, map_bind]
      refine bind_congr fun r => ?_
      cases r with
      | none => exact fallbackInto_eq otherwise key c₂ sink
      | some a => simp
  | .hexByteRun, c, sink => by
    rw [Term.attemptInto, Term.attempt]
    exact readHexByteRunInto_eq c sink
  | .hexByte, c, sink => by
    rw [Term.attemptInto, Term.attempt]
    exact readHexByteInto_eq c sink
  | .hexScalar4, c, sink => by
    rw [Term.attemptInto, Term.attempt]
    exact readHexScalar4Into_eq c sink
  | .hexScalar8, c, sink => by
    rw [Term.attemptInto, Term.attempt]
    exact readHexScalar8Into_eq c sink
  | .octalByte, c, sink => by
    rw [Term.attemptInto, Term.attempt]
    exact readOctalByteInto_eq c sink
  | .surrogatePair first second p, c, sink => by
    rw [Term.attemptInto, Term.attempt]
    exact readSurrogatePairInto_eq c first second p sink

theorem seqInto_eq (start : Nat) : ∀ (parts : List Term) (c : Cursor) (sink : Option Capture),
    seqInto start parts c sink = (·.into sink) <$> attemptSeq start parts c
  | [], c, sink => by
    rw [seqInto, attemptSeq]
    simp
  | t :: ts, c, sink => by
    rw [seqInto, attemptSeq, attemptInto_eq t, bind_map_left, map_bind]
    refine bind_congr fun a => ?_
    obtain ⟨o, c₁, w⟩ := a
    rcases o with _ | why
    · simp [seqInto_eq start ts]
    · cases why
      case unmatched => by_cases hs : c₁.offset = start <;> simp [hs]
      all_goals simp

theorem firstInto_eq : ∀ (choices : List Term) (c : Cursor) (sink : Option Capture),
    firstInto choices c sink = (·.into sink) <$> attemptFirst choices c
  | [], c, sink => by
    rw [firstInto, attemptFirst]
    simp
  | t :: ts, c, sink => by
    rw [firstInto, attemptFirst, attemptInto_eq t, bind_map_left, map_bind]
    refine bind_congr fun a => ?_
    obtain ⟨o, c₁, w⟩ := a
    rcases o with _ | why
    · simp
    · cases why <;> simp [firstInto_eq ts]

theorem contentInto_eq : ∀ (ts : List Term) (c : Cursor) (sink : Option Capture),
    contentInto ts c sink = (·.into sink) <$> attemptContent ts c
  | [], c, sink => by
    rw [contentInto, attemptContent]
    simp
  | t :: ts, c, sink => by
    rw [contentInto, attemptContent, attemptInto_eq t, bind_map_left, map_bind]
    refine bind_congr fun a => ?_
    obtain ⟨o, c₁, w⟩ := a
    rcases o with _ | why
    · simp [contentInto_eq ts]
    · simp [Outcome.mapFailure]

theorem escapeInto_eq : ∀ (e : Option Term), Delivers (escapeInto e) (attemptEscapeStep e)
  | none => fun c sink => by
    rw [escapeInto, attemptEscapeStep, noEscape]
    simp
  | some e => attemptInto_eq e

theorem entryInto_eq : ∀ (table : List (Char × Substitution)) (key : Char) (c : Cursor)
    (sink : Option Capture),
    entryInto table key c sink = Option.map (·.into sink) <$> attemptEntry table key c
  | [], _, c, sink => by
    rw [entryInto, attemptEntry]
    simp
  | (k, s) :: entries, key, c, sink => by
    rw [entryInto, attemptEntry]
    split
    · rw [map_bind]
      refine bind_congr fun x => ?_
      obtain ⟨ok, c₁⟩ := x
      simp [applyInto_eq s key c₁ sink]
    · exact entryInto_eq entries key c sink

theorem fallbackInto_eq : ∀ (fallback : Option Substitution) (key : Char) (c : Cursor)
    (sink : Option Capture),
    fallbackInto fallback key c sink = (·.into sink) <$> attemptFallback fallback key c
  | none, _, c, sink => by
    rw [fallbackInto, attemptFallback]
    simp
  | some s, key, c, sink => by
    rw [fallbackInto, attemptFallback]
    split
    · exact applyInto_eq s key c sink
    · rw [map_bind]
      refine bind_congr fun x => ?_
      obtain ⟨ok, c₁⟩ := x
      exact applyInto_eq s key c₁ sink

theorem applyInto_eq : ∀ (s : Substitution) (key : Char) (c : Cursor) (sink : Option Capture),
    s.applyInto key c sink = (·.into sink) <$> s.apply key c
  | .term t, _, c, sink => by
    rw [Substitution.applyInto, Substitution.apply, attemptInto_eq t, bind_map_left]
    simp
  | .itself, _, c, sink | .byte _, _, c, sink | .char _, _, c, sink | .text _, _, c, sink => by
    simp [Substitution.applyInto, Substitution.apply]

end

/-- A term runs alike with or without a sink, whatever the sink held. With none and with
`some cap` it halts, or ends with the outcome and the cursor (offset, position and fault) of
`Term.attempt`, which has no sink; with `some cap` the sink ends as `cap` followed by what
`Term.attempt` writes, which depends on the term and the cursor alone. A discarded term reads what
the term reads, ends as it does and leaves the sink as it was. -/
theorem attemptInto_independent_of_sink (t : Term) (c : Cursor) (cap : Capture)
    (sink : Option Capture) :
    t.attemptInto c none = (fun a => ⟨a.outcome, a.cursor, none⟩) <$> t.attempt c ∧
    t.attemptInto c (some cap) =
      (fun a => ⟨a.outcome, a.cursor, some (cap ++ a.written)⟩) <$> t.attempt c ∧
    (Term.discard t).attemptInto c sink =
      (fun a => ⟨a.outcome, a.cursor, sink⟩) <$> t.attempt c := by
  refine ⟨?_, ?_, ?_⟩
  · rw [attemptInto_eq]
    rfl
  · rw [attemptInto_eq]
    rfl
  · rw [attemptInto_eq, Term.attempt, map_bind]
    simp

end Lexer
