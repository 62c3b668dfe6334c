import Lexer.Term.Attempt
import Lexer.Proofs.Cursor
/-! # Every term reads forward

A relation that the basic reads respect holds between the cursor a term starts at and the one it
ends at (`attempt_reaches`): one case per form of term, each loop by induction on the bytes left.
The digit decoders share one shape, `DigitDecoder`, whose facts are proved once.
-/

namespace Lexer

open Cursor

namespace Attempt

@[simp] theorem matched_cursor (c : Cursor) (w : Capture) : (matched c w).cursor = c := rfl
@[simp] theorem matched_outcome (c : Cursor) (w : Capture) : (matched c w).outcome = .matched := rfl
@[simp] theorem matched_written (c : Cursor) (w : Capture) : (matched c w).written = w := rfl
@[simp] theorem failed_cursor (f : Failure) (c : Cursor) (w : Capture) :
    (failed f c w).cursor = c := rfl
@[simp] theorem failed_outcome (f : Failure) (c : Cursor) (w : Capture) :
    (failed f c w).outcome = .failed f := rfl
@[simp] theorem failed_written (f : Failure) (c : Cursor) (w : Capture) :
    (failed f c w).written = w := rfl
@[simp] theorem after_cursor (w : Capture) (a : Attempt) : (a.after w).cursor = a.cursor := rfl
@[simp] theorem after_outcome (w : Capture) (a : Attempt) : (a.after w).outcome = a.outcome := rfl
@[simp] theorem after_written (w : Capture) (a : Attempt) : (a.after w).written = w ++ a.written :=
  rfl
@[simp] theorem silent_cursor (a : Attempt) : a.silent.cursor = a.cursor := rfl
@[simp] theorem silent_outcome (a : Attempt) : a.silent.outcome = a.outcome := rfl
@[simp] theorem silent_written (a : Attempt) : a.silent.written = .empty := rfl
@[simp] theorem mapFailure_cursor (g : Failure → Failure) (a : Attempt) :
    (a.mapFailure g).cursor = a.cursor := rfl
@[simp] theorem mapFailure_outcome (g : Failure → Failure) (a : Attempt) :
    (a.mapFailure g).outcome = a.outcome.mapFailure g := rfl
@[simp] theorem mapFailure_written (g : Failure → Failure) (a : Attempt) :
    (a.mapFailure g).written = a.written := rfl

end Attempt

@[simp] theorem writeByte_cursor (c : Cursor) (v : Nat) : (writeByte c v).cursor = c := by
  unfold writeByte
  split <;> rfl

@[simp] theorem writeScalar_cursor (c : Cursor) (v : Nat) : (writeScalar c v).cursor = c := by
  unfold writeScalar
  split <;> rfl

@[simp] theorem writeByte_ne_unmatched (c : Cursor) (v : Nat) :
    (writeByte c v).outcome ≠ .failed .unmatched := by
  unfold writeByte
  split <;> simp

@[simp] theorem writeScalar_ne_unmatched (c : Cursor) (v : Nat) :
    (writeScalar c v).outcome ≠ .failed .unmatched := by
  unfold writeScalar
  split <;> simp

@[simp] theorem unpairedSurrogate_cursor (c : Cursor) (p : UnpairedPolicy) :
    (unpairedSurrogate c p).cursor = c := by
  cases p <;> rfl

/-- Where a round of a quoted body leaves the cursor. -/
def Round.cursor : Round → Cursor
  | .finished a => a.cursor
  | .again c _ => c

/-- A step ends, when it ends, at a cursor that `R` relates to the one it began at. -/
def Respects (R : Cursor → Cursor → Prop) (step : Step) : Prop :=
  ∀ c a, step c = .ok a → R c a.cursor

/-! ## Digit decoders -/

/-- What a digit decoder makes of the digits it read, accumulated in `acc`, with the cursor `c`
after them: an attempt left at `c` that does not apply exactly when no digit was read, and then
writes nothing. -/
structure Attempt.JudgesDigits (acc : Accumulator) (c : Cursor) (a : Attempt) : Prop where
  cursor_eq : a.cursor = c
  unmatched_iff : a.outcome = .failed .unmatched ↔ acc.count = 0
  silent : acc.count = 0 → a.written = .empty

namespace Attempt.JudgesDigits

variable {acc : Accumulator} {c : Cursor} {a : Attempt}

theorem of_count_eq_zero (h : acc.count = 0) : (failed .unmatched c .empty).JudgesDigits acc c :=
  ⟨rfl, by simp [h], fun _ => rfl⟩

theorem of_count_ne_zero (h : acc.count ≠ 0) (hc : a.cursor = c)
    (hu : a.outcome ≠ .failed .unmatched) : a.JudgesDigits acc c :=
  ⟨hc, by simp [hu, h], fun h' => absurd h' h⟩

end Attempt.JudgesDigits

/-- `step` reads a run of digits with `extract` and then judges them, without halting. -/
def DigitDecoder (extract : Cursor → Except Halt (Accumulator × Cursor)) (step : Step) : Prop :=
  ∃ judge : Accumulator × Cursor → Except Halt Attempt, (∀ c, step c = extract c >>= judge) ∧
    ∀ acc c, ∃ a, judge (acc, c) = .ok a ∧ a.JudgesDigits acc c

namespace DigitDecoder

variable {extract : Cursor → Except Halt (Accumulator × Cursor)} {step : Step}

/-- Every attempt of a digit decoder is its judgement of the digits it read. -/
theorem judged (hd : DigitDecoder extract step) {c : Cursor} {a : Attempt}
    (h : step c = .ok a) : ∃ acc c₁, extract c = .ok (acc, c₁) ∧ a.JudgesDigits acc c₁ := by
  obtain ⟨judge, heq, hj⟩ := hd
  rw [heq] at h
  obtain ⟨⟨acc, c₁⟩, hx, h⟩ := bind_eq_ok.1 h
  obtain ⟨a', ha', hja⟩ := hj acc c₁
  obtain rfl : a' = a := Except.ok.inj (ha'.symm.trans h)
  exact ⟨acc, c₁, hx, hja⟩

theorem reaches {R : Cursor → Cursor → Prop} (hd : DigitDecoder extract step)
    (he : ∀ c c' acc, extract c = .ok (acc, c') → R c c') : Respects R step := by
  intro c a h
  obtain ⟨acc, c₁, hx, hj⟩ := hd.judged h
  rw [hj.cursor_eq]
  exact he c c₁ acc hx

end DigitDecoder

theorem readHexByteRun_digitDecoder : DigitDecoder (extractHex · none) readHexByteRun := by
  refine ⟨_, fun c => rfl, fun acc c => ?_⟩
  dsimp only
  split
  · next h0 => exact ⟨_, rfl, .of_count_eq_zero h0⟩
  · next h0 => split <;> exact ⟨_, rfl, .of_count_ne_zero h0 (by simp) (by simp)⟩

theorem readHexByte_digitDecoder : DigitDecoder (extractHex · (some 2)) readHexByte := by
  refine ⟨_, fun c => rfl, fun acc c => ?_⟩
  dsimp only
  split
  · next h0 => exact ⟨_, rfl, .of_count_eq_zero h0⟩
  · next h0 => split <;> exact ⟨_, rfl, .of_count_ne_zero h0 (by simp) (by simp)⟩

theorem readHexScalar4_digitDecoder : DigitDecoder (extractHex · (some 4)) readHexScalar4 := by
  refine ⟨_, fun c => rfl, fun acc c => ?_⟩
  dsimp only
  split
  · next h0 => exact ⟨_, rfl, .of_count_eq_zero h0⟩
  · next h0 => split <;> exact ⟨_, rfl, .of_count_ne_zero h0 (by simp) (by simp)⟩

theorem readHexScalar8_digitDecoder : DigitDecoder (extractHex · (some 8)) readHexScalar8 := by
  refine ⟨_, fun c => rfl, fun acc c => ?_⟩
  dsimp only
  split
  · next h0 => exact ⟨_, rfl, .of_count_eq_zero h0⟩
  · next h0 => split <;> exact ⟨_, rfl, .of_count_ne_zero h0 (by simp) (by simp)⟩

theorem readOctalByte_digitDecoder : DigitDecoder (extractOctal · (some 3)) readOctalByte := by
  refine ⟨_, fun c => rfl, fun acc c => ?_⟩
  dsimp only
  split
  · next h0 => exact ⟨_, rfl, .of_count_eq_zero h0⟩
  · next h0 => exact ⟨_, rfl, .of_count_ne_zero h0 (by simp) (by simp)⟩

section

variable {R : Cursor → Cursor → Prop} (hR : ReadClosed R)
include hR

/-! ## Digits and numerals -/

theorem Accumulator.scan_reaches {a a' : Accumulator} {ds : List Char} {c c' : Cursor}
    {limit : Option Nat} (h : a.scan c limit = .ok ((a', ds), c')) : R c c' := by
  induction a, c using Accumulator.scan.induct limit generalizing a' ds c' with
  | case1 a c hlim ih =>
    rw [Accumulator.scan, if_pos hlim] at h
    obtain ⟨⟨r, c₁⟩, hf, h⟩ := bind_eq_ok.1 h
    have h₁ := hR.fetch hf
    cases r with
    | none =>
      simp only [pure_eq_ok, Prod.mk.injEq] at h
      exact h.2 ▸ h₁
    | some ch =>
      dsimp only at h
      split at h
      · next hlt =>
        obtain ⟨⟨⟨a'', more⟩, c''⟩, hc'', h⟩ := bind_eq_ok.1 h
        simp only [pure_eq_ok, Prod.mk.injEq] at h
        exact h.2 ▸ hR.trans h₁ (ih ch c₁ hlt hc'')
      · simp only [pure_eq_ok, Prod.mk.injEq] at h
        exact h.2 ▸ h₁
  | case2 a c hlim =>
    rw [Accumulator.scan, if_neg hlim] at h
    simp only [pure_eq_ok, Prod.mk.injEq] at h
    exact h.2 ▸ hR.refl c

theorem extractHex_reaches {c c' : Cursor} {limit : Option Nat} {a : Accumulator}
    (h : extractHex c limit = .ok (a, c')) : R c c' := by
  unfold extractHex at h
  obtain ⟨⟨⟨a₁, ds⟩, c₁⟩, hs, h⟩ := bind_eq_ok.1 h
  simp only [pure_eq_ok, Prod.mk.injEq] at h
  exact h.2 ▸ Accumulator.scan_reaches hR hs

theorem extractOctal_reaches {c c' : Cursor} {limit : Option Nat} {a : Accumulator}
    (h : extractOctal c limit = .ok (a, c')) : R c c' := by
  unfold extractOctal at h
  obtain ⟨⟨⟨a₁, ds⟩, c₁⟩, hs, h⟩ := bind_eq_ok.1 h
  simp only [pure_eq_ok, Prod.mk.injEq] at h
  exact h.2 ▸ Accumulator.scan_reaches hR hs

theorem readLeadDigit_reaches {c c' : Cursor} {lead : String} {r : Radix} {ceiling : Nat}
    {x : Option (Char × Accumulator)} (h : readLeadDigit c lead r ceiling = .ok (x, c')) :
    R c c' := by
  unfold readLeadDigit at h
  obtain ⟨⟨y, c₁⟩, hf, h⟩ := bind_eq_ok.1 h
  cases y <;> simp only [pure_eq_ok, Prod.mk.injEq] at h <;> exact h.2 ▸ hR.leapFetch hf

theorem readUnsigned_reaches {c : Cursor} {lead : String} {r : Radix} {w : Width} {a : Attempt}
    (h : readUnsigned c lead r w = .ok a) : R c a.cursor := by
  unfold readUnsigned at h
  obtain ⟨⟨x, c₁⟩, hl, h⟩ := bind_eq_ok.1 h
  have h₁ := readLeadDigit_reaches hR hl
  cases x with
  | none =>
    simp only [pure_eq_ok] at h
    exact h ▸ h₁
  | some x =>
    obtain ⟨first, acc⟩ := x
    obtain ⟨⟨⟨a₂, more⟩, c₂⟩, hs, h⟩ := bind_eq_ok.1 h
    have h₂ := hR.trans h₁ (Accumulator.scan_reaches hR hs)
    dsimp only at h
    split at h <;> simp only [pure_eq_ok] at h <;> exact h ▸ h₂

theorem readFixedHex_reaches {c : Cursor} {lead : String} {w : Width} {a : Attempt}
    (h : readFixedHex c lead w = .ok a) : R c a.cursor := by
  unfold readFixedHex at h
  obtain ⟨⟨x, c₁⟩, hl, h⟩ := bind_eq_ok.1 h
  have h₁ := readLeadDigit_reaches hR hl
  cases x with
  | none =>
    simp only [pure_eq_ok] at h
    exact h ▸ h₁
  | some x =>
    obtain ⟨first, acc⟩ := x
    obtain ⟨⟨⟨a₂, more⟩, c₂⟩, hs, h⟩ := bind_eq_ok.1 h
    have h₂ := hR.trans h₁ (Accumulator.scan_reaches hR hs)
    dsimp only at h
    split at h <;> simp only [pure_eq_ok] at h <;> exact h ▸ h₂

/-! ## Escape decoders -/

theorem readUnit_reaches {c c' : Cursor} {committed : Bool} {u : Except Failure Nat}
    (h : readUnit c committed = .ok (u, c')) : R c c' := by
  unfold readUnit at h
  obtain ⟨⟨acc, c₁⟩, he, h⟩ := bind_eq_ok.1 h
  have h₁ := extractHex_reaches hR he
  dsimp only at h
  repeat' split at h
  all_goals simp only [pure_eq_ok, Prod.mk.injEq] at h; exact h.2 ▸ h₁

theorem readSurrogatePair_reaches {c : Cursor} {first second : String} {p : UnpairedPolicy}
    {a : Attempt} (h : readSurrogatePair c first second p = .ok a) : R c a.cursor := by
  unfold readSurrogatePair at h
  obtain ⟨⟨ok₁, c₁⟩, hl₁, h⟩ := bind_eq_ok.1 h
  have h₁ := hR.leap hl₁
  dsimp only at h
  split at h
  · simp only [pure_eq_ok] at h
    subst h
    simpa using h₁
  obtain ⟨⟨u, c₂⟩, hu, h⟩ := bind_eq_ok.1 h
  have h₂ := hR.trans h₁ (readUnit_reaches hR hu)
  cases u with
  | error why =>
    simp only [pure_eq_ok] at h
    subst h
    simpa using h₂
  | ok high =>
    dsimp only at h
    split at h
    · simp only [pure_eq_ok] at h
      subst h
      simpa using h₂
    split at h
    · simp only [pure_eq_ok] at h
      subst h
      simpa using h₂
    obtain ⟨⟨ok₂, c₃⟩, hl₂, h⟩ := bind_eq_ok.1 h
    have h₃ := hR.trans h₂ (hR.leap hl₂)
    dsimp only at h
    split at h
    · simp only [pure_eq_ok] at h
      subst h
      simpa using h₃
    obtain ⟨⟨v, c₄⟩, hv, h⟩ := bind_eq_ok.1 h
    have h₄ := hR.trans h₃ (readUnit_reaches hR hv)
    cases v with
    | error why =>
      simp only [pure_eq_ok] at h
      subst h
      simpa using h₄
    | ok low =>
      dsimp only at h
      repeat' split at h
      all_goals simp only [pure_eq_ok] at h; subst h; simpa using h₄

/-! ## Loops -/

theorem leapFirst_reaches {c : Cursor} {alts : List String} {a : Attempt}
    (h : leapFirst c alts = .ok a) : R c a.cursor := by
  induction alts with
  | nil =>
    simp only [leapFirst, pure_eq_ok] at h
    subst h
    exact hR.refl c
  | cons alt alts ih =>
    rw [leapFirst] at h
    obtain ⟨⟨ok, c₁⟩, hl, h⟩ := bind_eq_ok.1 h
    dsimp only at h
    split at h
    · simp only [pure_eq_ok] at h
      subst h
      simpa using hR.leap hl
    · exact ih h

theorem readAnyLiteral_reaches {c : Cursor} {alts : List String} {a : Attempt}
    (h : readAnyLiteral c alts = .ok a) : R c a.cursor := by
  unfold readAnyLiteral at h
  split at h
  · next c₁ hp =>
    simp only [pure_eq_ok] at h
    subst h
    have : c₁ = c.peek.2 := by rw [hp]
    simpa [this] using hR.peek c
  · next first c₁ hp =>
    have : c₁ = c.peek.2 := by rw [hp]
    exact hR.trans (this ▸ hR.peek c) (leapFirst_reaches hR h)

theorem repeatStep_reaches {step : Step} (hstep : Respects R step) {c : Cursor} {a : Attempt}
    (h : repeatStep step c = .ok a) : R c a.cursor := by
  induction c using repeatStep.induct generalizing a with
  | _ c ih =>
    rw [repeatStep] at h
    obtain ⟨a₁, ha₁, h⟩ := bind_eq_ok.1 h
    have h₁ := hstep c a₁ ha₁
    split at h
    · split at h
      · next hlt =>
        obtain ⟨a₂, ha₂, h⟩ := bind_eq_ok.1 h
        simp only [pure_eq_ok] at h
        subst h
        simpa using hR.trans h₁ (ih a₁ hlt ha₂)
      · simp only [pure_eq_ok] at h
        subst h
        simpa using h₁
    · simp only [pure_eq_ok] at h
      subst h
      simpa using h₁
    · simp only [pure_eq_ok] at h
      subst h
      exact h₁

theorem readToLineEnd_reaches {c : Cursor} {a : Attempt} (h : readToLineEnd c = .ok a) :
    R c a.cursor := by
  induction c using readToLineEnd.induct generalizing a with
  | case1 c hd =>
    rw [readToLineEnd, if_pos hd] at h
    simp only [pure_eq_ok] at h
    subst h
    exact hR.refl c
  | case2 c hd ih =>
    rw [readToLineEnd, if_neg hd] at h
    obtain ⟨⟨fed, c₁⟩, hh, h⟩ := bind_eq_ok.1 h
    have h₁ := hR.hop hh
    dsimp only at h
    split at h
    · simp only [pure_eq_ok] at h
      subst h
      simpa using h₁
    obtain ⟨⟨fed₂, c₂⟩, hl, h⟩ := bind_eq_ok.1 h
    have h₂ := hR.trans h₁ (hR.leap hl)
    dsimp only at h
    split at h
    · simp only [pure_eq_ok] at h
      subst h
      simpa using h₂
    obtain ⟨⟨r, c₃⟩, hf, h⟩ := bind_eq_ok.1 h
    have h₃ := hR.trans h₂ (hR.fetchAny hf)
    cases r with
    | none =>
      simp only [pure_eq_ok] at h
      subst h
      simpa using h₃
    | some ch =>
      dsimp only at h
      split at h
      · next hlt =>
        obtain ⟨a₄, ha₄, h⟩ := bind_eq_ok.1 h
        simp only [pure_eq_ok] at h
        subst h
        simpa using hR.trans h₃ (ih c₃ hlt ha₄)
      · simp only [pure_eq_ok] at h
        subst h
        simpa using h₃

theorem readToStop_reaches {stop : Step} (hstop : Respects R stop) {c : Cursor} {a : Attempt}
    (h : readToStop stop c = .ok a) : R c a.cursor := by
  induction c using readToStop.induct generalizing a with
  | _ c ih =>
    rw [readToStop] at h
    obtain ⟨a₁, ha₁, h⟩ := bind_eq_ok.1 h
    have h₁ := hstop c a₁ ha₁
    split at h
    · simp only [pure_eq_ok] at h
      subst h
      simpa using h₁
    · obtain ⟨⟨r, c₃⟩, hf, h⟩ := bind_eq_ok.1 h
      have h₃ := hR.trans h₁ (hR.fetchAny hf)
      cases r with
      | none =>
        simp only [pure_eq_ok] at h
        subst h
        simpa using h₃
      | some ch =>
        dsimp only at h
        split at h
        · next hlt =>
          obtain ⟨a₄, ha₄, h⟩ := bind_eq_ok.1 h
          simp only [pure_eq_ok] at h
          subst h
          simpa using hR.trans h₃ (ih c₃ hlt ha₄)
        · simp only [pure_eq_ok] at h
          subst h
          simpa using h₃
    · simp only [pure_eq_ok] at h
      subst h
      simpa using h₁

theorem closeOrContent_reaches {q : Char} {p : Char → Bool} {c : Cursor} {w : Capture}
    {r : Round} (h : closeOrContent q p c w = .ok r) : R c r.cursor := by
  unfold closeOrContent at h
  obtain ⟨⟨closed, c₂⟩, hh, h⟩ := bind_eq_ok.1 h
  have h₂ := hR.hop hh
  dsimp only at h
  split at h
  · simp only [pure_eq_ok] at h
    subst h
    simpa [Round.cursor] using h₂
  obtain ⟨⟨x, c₃⟩, hf, h⟩ := bind_eq_ok.1 h
  have h₃ := hR.trans h₂ (hR.fetch hf)
  cases x <;> simp only [pure_eq_ok] at h <;> subst h <;> simpa [Round.cursor] using h₃

theorem quotedRound_reaches {q : Char} {p : Char → Bool} {escape : Step}
    (hesc : Respects R escape) {c : Cursor} {r : Round} (h : quotedRound q p escape c = .ok r) :
    R c r.cursor := by
  unfold quotedRound at h
  obtain ⟨e, he, h⟩ := bind_eq_ok.1 h
  have h₁ := hesc c e he
  split at h
  · split at h
    · simp only [pure_eq_ok] at h
      subst h
      simpa [Round.cursor] using h₁
    · simp [throw, throwThe, MonadExceptOf.throw] at h
  · exact hR.trans h₁ (closeOrContent_reaches hR h)
  · simp only [pure_eq_ok] at h
    subst h
    simpa [Round.cursor] using h₁

theorem readQuotedBody_reaches {q : Char} {p : Char → Bool} {escape : Step}
    (hesc : Respects R escape) {c : Cursor} {a : Attempt}
    (h : readQuotedBody q p escape c = .ok a) : R c a.cursor := by
  induction c using readQuotedBody.induct generalizing a with
  | _ c ih =>
    rw [readQuotedBody] at h
    obtain ⟨r, hr, h⟩ := bind_eq_ok.1 h
    have h₁ := quotedRound_reaches hR hesc hr
    split at h
    · simp only [pure_eq_ok] at h
      subst h
      simpa [Round.cursor] using h₁
    · split at h
      · next hlt =>
        obtain ⟨a₂, ha₂, h⟩ := bind_eq_ok.1 h
        simp only [pure_eq_ok] at h
        subst h
        simpa using hR.trans h₁ (ih _ hlt ha₂)
      · simp only [pure_eq_ok] at h
        subst h
        simpa [Round.cursor] using h₁

/-! ## Terms -/

mutual

theorem attempt_reaches : ∀ (t : Term) (c : Cursor) (a : Attempt), t.attempt c = .ok a →
    R c a.cursor
  | .literal s, c, a, h => by
    simp only [Term.attempt] at h
    obtain ⟨⟨ok, c₁⟩, hl, h⟩ := bind_eq_ok.1 h
    simp only [pure_eq_ok] at h
    subst h
    cases ok <;> simpa using hR.leap hl
  | .scalar ch, c, a, h => by
    simp only [Term.attempt] at h
    obtain ⟨⟨ok, c₁⟩, hh, h⟩ := bind_eq_ok.1 h
    simp only [pure_eq_ok] at h
    subst h
    cases ok <;> simpa using hR.hop hh
  | .scalarIn k, c, a, h => by
    simp only [Term.attempt] at h
    obtain ⟨⟨r, c₁⟩, hf, h⟩ := bind_eq_ok.1 h
    cases r <;> simp only [pure_eq_ok] at h <;> subst h <;> simpa using hR.fetch hf
  | .word first more, c, a, h => by
    simp only [Term.attempt] at h
    obtain ⟨⟨r, c₁⟩, hf, h⟩ := bind_eq_ok.1 h
    cases r with
    | none =>
      simp only [pure_eq_ok] at h
      subst h
      simpa using hR.fetch hf
    | some ch =>
      obtain ⟨⟨⟨run, stop⟩, c₂⟩, hs, h⟩ := bind_eq_ok.1 h
      simp only [pure_eq_ok] at h
      subst h
      simpa using hR.trans (hR.fetch hf) (hR.skipRun hs)
  | .endOfInput, c, a, h => by
    simp only [Term.attempt, pure_eq_ok] at h
    subst h
    split <;> exact hR.refl c
  | .endOfLine, c, a, h => by
    simp only [Term.attempt] at h
    obtain ⟨⟨fed, c₁⟩, hh, h⟩ := bind_eq_ok.1 h
    have h₁ := hR.hop hh
    dsimp only at h
    split at h
    · simp only [pure_eq_ok] at h
      subst h
      simpa using h₁
    obtain ⟨⟨fed₂, c₂⟩, hl, h⟩ := bind_eq_ok.1 h
    have h₂ := hR.trans h₁ (hR.leap hl)
    dsimp only at h
    split at h
    · simp only [pure_eq_ok] at h
      subst h
      simpa using h₂
    · simp only [pure_eq_ok] at h
      subst h
      split <;> simpa using h₂
  | .seq parts, c, a, h => seq_reaches c.offset parts c a h
  | .firstOf choices, c, a, h => first_reaches choices c a h
  | .optional t, c, a, h => by
    simp only [Term.attempt] at h
    obtain ⟨a₁, ha₁, h⟩ := bind_eq_ok.1 h
    have h₁ := attempt_reaches t c a₁ ha₁
    split at h <;> simp only [pure_eq_ok] at h <;> subst h <;> simpa using h₁
  | .many t, c, a, h => by
    simp only [Term.attempt] at h
    exact repeatStep_reaches hR (attempt_reaches t) h
  | .many1 t, c, a, h => by
    simp only [Term.attempt] at h
    obtain ⟨a₁, ha₁, h⟩ := bind_eq_ok.1 h
    have h₁ := attempt_reaches t c a₁ ha₁
    split at h
    · obtain ⟨a₂, ha₂, h⟩ := bind_eq_ok.1 h
      simp only [pure_eq_ok] at h
      subst h
      simpa using hR.trans h₁ (repeatStep_reaches hR (attempt_reaches t) ha₂)
    · simp only [pure_eq_ok] at h
      subst h
      exact h₁
  | .discard t, c, a, h => by
    simp only [Term.attempt] at h
    obtain ⟨a₁, ha₁, h⟩ := bind_eq_ok.1 h
    simp only [pure_eq_ok] at h
    subst h
    simpa using attempt_reaches t c a₁ ha₁
  | .anyLiteral alts, c, a, h => by
    simp only [Term.attempt] at h
    exact readAnyLiteral_reaches hR h
  | .between opener content closer, c, a, h => by
    simp only [Term.attempt] at h
    obtain ⟨a₁, ha₁, h⟩ := bind_eq_ok.1 h
    have h₁ := attempt_reaches opener c a₁ ha₁
    split at h
    · simp only [pure_eq_ok] at h
      subst h
      simpa using h₁
    obtain ⟨b, hb, h⟩ := bind_eq_ok.1 h
    have h₂ := hR.trans h₁ (content_reaches content a₁.cursor b hb)
    split at h
    · simp only [pure_eq_ok] at h
      subst h
      exact h₂
    obtain ⟨z, hz, h⟩ := bind_eq_ok.1 h
    simp only [pure_eq_ok] at h
    subst h
    exact hR.trans h₂ (attempt_reaches closer b.cursor z hz)
  | .untilLineEnd opener, c, a, h => by
    simp only [Term.attempt] at h
    obtain ⟨a₁, ha₁, h⟩ := bind_eq_ok.1 h
    have h₁ := attempt_reaches opener c a₁ ha₁
    split at h
    · simp only [pure_eq_ok] at h
      subst h
      simpa using h₁
    · exact hR.trans h₁ (readToLineEnd_reaches hR h)
  | .untilStop opener stop, c, a, h => by
    simp only [Term.attempt] at h
    obtain ⟨a₁, ha₁, h⟩ := bind_eq_ok.1 h
    have h₁ := attempt_reaches opener c a₁ ha₁
    split at h
    · simp only [pure_eq_ok] at h
      subst h
      simpa using h₁
    · exact hR.trans h₁ (readToStop_reaches hR (attempt_reaches stop) h)
  | .quoted quote content escape, c, a, h => by
    simp only [Term.attempt] at h
    obtain ⟨⟨r, c₁⟩, hf, h⟩ := bind_eq_ok.1 h
    have h₁ := hR.fetch hf
    cases r with
    | none =>
      simp only [pure_eq_ok] at h
      subst h
      simpa using h₁
    | some q => exact hR.trans h₁ (readQuotedBody_reaches hR (escapeStep_reaches escape) h)
  | .unsigned lead r w, c, a, h => readUnsigned_reaches hR h
  | .fixedHex lead w, c, a, h => readFixedHex_reaches hR h
  | .escape lead table fallback, c, a, h => by
    simp only [Term.attempt] at h
    obtain ⟨⟨ok, c₁⟩, hh, h⟩ := bind_eq_ok.1 h
    have h₁ := hR.hop hh
    dsimp only at h
    split at h
    · simp only [pure_eq_ok] at h
      subst h
      simpa using h₁
    split at h
    · next c₂ hp =>
      simp only [pure_eq_ok] at h
      subst h
      have : c₂ = c₁.peek.2 := by rw [hp]
      simpa [this] using hR.trans h₁ (hR.peek c₁)
    · next key c₂ hp =>
      have h₂ : R c c₂ := by
        have : c₂ = c₁.peek.2 := by rw [hp]
        exact this ▸ hR.trans h₁ (hR.peek c₁)
      obtain ⟨x, hx, h⟩ := bind_eq_ok.1 h
      cases x with
      | some a₃ =>
        simp only [pure_eq_ok] at h
        subst h
        exact hR.trans h₂ (entry_reaches table key c₂ _ hx a₃ rfl)
      | none => exact hR.trans h₂ (fallback_reaches fallback key c₂ a h)
  | .hexByteRun, c, a, h =>
    readHexByteRun_digitDecoder.reaches (fun _ _ _ => extractHex_reaches hR) c a h
  | .hexByte, c, a, h =>
    readHexByte_digitDecoder.reaches (fun _ _ _ => extractHex_reaches hR) c a h
  | .hexScalar4, c, a, h =>
    readHexScalar4_digitDecoder.reaches (fun _ _ _ => extractHex_reaches hR) c a h
  | .hexScalar8, c, a, h =>
    readHexScalar8_digitDecoder.reaches (fun _ _ _ => extractHex_reaches hR) c a h
  | .octalByte, c, a, h =>
    readOctalByte_digitDecoder.reaches (fun _ _ _ => extractOctal_reaches hR) c a h
  | .surrogatePair first second p, c, a, h => readSurrogatePair_reaches hR h

theorem seq_reaches : ∀ (start : Nat) (parts : List Term) (c : Cursor) (a : Attempt),
    attemptSeq start parts c = .ok a → R c a.cursor
  | _, [], c, a, h => by
    simp only [attemptSeq, pure_eq_ok] at h
    subst h
    exact hR.refl c
  | start, t :: ts, c, a, h => by
    simp only [attemptSeq] at h
    obtain ⟨a₁, ha₁, h⟩ := bind_eq_ok.1 h
    have h₁ := attempt_reaches t c a₁ ha₁
    split at h
    · obtain ⟨a₂, ha₂, h⟩ := bind_eq_ok.1 h
      simp only [pure_eq_ok] at h
      subst h
      simpa using hR.trans h₁ (seq_reaches start ts a₁.cursor a₂ ha₂)
    · simp only [pure_eq_ok] at h
      subst h
      simpa using h₁
    · simp only [pure_eq_ok] at h
      subst h
      exact h₁

theorem first_reaches : ∀ (choices : List Term) (c : Cursor) (a : Attempt),
    attemptFirst choices c = .ok a → R c a.cursor
  | [], c, a, h => by
    simp only [attemptFirst, pure_eq_ok] at h
    subst h
    exact hR.refl c
  | t :: ts, c, a, h => by
    simp only [attemptFirst] at h
    obtain ⟨a₁, ha₁, h⟩ := bind_eq_ok.1 h
    have h₁ := attempt_reaches t c a₁ ha₁
    split at h
    · obtain ⟨a₂, ha₂, h⟩ := bind_eq_ok.1 h
      simp only [pure_eq_ok] at h
      subst h
      simpa using hR.trans h₁ (first_reaches ts a₁.cursor a₂ ha₂)
    · simp only [pure_eq_ok] at h
      subst h
      exact h₁

theorem content_reaches : ∀ (ts : List Term) (c : Cursor) (a : Attempt),
    attemptContent ts c = .ok a → R c a.cursor
  | [], c, a, h => by
    simp only [attemptContent, pure_eq_ok] at h
    subst h
    exact hR.refl c
  | t :: ts, c, a, h => by
    simp only [attemptContent] at h
    obtain ⟨a₁, ha₁, h⟩ := bind_eq_ok.1 h
    have h₁ := attempt_reaches t c a₁ ha₁
    split at h
    · obtain ⟨a₂, ha₂, h⟩ := bind_eq_ok.1 h
      simp only [pure_eq_ok] at h
      subst h
      simpa using hR.trans h₁ (content_reaches ts a₁.cursor a₂ ha₂)
    · simp only [pure_eq_ok] at h
      subst h
      simpa using h₁

theorem escapeStep_reaches : ∀ (e : Option Term), Respects R (attemptEscapeStep e)
  | none => fun c a h => by
    simp only [attemptEscapeStep, noEscape, pure_eq_ok] at h
    subst h
    exact hR.refl c
  | some e => attempt_reaches e

theorem entry_reaches : ∀ (table : List (Char × Substitution)) (key : Char) (c : Cursor)
    (x : Option Attempt), attemptEntry table key c = .ok x → ∀ a, x = some a → R c a.cursor
  | [], _, _, x, h, a, hx => by
    simp only [attemptEntry, pure_eq_ok] at h
    simp [← h] at hx
  | (k, s) :: entries, key, c, x, h, a, hx => by
    simp only [attemptEntry] at h
    split at h
    · obtain ⟨⟨ok, c₁⟩, hh, h⟩ := bind_eq_ok.1 h
      obtain ⟨a₂, ha₂, h⟩ := bind_eq_ok.1 h
      simp only [pure_eq_ok] at h
      subst h
      cases hx
      exact hR.trans (hR.hop hh) (apply_reaches s key c₁ a ha₂)
    · exact entry_reaches entries key c x h a hx

theorem fallback_reaches : ∀ (fallback : Option Substitution) (key : Char) (c : Cursor)
    (a : Attempt), attemptFallback fallback key c = .ok a → R c a.cursor
  | none, _, c, a, h => by
    simp only [attemptFallback, pure_eq_ok] at h
    subst h
    exact hR.refl c
  | some s, key, c, a, h => by
    simp only [attemptFallback] at h
    split at h
    · exact apply_reaches s key c a h
    · obtain ⟨⟨ok, c₁⟩, hh, h⟩ := bind_eq_ok.1 h
      exact hR.trans (hR.hop hh) (apply_reaches s key c₁ a h)

theorem apply_reaches : ∀ (s : Substitution) (key : Char) (c : Cursor) (a : Attempt),
    s.apply key c = .ok a → R c a.cursor
  | .term t, _, c, a, h => by
    simp only [Substitution.apply] at h
    obtain ⟨a₁, ha₁, h⟩ := bind_eq_ok.1 h
    simp only [pure_eq_ok] at h
    subst h
    simpa using attempt_reaches t c a₁ ha₁
  | .itself, _, c, a, h | .byte _, _, c, a, h | .char _, _, c, a, h | .text _, _, c, a, h => by
    simp only [Substitution.apply, pure_eq_ok] at h
    subst h
    exact hR.refl c

end

end

/-- Every term reads forward. -/
theorem attempt_forward {t : Term} {c : Cursor} {a : Attempt} (h : t.attempt c = .ok a) :
    c.Forward a.cursor :=
  attempt_reaches readClosed_forward t c a h

end Lexer
