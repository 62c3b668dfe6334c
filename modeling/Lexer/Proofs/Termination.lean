import Lexer.Token
import Lexer.Proofs.Discipline
/-! # Which runs end

Every loop goes round again only once its cursor has moved on, except a quoted body whose escape
matches without reading: that run never ends, and it is the only one (`quotedRound_endless`). So
a term whose escapes read whenever they match always ends (`runs_end_when_escapes_read`).
-/

namespace Lexer

open Cursor

/-! ## Runs that stop -/

theorem bind_eq_error {ε α β : Type} {x : Except ε α} {f : α → Except ε β} {e : ε} :
    x >>= f = .error e ↔ x = .error e ∨ ∃ a, x = .ok a ∧ f a = .error e := by
  cases x <;> simp [bind, Except.bind]

@[simp] theorem pure_ne_error {ε α : Type} {a : α} {e : ε} : (pure a : Except ε α) ≠ .error e := by
  simp [pure, Except.pure]

theorem bind_ne_endless {α β : Type} {x : Except Halt α} {f : α → Except Halt β}
    (hx : x ≠ .error .endless) (hf : ∀ a, x = .ok a → f a ≠ .error .endless) :
    x >>= f ≠ .error .endless := by
  intro h
  rcases bind_eq_error.1 h with h | ⟨a, ha, h⟩
  · exact hx h
  · exact hf a ha h

/-! ## Reads never run forever -/

theorem bumpCount_ne_endless (n k : Nat) : bumpCount n k ≠ .error .endless := by
  unfold bumpCount
  split <;> simp

theorem Position.advance_ne_endless (p : Position) (ch : Char) :
    p.advance ch ≠ .error .endless := by
  unfold advance
  split <;>
  · refine bind_ne_endless (bumpCount_ne_endless _ _) fun _ _ => ?_
    simp

theorem Position.advanceText_ne_endless (p : Position) (s : String) :
    p.advanceText s ≠ .error .endless := by
  unfold advanceText
  dsimp only
  split <;>
  · refine bind_ne_endless (bumpCount_ne_endless _ _) fun _ _ => ?_
    simp

namespace Cursor

variable (c : Cursor)

theorem consume_ne_endless (ch : Char) (w : Nat) : c.consume ch w ≠ .error .endless := by
  unfold consume
  exact bind_ne_endless (c.position.advance_ne_endless ch) fun _ _ => by simp

theorem hop_ne_endless (ch : Char) : c.hop ch ≠ .error .endless := by
  unfold hop
  split
  · split
    · exact bind_ne_endless (consume_ne_endless _ _ _) fun _ _ => by simp
    · simp
  · simp

theorem leap_ne_endless (s : String) : c.leap s ≠ .error .endless := by
  unfold leap
  dsimp only
  split
  · exact bind_ne_endless (c.position.advanceText_ne_endless s) fun _ _ => by simp
  · simp

theorem fetch_ne_endless (p : Char → Bool) : c.fetch p ≠ .error .endless := by
  unfold fetch
  split
  · split
    · exact bind_ne_endless (consume_ne_endless _ _ _) fun _ _ => by simp
    · simp
  · simp

theorem fetchAny_ne_endless : c.fetchAny ≠ .error .endless :=
  c.fetch_ne_endless _

theorem skipRun_ne_endless (p : Char → Bool) : c.skipRun p ≠ .error .endless := by
  induction c using Cursor.skipRun.induct p with
  | case1 c ch w c₁ hs hp ih =>
    rw [Cursor.skipRun, hs]
    simp only [hp, if_true]
    refine bind_ne_endless (consume_ne_endless _ _ _) fun c₂ hc₂ => ?_
    split
    · next hlt => exact bind_ne_endless (ih c₂ hlt) fun _ _ => by simp
    · simp
  | case2 c ch w c₁ hs hp =>
    rw [Cursor.skipRun, hs]
    simp [hp]
  | case3 c c₁ hs =>
    rw [Cursor.skipRun, hs]
    simp

theorem skip_ne_endless (p : Char → Bool) : c.skip p ≠ .error .endless := by
  unfold skip
  exact bind_ne_endless (c.skipRun_ne_endless p) fun _ _ => by simp

theorem leapFetch_ne_endless (s : String) (p : Char → Bool) :
    c.leapFetch s p ≠ .error .endless := by
  unfold leapFetch
  dsimp only
  split
  · split
    · split
      · refine bind_ne_endless (c.position.advanceText_ne_endless s) fun q _ => ?_
        exact bind_ne_endless (q.advance_ne_endless _) fun _ _ => by simp
      · simp
    · simp
  · simp

end Cursor

/-! ## Numerals and decoders never run forever -/

theorem Accumulator.scan_ne_endless (a : Accumulator) (c : Cursor) (limit : Option Nat) :
    a.scan c limit ≠ .error .endless := by
  induction a, c using Accumulator.scan.induct limit with
  | case1 a c hlim ih =>
    rw [Accumulator.scan, if_pos hlim]
    refine bind_ne_endless (c.fetch_ne_endless _) fun out _ => ?_
    obtain ⟨r, c₁⟩ := out
    cases r with
    | none => simp
    | some ch =>
      dsimp only
      split
      · next hlt => exact bind_ne_endless (ih ch c₁ hlt) fun _ _ => by simp
      · simp
  | case2 a c hlim =>
    rw [Accumulator.scan, if_neg hlim]
    simp

theorem extractHex_ne_endless (c : Cursor) (limit : Option Nat) :
    extractHex c limit ≠ .error .endless := by
  unfold extractHex
  exact bind_ne_endless (Accumulator.scan_ne_endless _ _ _) fun _ _ => by simp

theorem extractOctal_ne_endless (c : Cursor) (limit : Option Nat) :
    extractOctal c limit ≠ .error .endless := by
  unfold extractOctal
  exact bind_ne_endless (Accumulator.scan_ne_endless _ _ _) fun _ _ => by simp

theorem readLeadDigit_ne_endless (c : Cursor) (lead : String) (r : Radix) (ceiling : Nat) :
    readLeadDigit c lead r ceiling ≠ .error .endless := by
  unfold readLeadDigit
  refine bind_ne_endless (c.leapFetch_ne_endless _ _) fun out _ => ?_
  obtain ⟨x, c₁⟩ := out
  cases x <;> simp

theorem readUnsigned_ne_endless (c : Cursor) (lead : String) (r : Radix) (w : Width) :
    readUnsigned c lead r w ≠ .error .endless := by
  unfold readUnsigned
  refine bind_ne_endless (readLeadDigit_ne_endless _ _ _ _) fun out _ => ?_
  obtain ⟨x, c₁⟩ := out
  rcases x with _ | ⟨first, acc⟩
  · simp
  · refine bind_ne_endless (Accumulator.scan_ne_endless _ _ _) fun _ _ => ?_
    dsimp only
    split <;> simp

theorem readFixedHex_ne_endless (c : Cursor) (lead : String) (w : Width) :
    readFixedHex c lead w ≠ .error .endless := by
  unfold readFixedHex
  refine bind_ne_endless (readLeadDigit_ne_endless _ _ _ _) fun out _ => ?_
  obtain ⟨x, c₁⟩ := out
  rcases x with _ | ⟨first, acc⟩
  · simp
  · refine bind_ne_endless (Accumulator.scan_ne_endless _ _ _) fun _ _ => ?_
    dsimp only
    split <;> simp

theorem DigitDecoder.ne_endless {extract : Cursor → Except Halt (Accumulator × Cursor)}
    {step : Step} (hd : DigitDecoder extract step) (he : ∀ c, extract c ≠ .error .endless)
    (c : Cursor) : step c ≠ .error .endless := by
  obtain ⟨judge, heq, hj⟩ := hd
  rw [heq]
  refine bind_ne_endless (he c) fun ⟨acc, c₁⟩ _ => ?_
  obtain ⟨a, ha, -⟩ := hj acc c₁
  simp [ha]

theorem readUnit_ne_endless (c : Cursor) (committed : Bool) :
    readUnit c committed ≠ .error .endless := by
  unfold readUnit
  refine bind_ne_endless (extractHex_ne_endless _ _) fun _ _ => ?_
  dsimp only
  repeat' split
  all_goals simp

theorem readSurrogatePair_ne_endless (c : Cursor) (first second : String) (p : UnpairedPolicy) :
    readSurrogatePair c first second p ≠ .error .endless := by
  unfold readSurrogatePair
  refine bind_ne_endless (c.leap_ne_endless _) fun out _ => ?_
  obtain ⟨ok₁, c₁⟩ := out
  dsimp only
  split
  · simp
  refine bind_ne_endless (readUnit_ne_endless _ _) fun out _ => ?_
  obtain ⟨u, c₂⟩ := out
  rcases u with why | high
  · simp
  dsimp only
  split
  · simp
  split
  · simp
  refine bind_ne_endless (c₂.leap_ne_endless _) fun out _ => ?_
  obtain ⟨ok₂, c₃⟩ := out
  dsimp only
  split
  · simp
  refine bind_ne_endless (readUnit_ne_endless _ _) fun out _ => ?_
  obtain ⟨v, c₄⟩ := out
  rcases v with why | low
  · simp
  dsimp only
  repeat' split
  all_goals simp

theorem leapFirst_ne_endless (c : Cursor) :
    ∀ alts : List String, leapFirst c alts ≠ .error .endless
  | [] => by simp [leapFirst]
  | alt :: alts => by
    rw [leapFirst]
    refine bind_ne_endless (c.leap_ne_endless _) fun out _ => ?_
    obtain ⟨ok, c₁⟩ := out
    dsimp only
    split
    · simp
    · exact leapFirst_ne_endless c alts

theorem readAnyLiteral_ne_endless (c : Cursor) (alts : List String) :
    readAnyLiteral c alts ≠ .error .endless := by
  unfold readAnyLiteral
  split
  · simp
  · exact leapFirst_ne_endless _ _

/-! ## Loops -/

/-- A step that reads at least one byte whenever it matches. -/
def Consumes (step : Step) : Prop :=
  ∀ c a, step c = .ok a → a.outcome = .matched → a.cursor.rest.length < c.rest.length

theorem repeatStep_ne_endless {step : Step} (hstep : ∀ c, step c ≠ .error .endless) (c : Cursor) :
    repeatStep step c ≠ .error .endless := by
  induction c using repeatStep.induct with
  | _ c ih =>
    rw [repeatStep]
    refine bind_ne_endless (hstep c) fun a _ => ?_
    split
    · split
      · next hlt => exact bind_ne_endless (ih a hlt) fun _ _ => by simp
      · simp
    · simp
    · simp

theorem readToLineEnd_ne_endless (c : Cursor) : readToLineEnd c ≠ .error .endless := by
  induction c using readToLineEnd.induct with
  | case1 c hd =>
    rw [readToLineEnd, if_pos hd]
    simp
  | case2 c hd ih =>
    rw [readToLineEnd, if_neg hd]
    refine bind_ne_endless (c.hop_ne_endless _) fun out _ => ?_
    obtain ⟨fed, c₁⟩ := out
    dsimp only
    split
    · simp
    refine bind_ne_endless (c₁.leap_ne_endless _) fun out _ => ?_
    obtain ⟨fed₂, c₂⟩ := out
    dsimp only
    split
    · simp
    refine bind_ne_endless (c₂.fetchAny_ne_endless) fun out _ => ?_
    obtain ⟨r, c₃⟩ := out
    rcases r with _ | ch
    · simp
    dsimp only
    split
    · next hlt => exact bind_ne_endless (ih c₃ hlt) fun _ _ => by simp
    · simp

theorem readToStop_ne_endless {stop : Step} (hstop : ∀ c, stop c ≠ .error .endless) (c : Cursor) :
    readToStop stop c ≠ .error .endless := by
  induction c using readToStop.induct with
  | _ c ih =>
    rw [readToStop]
    refine bind_ne_endless (hstop c) fun a _ => ?_
    split
    · simp
    · refine bind_ne_endless (a.cursor.fetchAny_ne_endless) fun out _ => ?_
      obtain ⟨r, c₃⟩ := out
      rcases r with _ | ch
      · simp
      dsimp only
      split
      · next hlt => exact bind_ne_endless (ih c₃ hlt) fun _ _ => by simp
      · simp
    · simp

theorem closeOrContent_ne_endless (q : Char) (p : Char → Bool) (c : Cursor) (w : Capture) :
    closeOrContent q p c w ≠ .error .endless := by
  unfold closeOrContent
  refine bind_ne_endless (c.hop_ne_endless _) fun out _ => ?_
  obtain ⟨closed, c₂⟩ := out
  dsimp only
  split
  · simp
  refine bind_ne_endless (c₂.fetch_ne_endless _) fun out _ => ?_
  obtain ⟨x, c₃⟩ := out
  cases x <;> simp

/-- A round of a quoted body never ends exactly when its escape never ends, or matches without
reading. -/
theorem quotedRound_endless {q : Char} {p : Char → Bool} {escape : Step} {c : Cursor} :
    quotedRound q p escape c = .error .endless ↔ escape c = .error .endless ∨
      ∃ e, escape c = .ok e ∧ e.outcome = .matched ∧ ¬ e.cursor.rest.length < c.rest.length := by
  unfold quotedRound
  constructor
  · intro h
    rcases bind_eq_error.1 h with h | ⟨e, he, h⟩
    · exact .inl h
    · refine .inr ⟨e, he, ?_⟩
      split at h
      · next hm =>
        split at h
        · simp at h
        · exact ⟨hm, ‹_›⟩
      · exact absurd h (closeOrContent_ne_endless _ _ _ _)
      · simp at h
  · rintro (h | ⟨e, he, hm, hlen⟩)
    · simp [h, bind, Except.bind]
    · simp [he, hm, hlen, bind, Except.bind, throw, throwThe, MonadExceptOf.throw]

theorem readQuotedBody_ne_endless {q : Char} {p : Char → Bool} {escape : Step}
    (hesc : ∀ c, escape c ≠ .error .endless) (hcons : Consumes escape) (c : Cursor) :
    readQuotedBody q p escape c ≠ .error .endless := by
  induction c using readQuotedBody.induct with
  | _ c ih =>
    rw [readQuotedBody]
    have hround : quotedRound q p escape c ≠ .error .endless := by
      rw [Ne, quotedRound_endless]
      rintro (h | ⟨e, he, hm, hlen⟩)
      · exact hesc c h
      · exact hlen (hcons c e he hm)
    refine bind_ne_endless hround fun r _ => ?_
    split
    · simp
    · split
      · next hlt => exact bind_ne_endless (ih _ hlt) fun _ _ => by simp
      · simp

/-! ## The escapes of a term -/

mutual

/-- The escapes of the quoted literals in a term, and of those in the escapes, in order. -/
def Term.escapes : Term → List Term
  | .seq parts => Term.escapesOf parts
  | .firstOf choices => Term.escapesOf choices
  | .optional t | .many t | .many1 t | .discard t | .untilLineEnd t => t.escapes
  | .between opener content closer => opener.escapes ++ Term.escapesOf content ++ closer.escapes
  | .untilStop opener stop => opener.escapes ++ stop.escapes
  | .quoted _ _ esc => Term.escapeEscapes esc
  | .escape _ table fallback => Term.entryEscapes table ++ Term.fallbackEscapes fallback
  | _ => []

/-- The escapes of the quoted literals in a list of terms. -/
def Term.escapesOf : List Term → List Term
  | [] => []
  | t :: ts => t.escapes ++ Term.escapesOf ts

/-- A quoted literal's escape, if it has one, and the escapes within it. -/
def Term.escapeEscapes : Option Term → List Term
  | none => []
  | some e => e :: e.escapes

/-- The escapes of the quoted literals in the decoders of an escape table. -/
def Term.entryEscapes : List (Char × Substitution) → List Term
  | [] => []
  | (_, s) :: entries => Term.substEscapes s ++ Term.entryEscapes entries

def Term.fallbackEscapes : Option Substitution → List Term
  | none => []
  | some s => Term.substEscapes s

def Term.substEscapes : Substitution → List Term
  | .term t => t.escapes
  | _ => []

end

example : (Term.quoted .univ .univ (some (.literal ""))).escapes = [.literal ""] := rfl

/-! ## Runs end when escapes read -/

theorem escapeStep_consumes {o : Option Term} (h : ∀ e ∈ Term.escapeEscapes o, Consumes e.attempt) :
    Consumes (attemptEscapeStep o) := by
  cases o with
  | none =>
    intro c a ha hm
    simp only [attemptEscapeStep, noEscape, pure_eq_ok] at ha
    simp [← ha] at hm
  | some e => exact h e (by simp [Term.escapeEscapes])

mutual

theorem attempt_ne_endless :
    ∀ t : Term, (∀ e ∈ t.escapes, Consumes e.attempt) → ∀ c, t.attempt c ≠ .error .endless
  | .literal s, _, c => bind_ne_endless (c.leap_ne_endless s) fun _ _ => by simp
  | .scalar ch, _, c => bind_ne_endless (c.hop_ne_endless ch) fun _ _ => by simp
  | .scalarIn k, _, c => bind_ne_endless (c.fetch_ne_endless _) fun out _ => by
    obtain ⟨r, _⟩ := out
    cases r <;> simp
  | .word first more, _, c => bind_ne_endless (c.fetch_ne_endless _) fun out _ => by
    obtain ⟨r, c₁⟩ := out
    cases r with
    | none => simp
    | some ch => exact bind_ne_endless (c₁.skipRun_ne_endless _) fun _ _ => by simp
  | .endOfInput, _, c => by simp [Term.attempt]
  | .endOfLine, _, c => bind_ne_endless (c.hop_ne_endless _) fun out _ => by
    obtain ⟨fed, c₁⟩ := out
    dsimp only
    split
    · simp
    refine bind_ne_endless (c₁.leap_ne_endless _) fun out _ => ?_
    obtain ⟨fed₂, c₂⟩ := out
    dsimp only
    split <;> simp
  | .seq parts, h, c => seq_ne_endless c.offset parts h c
  | .firstOf choices, h, c => first_ne_endless choices h c
  | .optional t, h, c => bind_ne_endless (attempt_ne_endless t h c) fun a _ => by
    split <;> simp
  | .many t, h, c => repeatStep_ne_endless (attempt_ne_endless t h) c
  | .many1 t, h, c => bind_ne_endless (attempt_ne_endless t h c) fun a _ => by
    split
    · exact bind_ne_endless (repeatStep_ne_endless (attempt_ne_endless t h) _) fun _ _ => by simp
    · simp
  | .discard t, h, c => bind_ne_endless (attempt_ne_endless t h c) fun _ _ => by simp
  | .anyLiteral alts, _, c => readAnyLiteral_ne_endless c alts
  | .between opener content closer, h, c => by
    simp only [Term.escapes, List.mem_append, or_imp, forall_and] at h
    obtain ⟨⟨ho, hc⟩, hz⟩ := h
    refine bind_ne_endless (attempt_ne_endless opener ho c) fun a _ => ?_
    split
    · simp
    refine bind_ne_endless (content_ne_endless content hc _) fun b _ => ?_
    split
    · simp
    · exact bind_ne_endless (attempt_ne_endless closer hz _) fun _ _ => by simp
  | .untilLineEnd opener, h, c => bind_ne_endless (attempt_ne_endless opener h c) fun a _ => by
    split
    · simp
    · exact readToLineEnd_ne_endless _
  | .untilStop opener stop, h, c => by
    simp only [Term.escapes, List.mem_append, or_imp, forall_and] at h
    refine bind_ne_endless (attempt_ne_endless opener h.1 c) fun a _ => ?_
    split
    · simp
    · exact readToStop_ne_endless (attempt_ne_endless stop h.2) _
  | .quoted quote content esc, h, c => bind_ne_endless (c.fetch_ne_endless _) fun out _ => by
    obtain ⟨r, c₁⟩ := out
    cases r with
    | none => simp
    | some q =>
      exact readQuotedBody_ne_endless (escapeStep_ne_endless esc h) (escapeStep_consumes h) c₁
  | .unsigned lead r w, _, c => readUnsigned_ne_endless c lead r w
  | .fixedHex lead w, _, c => readFixedHex_ne_endless c lead w
  | .escape lead table fallback, h, c => by
    simp only [Term.escapes, List.mem_append, or_imp, forall_and] at h
    refine bind_ne_endless (c.hop_ne_endless _) fun out _ => ?_
    obtain ⟨ok, c₁⟩ := out
    dsimp only
    split
    · simp
    split
    · simp
    · refine bind_ne_endless (entry_ne_endless table h.1 _ _) fun x _ => ?_
      cases x with
      | some a => simp
      | none => exact fallback_ne_endless fallback h.2 _ _
  | .hexByteRun, _, c => readHexByteRun_digitDecoder.ne_endless (extractHex_ne_endless · _) c
  | .hexByte, _, c => readHexByte_digitDecoder.ne_endless (extractHex_ne_endless · _) c
  | .hexScalar4, _, c => readHexScalar4_digitDecoder.ne_endless (extractHex_ne_endless · _) c
  | .hexScalar8, _, c => readHexScalar8_digitDecoder.ne_endless (extractHex_ne_endless · _) c
  | .octalByte, _, c => readOctalByte_digitDecoder.ne_endless (extractOctal_ne_endless · _) c
  | .surrogatePair first second p, _, c => readSurrogatePair_ne_endless c first second p

theorem seq_ne_endless (start : Nat) :
    ∀ ts : List Term, (∀ e ∈ Term.escapesOf ts, Consumes e.attempt) →
      ∀ c, attemptSeq start ts c ≠ .error .endless
  | [], _, c => by simp [attemptSeq]
  | t :: ts, h, c => by
    simp only [Term.escapesOf, List.mem_append, or_imp, forall_and] at h
    refine bind_ne_endless (attempt_ne_endless t h.1 c) fun a _ => ?_
    split
    · exact bind_ne_endless (seq_ne_endless start ts h.2 _) fun _ _ => by simp
    · simp
    · simp

theorem first_ne_endless :
    ∀ ts : List Term, (∀ e ∈ Term.escapesOf ts, Consumes e.attempt) →
      ∀ c, attemptFirst ts c ≠ .error .endless
  | [], _, c => by simp [attemptFirst]
  | t :: ts, h, c => by
    simp only [Term.escapesOf, List.mem_append, or_imp, forall_and] at h
    refine bind_ne_endless (attempt_ne_endless t h.1 c) fun a _ => ?_
    split
    · exact bind_ne_endless (first_ne_endless ts h.2 _) fun _ _ => by simp
    · simp

theorem content_ne_endless :
    ∀ ts : List Term, (∀ e ∈ Term.escapesOf ts, Consumes e.attempt) →
      ∀ c, attemptContent ts c ≠ .error .endless
  | [], _, c => by simp [attemptContent]
  | t :: ts, h, c => by
    simp only [Term.escapesOf, List.mem_append, or_imp, forall_and] at h
    refine bind_ne_endless (attempt_ne_endless t h.1 c) fun a _ => ?_
    split
    · exact bind_ne_endless (content_ne_endless ts h.2 _) fun _ _ => by simp
    · simp

theorem escapeStep_ne_endless :
    ∀ o : Option Term, (∀ e ∈ Term.escapeEscapes o, Consumes e.attempt) →
      ∀ c, attemptEscapeStep o c ≠ .error .endless
  | none, _, c => by simp [attemptEscapeStep, noEscape]
  | some e, h, c => attempt_ne_endless e (fun x hx => h x (by simp [Term.escapeEscapes, hx])) c

theorem entry_ne_endless :
    ∀ table : List (Char × Substitution), (∀ e ∈ Term.entryEscapes table, Consumes e.attempt) →
      ∀ key c, attemptEntry table key c ≠ .error .endless
  | [], _, key, c => by simp [attemptEntry]
  | (k, s) :: entries, h, key, c => by
    simp only [Term.entryEscapes, List.mem_append, or_imp, forall_and] at h
    simp only [attemptEntry]
    split
    · refine bind_ne_endless (c.hop_ne_endless _) fun out _ => ?_
      obtain ⟨_, c₁⟩ := out
      exact bind_ne_endless (apply_ne_endless s h.1 _ _) fun _ _ => by simp
    · exact entry_ne_endless entries h.2 key c

theorem fallback_ne_endless :
    ∀ o : Option Substitution, (∀ e ∈ Term.fallbackEscapes o, Consumes e.attempt) →
      ∀ key c, attemptFallback o key c ≠ .error .endless
  | none, _, key, c => by simp [attemptFallback]
  | some s, h, key, c => by
    simp only [attemptFallback]
    split
    · exact apply_ne_endless s h key c
    · exact bind_ne_endless (c.hop_ne_endless _) fun out _ => apply_ne_endless s h key out.2

theorem apply_ne_endless :
    ∀ s : Substitution, (∀ e ∈ Term.substEscapes s, Consumes e.attempt) →
      ∀ key c, s.apply key c ≠ .error .endless
  | .term t, h, key, c => bind_ne_endless (attempt_ne_endless t h c) fun _ _ => by simp
  | .itself, _, _, _ | .byte _, _, _, _ | .char _, _, _, _ | .text _, _, _, _ => by
    simp [Substitution.apply]

end

/-- An escape introduced by a lead scalar reads whenever it matches: it matches only after the
lead. -/
theorem escape_reads (lead : Char) (table : List (Char × Substitution))
    (fallback : Option Substitution) : Consumes (Term.escape lead table fallback).attempt := by
  intro c a h hm
  simp only [Term.attempt] at h
  obtain ⟨⟨ok, c₁⟩, hh, h⟩ := bind_eq_ok.1 h
  dsimp only at h
  split at h
  · simp only [pure_eq_ok] at h
    simp [← h] at hm
  have hok : ok = true := by simpa using ‹¬(!ok) = true›
  subst hok
  have h₁ := hop_rest_lt hh
  split at h
  · simp only [pure_eq_ok] at h
    simp [← h] at hm
  · next key c₂ hp =>
    have f₂ : Forward c₁ c₂ := by
      have : c₂ = c₁.peek.2 := by rw [hp]
      exact this ▸ readClosed_forward.peek c₁
    obtain ⟨x, hx, h⟩ := bind_eq_ok.1 h
    have f₃ : Forward c₂ a.cursor := by
      cases x with
      | some a₃ =>
        simp only [pure_eq_ok] at h
        subst h
        exact entry_reaches readClosed_forward table key c₂ _ hx a₃ rfl
      | none => exact fallback_reaches readClosed_forward fallback key c₂ a h
    have := (f₂.trans f₃).length_le
    omega

/-- A quoted literal whose escape matches without moving right after the opening quote never
ends. -/
theorem quoted_endless_of_escape_stalls {quote content : CharClass} {e : Term} {c c₁ : Cursor}
    {q : Char} {a : Attempt} (hq : c.fetch quote.contains = .ok (some q, c₁))
    (he : e.attempt c₁ = .ok a) (hm : a.outcome = .matched) (hstall : a.cursor.offset = c₁.offset) :
    (Term.quoted quote content (some e)).attempt c = .error .endless := by
  have hlen : ¬ a.cursor.rest.length < c₁.rest.length := by
    rw [(attempt_forward he).rest_eq, hstall, Nat.sub_self, List.drop_zero]
    exact Nat.lt_irrefl _
  have hround : quotedRound q content.contains (attemptEscapeStep (some e)) c₁ = .error .endless :=
    quotedRound_endless.2 (.inr ⟨a, he, hm, hlen⟩)
  simp only [Term.attempt, hq, bind, Except.bind]
  rw [readQuotedBody]
  simp [hround, bind, Except.bind]

theorem tryBindings_ne_endless {κ : Type} {bindings : List (Binding κ)}
    (hb : ∀ b ∈ bindings, ∀ e ∈ b.term.escapes, Consumes e.attempt) (start : Nat) (c : Cursor) :
    tryBindings start bindings c ≠ .error .endless := by
  induction bindings generalizing c with
  | nil => simp [tryBindings]
  | cons b bs ih =>
    simp only [List.mem_cons, forall_eq_or_imp] at hb
    simp only [tryBindings]
    refine bind_ne_endless (attempt_ne_endless b.term hb.1 c) fun a _ => ?_
    split
    · split
      · exact ih hb.2 _
      · simp
    · exact ih hb.2 _
    · simp

theorem scanTokens_ne_endless {κ : Type} {bindings : List (Binding κ)}
    (hb : ∀ b ∈ bindings, ∀ e ∈ b.term.escapes, Consumes e.attempt) (c : Cursor) :
    scanTokens bindings c ≠ .error .endless := by
  induction c using scanTokens.induct with
  | case1 c hd =>
    rw [scanTokens, if_pos hd]
    simp
  | case2 c hd ih =>
    rw [scanTokens, if_neg hd]
    refine bind_ne_endless (tryBindings_ne_endless hb _ _) fun v _ => ?_
    cases v with
    | token key w c' =>
      dsimp only
      split
      · next hlt => exact bind_ne_endless (ih c' hlt) fun _ _ => by simp
      · simp
    | noMatch c' => simp
    | failed e c' => simp

/-- A term whose quoted literals' escapes read whenever they match always ends, and so does a scan
with such terms. -/
theorem runs_end_when_escapes_read {κ : Type} {t : Term} {bindings : List (Binding κ)}
    (ht : ∀ e ∈ t.escapes, Consumes e.attempt)
    (hb : ∀ b ∈ bindings, ∀ e ∈ b.term.escapes, Consumes e.attempt)
    (c : Cursor) (bytes : List UInt8) (policy : Utf8Policy) (origin : Position) :
    t.attempt c ≠ .error .endless ∧ tokenize bindings bytes policy origin ≠ .error .endless :=
  ⟨attempt_ne_endless t ht c, scanTokens_ne_endless hb _⟩

/-- A string literal with a backslash escape ends, alone and in a scan. -/
theorem backslash_escape_ends :
    (∀ e ∈ (Term.quoted (.oneOf ['"']) .univ (some (.escape '\\' [] (some .itself)))).escapes,
        Consumes e.attempt) ∧
      (∀ b ∈ [(⟨0, Term.quoted (.oneOf ['"']) .univ (some (.escape '\\' [] (some .itself))),
          "string"⟩ : Binding Nat)], ∀ e ∈ b.term.escapes, Consumes e.attempt) ∧
      (Term.quoted (.oneOf ['"']) .univ (some (.escape '\\' [] (some .itself)))).attempt
          (Cursor.init [0x22, 0x5C, 0x22, 0x22] .lenient Position.start) ≠ .error .endless ∧
      tokenize [⟨0, Term.quoted (.oneOf ['"']) .univ (some (.escape '\\' [] (some .itself))),
          "string"⟩] [0x22, 0x5C, 0x22, 0x22] .lenient Position.start ≠ .error .endless := by
  have ht : ∀ e ∈ (Term.quoted (.oneOf ['"']) .univ
      (some (.escape '\\' [] (some .itself)))).escapes, Consumes e.attempt := by
    intro e he
    simp only [Term.escapes, Term.escapeEscapes, Term.entryEscapes, Term.fallbackEscapes,
      Term.substEscapes, List.append_nil, List.mem_singleton] at he
    subst he
    exact escape_reads _ _ _
  have hb : ∀ b ∈ [(⟨0, Term.quoted (.oneOf ['"']) .univ
      (some (.escape '\\' [] (some .itself))), "string"⟩ : Binding Nat)],
      ∀ e ∈ b.term.escapes, Consumes e.attempt := by
    simpa using ht
  exact ⟨ht, hb, runs_end_when_escapes_read ht hb _ [0x22, 0x5C, 0x22, 0x22] .lenient Position.start⟩

/-- With the empty literal as its escape, a string literal never ends. -/
theorem quoted_empty_escape_endless :
    (Term.quoted (.oneOf ['"']) .univ (some (.literal ""))).attempt
      (Cursor.init [0x22, 0x61, 0x22] .lenient Position.start) = .error .endless :=
  have hq : (Cursor.init [0x22, 0x61, 0x22] .lenient Position.start).fetch
      (CharClass.oneOf ['"']).contains = .ok (some '"', ⟨[0x61, 0x22], 1, ⟨0, 1⟩, .lenient, none⟩) := by
    rfl
  have he : (Term.literal "").attempt ⟨[0x61, 0x22], 1, ⟨0, 1⟩, .lenient, none⟩ =
      .ok (.matched ⟨[0x61, 0x22], 1, ⟨0, 1⟩, .lenient, none⟩ (.ofText "")) := by
    rfl
  quoted_endless_of_escape_stalls hq he rfl rfl

end Lexer
