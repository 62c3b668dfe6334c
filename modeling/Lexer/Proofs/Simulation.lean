import Lexer.Token
import Lexer.Proofs.Reach
/-! # Two runs that read alike

Two cursors that the basic reads cannot tell apart (`Simulation`) run every term alike and scan
the same tokens. A run can halt where the other does not, so `Sim E ρ x y` goes one way: where `x`
succeeds, `y` succeeds with a result `ρ` relates to it, or halts with an error `E` allows.
-/

namespace Lexer

open Cursor

/-- Wherever `x` succeeds, `y` succeeds too, with a result that `ρ` relates to the result of `x`,
or stops with an error that `E` allows. -/
def Sim {ε α β : Type} (E : ε → Prop) (ρ : α → β → Prop) (x : Except ε α) (y : Except ε β) :
    Prop :=
  ∀ a, x = .ok a → (∃ b, y = .ok b ∧ ρ a b) ∨ ∃ e, E e ∧ y = .error e

namespace Sim

variable {ε α β γ δ : Type} {E : ε → Prop} {ρ : α → β → Prop} {σ : γ → δ → Prop}

theorem pure {a : α} {b : β} (h : ρ a b) : Sim E ρ (Pure.pure a : Except ε α) (Pure.pure b) := by
  intro a' ha'
  simp only [pure_eq_ok] at ha'
  exact .inl ⟨b, rfl, ha' ▸ h⟩

theorem throw {e : ε} {y : Except ε β} : Sim E ρ (MonadExcept.throw e : Except ε α) y := by
  intro a ha
  cases ha

theorem bind {x : Except ε α} {y : Except ε β} {f : α → Except ε γ} {g : β → Except ε δ}
    (hx : Sim E ρ x y) (hf : ∀ a b, ρ a b → Sim E σ (f a) (g b)) :
    Sim E σ (x >>= f) (y >>= g) := by
  intro r hr
  obtain ⟨a, ha, hr⟩ := bind_eq_ok.1 hr
  rcases hx a ha with ⟨b, hb, hab⟩ | ⟨e, he, hy⟩
  · rcases hf a b hab r hr with ⟨r', hr', hσ⟩ | ⟨e, he, hg⟩
    · exact .inl ⟨r', bind_eq_ok.2 ⟨b, hb, hr'⟩, hσ⟩
    · exact .inr ⟨e, he, by rw [hb]; exact hg⟩
  · exact .inr ⟨e, he, by rw [hy]; rfl⟩

theorem ok {x : Except ε α} {y : Except ε β} {a : α} (hs : Sim (fun _ => False) ρ x y)
    (hx : x = .ok a) : ∃ b, y = .ok b ∧ ρ a b := by
  rcases hs a hx with hy | ⟨e, he, -⟩
  · exact hy
  · exact he.elim

end Sim

/-- Two answers of a read: the same value, at cursors that `S` relates. -/
structure Agree {α : Type} (S : Cursor → Cursor → Prop) (p q : α × Cursor) : Prop where
  fst_eq : p.1 = q.1
  snd : S p.2 q.2

theorem Agree.exists {α : Type} {S : Cursor → Cursor → Prop} {p q : α × Cursor}
    (h : Agree S p q) : ∃ d, q = (p.1, d) ∧ S p.2 d :=
  ⟨q.2, by rw [h.fst_eq], h.snd⟩

/-- Two runs that agree on a read go on alike where the continuations do, at the value read and
any two cursors that `S` relates. -/
theorem Sim.bind_read {ε α γ δ : Type} {E : ε → Prop} {S : Cursor → Cursor → Prop}
    {σ : γ → δ → Prop} {x y : Except ε (α × Cursor)} {f : α × Cursor → Except ε γ}
    {g : α × Cursor → Except ε δ} (hx : Sim E (Agree S) x y)
    (hf : ∀ v c d, S c d → Sim E σ (f (v, c)) (g (v, d))) : Sim E σ (x >>= f) (y >>= g) := by
  refine hx.bind fun p q hpq => ?_
  obtain ⟨d, rfl, h⟩ := hpq.exists
  exact hf p.1 p.2 d h

/-- Two attempts with the same outcome and the same writing, at cursors that `S` relates. -/
structure Attempt.Agree (S : Cursor → Cursor → Prop) (a b : Attempt) : Prop where
  outcome_eq : a.outcome = b.outcome
  written_eq : a.written = b.written
  cursor : S a.cursor b.cursor

namespace Attempt.Agree

variable {S : Cursor → Cursor → Prop} {a b : Attempt} {c d : Cursor}

theorem «exists» (h : a.Agree S b) : ∃ d, b = ⟨a.outcome, d, a.written⟩ ∧ S a.cursor d :=
  ⟨b.cursor, by rw [h.outcome_eq, h.written_eq], h.cursor⟩

theorem matched (h : S c d) (w : Capture) : (Attempt.matched c w).Agree S (.matched d w) :=
  ⟨rfl, rfl, h⟩

theorem failed (h : S c d) (f : Failure) (w : Capture) :
    (Attempt.failed f c w).Agree S (.failed f d w) :=
  ⟨rfl, rfl, h⟩

theorem after (h : a.Agree S b) (w : Capture) : (a.after w).Agree S (b.after w) :=
  ⟨h.outcome_eq, by simp [h.written_eq], h.cursor⟩

theorem silent (h : a.Agree S b) : a.silent.Agree S b.silent :=
  ⟨h.outcome_eq, rfl, h.cursor⟩

theorem mapFailure (h : a.Agree S b) (g : Failure → Failure) :
    (a.mapFailure g).Agree S (b.mapFailure g) :=
  ⟨by simp [h.outcome_eq], h.written_eq, h.cursor⟩

theorem writeByte (h : S c d) (v : Nat) : (writeByte c v).Agree S (writeByte d v) := by
  unfold Lexer.writeByte
  split <;> exact ⟨rfl, rfl, h⟩

theorem writeScalar (h : S c d) (v : Nat) : (writeScalar c v).Agree S (writeScalar d v) := by
  unfold Lexer.writeScalar
  split <;> exact ⟨rfl, rfl, h⟩

theorem unpairedSurrogate (h : S c d) (p : UnpairedPolicy) :
    (unpairedSurrogate c p).Agree S (unpairedSurrogate d p) := by
  cases p <;> exact ⟨rfl, rfl, h⟩

end Attempt.Agree

/-- Two runs that agree on an attempt go on alike where the continuations do, at its outcome and
writing and any two cursors that `S` relates. -/
theorem Sim.bind_attempt {ε γ δ : Type} {E : ε → Prop} {S : Cursor → Cursor → Prop}
    {σ : γ → δ → Prop} {x y : Except ε Attempt} {f : Attempt → Except ε γ}
    {g : Attempt → Except ε δ} (hx : Sim E (Attempt.Agree S) x y)
    (hf : ∀ o c d w, S c d → Sim E σ (f ⟨o, c, w⟩) (g ⟨o, d, w⟩)) :
    Sim E σ (x >>= f) (y >>= g) := by
  refine hx.bind fun a b hab => ?_
  obtain ⟨d, rfl, h⟩ := hab.exists
  exact hf a.outcome a.cursor d a.written h

inductive Round.Agree (S : Cursor → Cursor → Prop) : Round → Round → Prop
  | finished {a b : Attempt} : a.Agree S b → Round.Agree S (.finished a) (.finished b)
  | again {c d : Cursor} {w : Capture} : S c d → Round.Agree S (.again c w) (.again d w)

inductive Verdict.Agree {κ : Type} (S : Cursor → Cursor → Prop) : Verdict κ → Verdict κ → Prop
  | token {key : κ} {w : Capture} {c d : Cursor} : S c d →
      Verdict.Agree S (.token key w c) (.token key w d)
  | noMatch {c d : Cursor} : S c d → Verdict.Agree S (.noMatch c) (.noMatch d)
  | failed {e : ScanError} {c d : Cursor} : S c d → Verdict.Agree S (.failed e c) (.failed e d)

def Token.relocate {κ : Type} (φ : Position → Position) (t : Token κ) : Token κ :=
  { t with position := φ t.position }

def LocatedError.relocate (φ : Position → Position) (e : LocatedError) : LocatedError :=
  { e with position := φ e.position }

def Utf8Fault.relocate (φ : Position → Position) (f : Utf8Fault) : Utf8Fault :=
  { f with position := φ f.position }

/-- The tokens and the error of a scan, every position moved by `φ`. -/
def relocateScan {κ : Type} (φ : Position → Position) (r : List (Token κ) × Option LocatedError) :
    List (Token κ) × Option LocatedError :=
  (r.1.map (Token.relocate φ), r.2.map (LocatedError.relocate φ))

@[simp] theorem Token.relocate_id {κ : Type} : Token.relocate (κ := κ) id = id := rfl

@[simp] theorem LocatedError.relocate_id : LocatedError.relocate id = id := rfl

@[simp] theorem relocateScan_id {κ : Type} (r : List (Token κ) × Option LocatedError) :
    relocateScan id r = r := by
  simp [relocateScan]

/-- Where the faults of two cursors agree once moved, so do the errors a scan reports there. -/
theorem locateError_relocate {ψ φ : Position → Position} {c d : Cursor}
    (hf : c.fault.map (Utf8Fault.relocate ψ) = d.fault.map (Utf8Fault.relocate φ)) (e : ScanError)
    {p q : Position} (hp : ψ p = φ q) :
    (locateError c e p).relocate ψ = (locateError d e q).relocate φ := by
  unfold locateError
  cases hc : c.fault <;> cases hd : d.fault <;> simp_all [LocatedError.relocate, Utf8Fault.relocate]

/-- A relation between the cursors of two runs that the four basic reads cannot tell apart:
related cursors hold the same bytes at the same offset, `scan` reads the same at both, and a
`consume`, `leap` or `leapFetch` that succeeds at the first succeeds at the second with the same
answer, again at related cursors, or halts as `E` allows. -/
structure Simulation (E : Halt → Prop) (S : Cursor → Cursor → Prop) : Prop where
  rest_eq : ∀ {c d}, S c d → c.rest = d.rest
  offset_eq : ∀ {c d}, S c d → c.offset = d.offset
  scan : ∀ {c d}, S c d → Agree S c.scan d.scan
  consume : ∀ {c d ch w}, c.scan = (some (ch, w), c) → S c d →
    Sim E S (c.consume ch w) (d.consume ch w)
  leap : ∀ {c d s}, S c d → Sim E (Agree S) (c.leap s) (d.leap s)
  leapFetch : ∀ {c d s p}, S c d → Sim E (Agree S) (c.leapFetch s p) (d.leapFetch s p)

/-- Two steps of a loop that run alike from cursors that `S` relates. -/
def StepAlike (E : Halt → Prop) (S : Cursor → Cursor → Prop) (step : Step) : Prop :=
  ∀ {c d}, S c d → Sim E (Attempt.Agree S) (step c) (step d)

namespace Simulation

variable {E : Halt → Prop} {S : Cursor → Cursor → Prop} (sim : Simulation E S) {c d : Cursor}
include sim

/-! ## Reads built from the basic ones -/

theorem done (h : S c d) : c.done = d.done := by
  simp only [Cursor.done, sim.rest_eq h]

theorem peek (h : S c d) : Agree S c.peek d.peek :=
  ⟨by simp [Cursor.peek, (sim.scan h).fst_eq], (sim.scan h).snd⟩

theorem hop {ch : Char} (h : S c d) : Sim E (Agree S) (c.hop ch) (d.hop ch) := by
  obtain ⟨d₁, hd, h₁⟩ := (sim.scan h).exists
  unfold Cursor.hop
  rw [hd]
  rcases hc : c.scan with ⟨_ | ⟨got, w⟩, c₁⟩
  · simp only [hc] at h₁
    exact Sim.pure ⟨rfl, h₁⟩
  · simp only [hc] at h₁
    obtain ⟨rfl, -⟩ := scan_eq_some hc
    dsimp only
    split
    · exact (sim.consume hc h₁).bind fun _ _ h₂ => Sim.pure ⟨rfl, h₂⟩
    · exact Sim.pure ⟨rfl, h₁⟩

theorem fetch {p : Char → Bool} (h : S c d) : Sim E (Agree S) (c.fetch p) (d.fetch p) := by
  obtain ⟨d₁, hd, h₁⟩ := (sim.scan h).exists
  unfold Cursor.fetch
  rw [hd]
  rcases hc : c.scan with ⟨_ | ⟨ch, w⟩, c₁⟩
  · simp only [hc] at h₁
    exact Sim.pure ⟨rfl, h₁⟩
  · simp only [hc] at h₁
    obtain ⟨rfl, -⟩ := scan_eq_some hc
    dsimp only
    split
    · exact (sim.consume hc h₁).bind fun _ _ h₂ => Sim.pure ⟨rfl, h₂⟩
    · exact Sim.pure ⟨rfl, h₁⟩

theorem fetchAny (h : S c d) : Sim E (Agree S) c.fetchAny d.fetchAny := sim.fetch h

theorem skipRun {p : Char → Bool} (h : S c d) : Sim E (Agree S) (c.skipRun p) (d.skipRun p) := by
  induction c using Cursor.skipRun.induct p generalizing d with
  | case1 c ch w c₁ hc hp ih =>
    obtain ⟨d₁, hd, h₁⟩ := (sim.scan h).exists
    rw [Cursor.skipRun, Cursor.skipRun, hd, hc]
    simp only [hc] at h₁
    obtain ⟨rfl, -⟩ := scan_eq_some hc
    simp only [hp, if_true]
    refine (sim.consume hc h₁).bind fun c₂ d₂ h₂ => ?_
    rw [← sim.rest_eq h₂, ← sim.rest_eq h]
    split
    · next hlt =>
      exact (ih c₂ hlt h₂).bind fun _ _ h₃ => Sim.pure ⟨by simp [h₃.fst_eq], h₃.snd⟩
    · exact Sim.pure ⟨rfl, h₂⟩
  | case2 c ch w c₁ hc hp =>
    obtain ⟨d₁, hd, h₁⟩ := (sim.scan h).exists
    rw [Cursor.skipRun, Cursor.skipRun, hd, hc]
    simp only [hc] at h₁
    simp only [hp, Bool.false_eq_true, if_false]
    exact Sim.pure ⟨rfl, h₁⟩
  | case3 c c₁ hc =>
    obtain ⟨d₁, hd, h₁⟩ := (sim.scan h).exists
    rw [Cursor.skipRun, Cursor.skipRun, hd, hc]
    simp only [hc] at h₁
    exact Sim.pure ⟨rfl, h₁⟩

/-! ## Digits and numerals -/

theorem accumulatorScan {a : Accumulator} {limit : Option Nat} (h : S c d) :
    Sim E (Agree S) (a.scan c limit) (a.scan d limit) := by
  induction a, c using Accumulator.scan.induct limit generalizing d with
  | case1 a c hlim ih =>
    rw [Accumulator.scan, Accumulator.scan, if_pos hlim, if_pos hlim]
    refine (sim.fetch h).bind_read fun r c₁ d₁ h₁ => ?_
    cases r with
    | none => exact Sim.pure ⟨rfl, h₁⟩
    | some ch =>
      dsimp only
      rw [← sim.rest_eq h₁, ← sim.rest_eq h]
      split
      · next hlt =>
        exact (ih ch c₁ hlt h₁).bind fun _ _ h₂ => Sim.pure ⟨by simp [h₂.fst_eq], h₂.snd⟩
      · exact Sim.pure ⟨rfl, h₁⟩
  | case2 a c hlim =>
    rw [Accumulator.scan, Accumulator.scan, if_neg hlim, if_neg hlim]
    exact Sim.pure ⟨rfl, h⟩

theorem extractHex {limit : Option Nat} (h : S c d) :
    Sim E (Agree S) (extractHex c limit) (extractHex d limit) :=
  (sim.accumulatorScan h).bind fun _ _ h₁ => Sim.pure ⟨by simp [h₁.fst_eq], h₁.snd⟩

theorem extractOctal {limit : Option Nat} (h : S c d) :
    Sim E (Agree S) (extractOctal c limit) (extractOctal d limit) :=
  (sim.accumulatorScan h).bind fun _ _ h₁ => Sim.pure ⟨by simp [h₁.fst_eq], h₁.snd⟩

theorem readLeadDigit {lead : String} {r : Radix} {ceiling : Nat} (h : S c d) :
    Sim E (Agree S) (readLeadDigit c lead r ceiling) (readLeadDigit d lead r ceiling) := by
  refine (sim.leapFetch h).bind_read fun x c₁ d₁ h₁ => ?_
  cases x <;> exact Sim.pure ⟨rfl, h₁⟩

theorem readUnsigned {lead : String} {r : Radix} {w : Width} (h : S c d) :
    Sim E (Attempt.Agree S) (readUnsigned c lead r w) (readUnsigned d lead r w) := by
  refine (sim.readLeadDigit h).bind_read fun x c₁ d₁ h₁ => ?_
  rcases x with _ | ⟨first, a⟩
  · exact Sim.pure (.failed h₁ _ _)
  · refine (sim.accumulatorScan h₁).bind_read fun v c₂ d₂ h₂ => ?_
    obtain ⟨a₂, more⟩ := v
    dsimp only
    split
    · exact Sim.pure (.failed h₂ _ _)
    · exact Sim.pure (.matched h₂ _)

theorem readFixedHex {lead : String} {w : Width} (h : S c d) :
    Sim E (Attempt.Agree S) (readFixedHex c lead w) (readFixedHex d lead w) := by
  refine (sim.readLeadDigit h).bind_read fun x c₁ d₁ h₁ => ?_
  rcases x with _ | ⟨first, a⟩
  · exact Sim.pure (.failed h₁ _ _)
  · refine (sim.accumulatorScan h₁).bind_read fun v c₂ d₂ h₂ => ?_
    obtain ⟨a₂, more⟩ := v
    dsimp only
    split
    · exact Sim.pure (.failed h₂ _ _)
    · exact Sim.pure (.matched h₂ _)

/-! ## Escape decoders -/

theorem readHexByteRun (h : S c d) :
    Sim E (Attempt.Agree S) (readHexByteRun c) (readHexByteRun d) := by
  refine (sim.extractHex h).bind_read fun acc c₁ d₁ h₁ => ?_
  dsimp only
  split
  · exact Sim.pure (.failed h₁ _ _)
  split
  · exact Sim.pure (.failed h₁ _ _)
  · exact Sim.pure (.writeByte h₁ _)

theorem readHexByte (h : S c d) : Sim E (Attempt.Agree S) (readHexByte c) (readHexByte d) := by
  refine (sim.extractHex h).bind_read fun acc c₁ d₁ h₁ => ?_
  dsimp only
  split
  · exact Sim.pure (.failed h₁ _ _)
  split
  · exact Sim.pure (.failed h₁ _ _)
  · exact Sim.pure (.writeByte h₁ _)

theorem readHexScalar4 (h : S c d) :
    Sim E (Attempt.Agree S) (readHexScalar4 c) (readHexScalar4 d) := by
  refine (sim.extractHex h).bind_read fun acc c₁ d₁ h₁ => ?_
  dsimp only
  split
  · exact Sim.pure (.failed h₁ _ _)
  split
  · exact Sim.pure (.writeScalar h₁ _)
  · exact Sim.pure (.failed h₁ _ _)

theorem readHexScalar8 (h : S c d) :
    Sim E (Attempt.Agree S) (readHexScalar8 c) (readHexScalar8 d) := by
  refine (sim.extractHex h).bind_read fun acc c₁ d₁ h₁ => ?_
  dsimp only
  split
  · exact Sim.pure (.failed h₁ _ _)
  split
  · exact Sim.pure (.writeScalar h₁ _)
  · exact Sim.pure (.failed h₁ _ _)

theorem readOctalByte (h : S c d) :
    Sim E (Attempt.Agree S) (readOctalByte c) (readOctalByte d) := by
  refine (sim.extractOctal h).bind_read fun acc c₁ d₁ h₁ => ?_
  dsimp only
  split
  · exact Sim.pure (.failed h₁ _ _)
  · exact Sim.pure (.writeByte h₁ _)

theorem readUnit {committed : Bool} (h : S c d) :
    Sim E (Agree S) (readUnit c committed) (readUnit d committed) := by
  refine (sim.extractHex h).bind_read fun acc c₁ d₁ h₁ => ?_
  dsimp only
  split
  · exact Sim.pure ⟨rfl, h₁⟩
  split
  · exact Sim.pure ⟨rfl, h₁⟩
  · exact Sim.pure ⟨rfl, h₁⟩

theorem readSurrogatePair {first second : String} {p : UnpairedPolicy} (h : S c d) :
    Sim E (Attempt.Agree S) (readSurrogatePair c first second p)
      (readSurrogatePair d first second p) := by
  refine (sim.leap h).bind_read fun ok c₁ d₁ h₁ => ?_
  dsimp only
  split
  · exact Sim.pure (.failed h₁ _ _)
  refine (sim.readUnit h₁).bind_read fun u c₂ d₂ h₂ => ?_
  rcases u with why | high
  · exact Sim.pure (.failed h₂ _ _)
  dsimp only
  split
  · exact Sim.pure (.unpairedSurrogate h₂ _)
  split
  · exact Sim.pure (.writeScalar h₂ _)
  refine (sim.leap h₂).bind_read fun ok c₃ d₃ h₃ => ?_
  dsimp only
  split
  · exact Sim.pure (.unpairedSurrogate h₃ _)
  refine (sim.readUnit h₃).bind_read fun v c₄ d₄ h₄ => ?_
  rcases v with why | low
  · exact Sim.pure (.failed h₄ _ _)
  dsimp only
  split
  · exact Sim.pure (.writeScalar h₄ _)
  cases p with
  | reject => exact Sim.pure (.failed h₄ _ _)
  | replace =>
    refine Sim.pure (Attempt.Agree.after ?_ _)
    split
    · exact .unpairedSurrogate h₄ _
    · exact .writeScalar h₄ _

/-! ## Loops -/

theorem repeatStep {step : Step} (hstep : StepAlike E S step) (h : S c d) :
    Sim E (Attempt.Agree S) (repeatStep step c) (repeatStep step d) := by
  induction c using Lexer.repeatStep.induct generalizing d with
  | _ c ih =>
    rw [Lexer.repeatStep, Lexer.repeatStep]
    refine (hstep h).bind_attempt fun o c₁ d₁ w h₁ => ?_
    dsimp only
    rw [← sim.rest_eq h₁, ← sim.rest_eq h]
    split
    · split
      · next hlt => exact (ih ⟨.matched, c₁, w⟩ hlt h₁).bind fun _ _ h₂ => Sim.pure (h₂.after _)
      · exact Sim.pure (.matched h₁ _)
    · exact Sim.pure (.matched h₁ _)
    · exact Sim.pure ⟨rfl, rfl, h₁⟩

theorem readToLineEnd (h : S c d) :
    Sim E (Attempt.Agree S) (readToLineEnd c) (readToLineEnd d) := by
  induction c using Lexer.readToLineEnd.induct generalizing d with
  | case1 c hd =>
    rw [Lexer.readToLineEnd, Lexer.readToLineEnd, if_pos hd, if_pos (by rwa [← sim.done h])]
    exact Sim.pure (.matched h _)
  | case2 c hd ih =>
    rw [Lexer.readToLineEnd, Lexer.readToLineEnd, if_neg hd, if_neg (by rwa [← sim.done h])]
    refine (sim.hop h).bind_read fun fed c₁ d₁ h₁ => ?_
    dsimp only
    split
    · exact Sim.pure (.matched h₁ _)
    refine (sim.leap h₁).bind_read fun fed₂ c₂ d₂ h₂ => ?_
    dsimp only
    split
    · exact Sim.pure (.matched h₂ _)
    refine (sim.fetchAny h₂).bind_read fun r c₃ d₃ h₃ => ?_
    cases r with
    | none => exact Sim.pure (.failed h₃ _ _)
    | some ch =>
      dsimp only
      rw [← sim.rest_eq h₃, ← sim.rest_eq h]
      split
      · next hlt => exact (ih c₃ hlt h₃).bind fun _ _ h₄ => Sim.pure (h₄.after _)
      · exact Sim.pure (.matched h₃ _)

theorem readToStop {stop : Step} (hstop : StepAlike E S stop) (h : S c d) :
    Sim E (Attempt.Agree S) (readToStop stop c) (readToStop stop d) := by
  induction c using Lexer.readToStop.induct generalizing d with
  | _ c ih =>
    rw [Lexer.readToStop, Lexer.readToStop]
    refine (hstop h).bind_attempt fun o c₁ d₁ w h₁ => ?_
    dsimp only
    split
    · exact Sim.pure (.matched h₁ _)
    · refine (sim.fetchAny h₁).bind_read fun r c₃ d₃ h₃ => ?_
      cases r with
      | none => exact Sim.pure (.failed h₃ _ _)
      | some ch =>
        dsimp only
        rw [← sim.rest_eq h₃, ← sim.rest_eq h]
        split
        · next hlt => exact (ih c₃ hlt h₃).bind fun _ _ h₄ => Sim.pure (h₄.after _)
        · exact Sim.pure (.matched h₃ _)
    · exact Sim.pure (.failed h₁ _ _)

theorem closeOrContent {q : Char} {p : Char → Bool} {w : Capture} (h : S c d) :
    Sim E (Round.Agree S) (closeOrContent q p c w) (closeOrContent q p d w) := by
  unfold Lexer.closeOrContent
  refine (sim.hop h).bind_read fun closed c₂ d₂ h₂ => ?_
  dsimp only
  split
  · exact Sim.pure (.finished (.matched h₂ _))
  refine (sim.fetch h₂).bind_read fun x c₃ d₃ h₃ => ?_
  cases x with
  | none => exact Sim.pure (.finished (.failed h₃ _ _))
  | some ch => exact Sim.pure (.again h₃)

theorem quotedRound {q : Char} {p : Char → Bool} {escape : Step} (hesc : StepAlike E S escape)
    (h : S c d) : Sim E (Round.Agree S) (quotedRound q p escape c) (quotedRound q p escape d) := by
  unfold Lexer.quotedRound
  refine (hesc h).bind_attempt fun o c₁ d₁ w h₁ => ?_
  dsimp only
  split
  · rw [← sim.rest_eq h₁, ← sim.rest_eq h]
    split
    · exact Sim.pure (.again h₁)
    · exact Sim.throw
  · exact sim.closeOrContent h₁
  · exact Sim.pure (.finished ⟨rfl, rfl, h₁⟩)

theorem readQuotedBody {q : Char} {p : Char → Bool} {escape : Step}
    (hesc : StepAlike E S escape) (h : S c d) :
    Sim E (Attempt.Agree S) (readQuotedBody q p escape c) (readQuotedBody q p escape d) := by
  induction c using Lexer.readQuotedBody.induct generalizing d with
  | _ c ih =>
    rw [Lexer.readQuotedBody, Lexer.readQuotedBody]
    refine (sim.quotedRound hesc h).bind ?_
    intro r r' hr
    cases hr with
    | finished ha => exact Sim.pure ha
    | again h₁ =>
      dsimp only
      rw [← sim.rest_eq h₁, ← sim.rest_eq h]
      split
      · next hlt => exact (ih _ hlt h₁).bind fun _ _ h₂ => Sim.pure (h₂.after _)
      · exact Sim.pure (.matched h₁ _)

theorem leapFirst {alts : List String} (h : S c d) :
    Sim E (Attempt.Agree S) (leapFirst c alts) (leapFirst d alts) := by
  induction alts with
  | nil =>
    simp only [Lexer.leapFirst]
    exact Sim.pure (.failed h _ _)
  | cons alt alts ih =>
    rw [Lexer.leapFirst, Lexer.leapFirst]
    refine (sim.leap h).bind_read fun ok c₁ d₁ h₁ => ?_
    dsimp only
    split
    · exact Sim.pure (.matched h₁ _)
    · exact ih

theorem readAnyLiteral {alts : List String} (h : S c d) :
    Sim E (Attempt.Agree S) (readAnyLiteral c alts) (readAnyLiteral d alts) := by
  obtain ⟨d₁, hd, h₁⟩ := (sim.peek h).exists
  unfold Lexer.readAnyLiteral
  rw [hd]
  rcases hc : c.peek with ⟨_ | first, c₁⟩
  · simp only [hc] at h₁
    exact Sim.pure (.failed h₁ _ _)
  · simp only [hc] at h₁
    exact sim.leapFirst h₁

/-! ## Terms -/

set_option linter.unusedSectionVars false in
mutual

/-- Every term runs alike from cursors that `S` relates. -/
theorem attempt : ∀ (t : Term) {c d : Cursor}, S c d →
    Sim E (Attempt.Agree S) (t.attempt c) (t.attempt d)
  | .literal s, c, d, h => by
    simp only [Term.attempt]
    refine (sim.leap h).bind_read fun ok c₁ d₁ h₁ => ?_
    cases ok
    · exact Sim.pure (.failed h₁ _ _)
    · exact Sim.pure (.matched h₁ _)
  | .scalar ch, c, d, h => by
    simp only [Term.attempt]
    refine (sim.hop h).bind_read fun ok c₁ d₁ h₁ => ?_
    cases ok
    · exact Sim.pure (.failed h₁ _ _)
    · exact Sim.pure (.matched h₁ _)
  | .scalarIn k, c, d, h => by
    simp only [Term.attempt]
    refine (sim.fetch h).bind_read fun r c₁ d₁ h₁ => ?_
    cases r with
    | none => exact Sim.pure (.failed h₁ _ _)
    | some ch => exact Sim.pure (.matched h₁ _)
  | .word first more, c, d, h => by
    simp only [Term.attempt]
    refine (sim.fetch h).bind_read fun r c₁ d₁ h₁ => ?_
    cases r with
    | none => exact Sim.pure (.failed h₁ _ _)
    | some ch =>
      dsimp only
      refine (sim.skipRun h₁).bind_read fun v c₂ d₂ h₂ => ?_
      obtain ⟨run, stop⟩ := v
      exact Sim.pure (.matched h₂ _)
  | .endOfInput, c, d, h => by
    simp only [Term.attempt, sim.done h]
    split
    · exact Sim.pure (.matched h _)
    · exact Sim.pure (.failed h _ _)
  | .endOfLine, c, d, h => by
    simp only [Term.attempt]
    refine (sim.hop h).bind_read fun fed c₁ d₁ h₁ => ?_
    dsimp only
    split
    · exact Sim.pure (.matched h₁ _)
    refine (sim.leap h₁).bind_read fun fed₂ c₂ d₂ h₂ => ?_
    dsimp only
    split
    · exact Sim.pure (.matched h₂ _)
    rw [sim.done h₂]
    split
    · exact Sim.pure (.matched h₂ _)
    · exact Sim.pure (.failed h₂ _ _)
  | .seq parts, c, d, h => by
    simp only [Term.attempt]
    rw [sim.offset_eq h]
    exact seq d.offset parts h
  | .firstOf choices, c, d, h => by
    simp only [Term.attempt]
    exact first choices h
  | .optional t, c, d, h => by
    simp only [Term.attempt]
    refine (attempt t h).bind_attempt fun o c₁ d₁ w h₁ => ?_
    dsimp only
    split
    · exact Sim.pure (.matched h₁ _)
    · exact Sim.pure ⟨rfl, rfl, h₁⟩
  | .many t, c, d, h => by
    simp only [Term.attempt]
    exact sim.repeatStep (fun h' => attempt t h') h
  | .many1 t, c, d, h => by
    simp only [Term.attempt]
    refine (attempt t h).bind_attempt fun o c₁ d₁ w h₁ => ?_
    dsimp only
    split
    · exact (sim.repeatStep (fun h' => attempt t h') h₁).bind fun _ _ h₂ => Sim.pure (h₂.after _)
    · exact Sim.pure ⟨rfl, rfl, h₁⟩
  | .discard t, c, d, h => by
    simp only [Term.attempt]
    exact (attempt t h).bind fun _ _ h₁ => Sim.pure h₁.silent
  | .anyLiteral alts, c, d, h => by
    simp only [Term.attempt]
    exact sim.readAnyLiteral h
  | .between opener content closer, c, d, h => by
    simp only [Term.attempt]
    refine (attempt opener h).bind_attempt fun o c₁ d₁ w h₁ => ?_
    dsimp only
    split
    · exact Sim.pure (.failed h₁ _ _)
    refine (contentParts content h₁).bind_attempt fun o₂ c₂ d₂ w₂ h₂ => ?_
    dsimp only
    split
    · exact Sim.pure ⟨rfl, rfl, h₂⟩
    refine (attempt closer h₂).bind_attempt fun o₃ c₃ d₃ w₃ h₃ => ?_
    exact Sim.pure ⟨rfl, rfl, h₃⟩
  | .untilLineEnd opener, c, d, h => by
    simp only [Term.attempt]
    refine (attempt opener h).bind_attempt fun o c₁ d₁ w h₁ => ?_
    dsimp only
    split
    · exact Sim.pure (.failed h₁ _ _)
    · exact sim.readToLineEnd h₁
  | .untilStop opener stop, c, d, h => by
    simp only [Term.attempt]
    refine (attempt opener h).bind_attempt fun o c₁ d₁ w h₁ => ?_
    dsimp only
    split
    · exact Sim.pure (.failed h₁ _ _)
    · exact sim.readToStop (fun h' => attempt stop h') h₁
  | .quoted quote content escape, c, d, h => by
    simp only [Term.attempt]
    refine (sim.fetch h).bind_read fun r c₁ d₁ h₁ => ?_
    cases r with
    | none => exact Sim.pure (.failed h₁ _ _)
    | some q => exact sim.readQuotedBody (escapeStep escape) h₁
  | .unsigned lead r w, c, d, h => by
    simp only [Term.attempt]
    exact sim.readUnsigned h
  | .fixedHex lead w, c, d, h => by
    simp only [Term.attempt]
    exact sim.readFixedHex h
  | .escape lead table otherwise, c, d, h => by
    simp only [Term.attempt]
    refine (sim.hop h).bind_read fun ok c₁ d₁ h₁ => ?_
    dsimp only
    split
    · exact Sim.pure (.failed h₁ _ _)
    obtain ⟨d₂, hd, h₂⟩ := (sim.peek h₁).exists
    rw [hd]
    rcases hc : c₁.peek with ⟨_ | key, c₂⟩
    · simp only [hc] at h₂
      exact Sim.pure (.failed h₂ _ _)
    · simp only [hc] at h₂
      refine (entry table key h₂).bind ?_
      intro x y hxy
      cases hxy with
      | some ha => exact Sim.pure ha
      | none => exact fallback otherwise key h₂
  | .hexByteRun, c, d, h => by
    simp only [Term.attempt]
    exact sim.readHexByteRun h
  | .hexByte, c, d, h => by
    simp only [Term.attempt]
    exact sim.readHexByte h
  | .hexScalar4, c, d, h => by
    simp only [Term.attempt]
    exact sim.readHexScalar4 h
  | .hexScalar8, c, d, h => by
    simp only [Term.attempt]
    exact sim.readHexScalar8 h
  | .octalByte, c, d, h => by
    simp only [Term.attempt]
    exact sim.readOctalByte h
  | .surrogatePair first second p, c, d, h => by
    simp only [Term.attempt]
    exact sim.readSurrogatePair h

theorem seq : ∀ (start : Nat) (parts : List Term) {c d : Cursor}, S c d →
    Sim E (Attempt.Agree S) (attemptSeq start parts c) (attemptSeq start parts d)
  | _, [], c, d, h => by
    simp only [attemptSeq]
    exact Sim.pure (.matched h _)
  | start, t :: ts, c, d, h => by
    simp only [attemptSeq]
    refine (attempt t h).bind_attempt fun o c₁ d₁ w h₁ => ?_
    dsimp only
    rw [← sim.offset_eq h₁]
    split
    · exact (seq start ts h₁).bind fun _ _ h₂ => Sim.pure (h₂.after _)
    · exact Sim.pure (.failed h₁ _ _)
    · exact Sim.pure ⟨rfl, rfl, h₁⟩

theorem first : ∀ (choices : List Term) {c d : Cursor}, S c d →
    Sim E (Attempt.Agree S) (attemptFirst choices c) (attemptFirst choices d)
  | [], c, d, h => by
    simp only [attemptFirst]
    exact Sim.pure (.failed h _ _)
  | t :: ts, c, d, h => by
    simp only [attemptFirst]
    refine (attempt t h).bind_attempt fun o c₁ d₁ w h₁ => ?_
    dsimp only
    split
    · exact (first ts h₁).bind fun _ _ h₂ => Sim.pure (h₂.after _)
    · exact Sim.pure ⟨rfl, rfl, h₁⟩

theorem contentParts : ∀ (ts : List Term) {c d : Cursor}, S c d →
    Sim E (Attempt.Agree S) (attemptContent ts c) (attemptContent ts d)
  | [], c, d, h => by
    simp only [attemptContent]
    exact Sim.pure (.matched h _)
  | t :: ts, c, d, h => by
    simp only [attemptContent]
    refine (attempt t h).bind_attempt fun o c₁ d₁ w h₁ => ?_
    dsimp only
    split
    · exact (contentParts ts h₁).bind fun _ _ h₂ => Sim.pure (h₂.after _)
    · refine Sim.pure (Attempt.Agree.mapFailure ?_ _)
      exact ⟨rfl, rfl, h₁⟩

theorem escapeStep : ∀ (e : Option Term), StepAlike E S (attemptEscapeStep e)
  | none => fun h => by
    simp only [attemptEscapeStep, noEscape]
    exact Sim.pure (.failed h _ _)
  | some e => fun h => attempt e h

theorem entry : ∀ (table : List (Char × Substitution)) (key : Char) {c d : Cursor}, S c d →
    Sim E (Option.Rel (Attempt.Agree S)) (attemptEntry table key c) (attemptEntry table key d)
  | [], _, c, d, h => by
    simp only [attemptEntry]
    exact Sim.pure .none
  | (k, s) :: entries, key, c, d, h => by
    simp only [attemptEntry]
    split
    · refine (sim.hop h).bind_read fun ok c₁ d₁ h₁ => ?_
      exact (apply s key h₁).bind fun _ _ h₂ => Sim.pure (.some h₂)
    · exact entry entries key h

theorem fallback : ∀ (fallback : Option Substitution) (key : Char) {c d : Cursor}, S c d →
    Sim E (Attempt.Agree S) (attemptFallback fallback key c) (attemptFallback fallback key d)
  | none, _, c, d, h => by
    simp only [attemptFallback]
    exact Sim.pure (.failed h _ _)
  | some s, key, c, d, h => by
    simp only [attemptFallback]
    split
    · exact apply s key h
    · refine (sim.hop h).bind_read fun ok c₁ d₁ h₁ => ?_
      exact apply s key h₁

theorem apply : ∀ (s : Substitution) (key : Char) {c d : Cursor}, S c d →
    Sim E (Attempt.Agree S) (s.apply key c) (s.apply key d)
  | .term t, _, c, d, h => by
    simp only [Substitution.apply]
    exact (attempt t h).bind fun _ _ h₁ => Sim.pure (h₁.mapFailure _)
  | .itself, _, c, d, h | .byte _, _, c, d, h | .char _, _, c, d, h | .text _, _, c, d, h => by
    simp only [Substitution.apply]
    exact Sim.pure (.matched h _)

end

/-! ## Scans -/

theorem tryBindings {κ : Type} (start : Nat) : ∀ (bindings : List (Binding κ)) {c d : Cursor},
    S c d → Sim E (Verdict.Agree S) (tryBindings start bindings c) (tryBindings start bindings d)
  | [], c, d, h => by
    simp only [Lexer.tryBindings]
    exact Sim.pure (.noMatch h)
  | b :: bs, c, d, h => by
    simp only [Lexer.tryBindings]
    refine (sim.attempt b.term h).bind_attempt fun o c₁ d₁ w h₁ => ?_
    dsimp only
    rw [← sim.offset_eq h₁]
    split
    · split
      · exact tryBindings start bs h₁
      · exact Sim.pure (.token h₁)
    · exact tryBindings start bs h₁
    · exact Sim.pure (.failed h₁)

/-- A scan from cursors that `S` relates finds the same tokens and ends the same way, with
positions that agree once the first scan's are moved by `ψ` and the second's by `φ`, when the
positions and faults of related cursors agree so. -/
theorem scanTokens {κ : Type} {bindings : List (Binding κ)} {ψ φ : Position → Position}
    (hpos : ∀ {c d}, S c d → ψ c.position = φ d.position)
    (hfault : ∀ {c d}, S c d →
      c.fault.map (Utf8Fault.relocate ψ) = d.fault.map (Utf8Fault.relocate φ))
    (h : S c d) :
    Sim E (fun r r' => relocateScan ψ r = relocateScan φ r') (scanTokens bindings c)
      (scanTokens bindings d) := by
  induction c using Lexer.scanTokens.induct generalizing d with
  | case1 c hd =>
    rw [Lexer.scanTokens, Lexer.scanTokens, if_pos hd, if_pos (by rwa [← sim.done h])]
    exact Sim.pure rfl
  | case2 c hd ih =>
    rw [Lexer.scanTokens, Lexer.scanTokens, if_neg hd, if_neg (by rwa [← sim.done h]),
      sim.offset_eq h]
    refine (sim.tryBindings d.offset bindings h).bind ?_
    intro v v' hv
    cases hv with
    | token h₁ =>
      dsimp only
      rw [← sim.rest_eq h₁, ← sim.rest_eq h]
      split
      · next hlt =>
        refine (ih _ hlt h₁).bind ?_
        intro r r' hr
        refine Sim.pure ?_
        simp only [relocateScan, List.map_cons, Prod.mk.injEq] at hr ⊢
        exact ⟨by simp [Token.relocate, hpos h, hr.1], hr.2⟩
      · refine Sim.pure ?_
        simp [relocateScan, Token.relocate, hpos h]
    | noMatch h₁ =>
      refine Sim.pure ?_
      simp [relocateScan, locateError_relocate (hfault h₁) _ (hpos h)]
    | failed h₁ =>
      refine Sim.pure ?_
      simp [relocateScan, locateError_relocate (hfault h₁) _ (hpos h)]

end Simulation

/-! ## Cursors that differ only in their positions -/

/-- Two cursors at the same place of the same bytes under the same policy, whose positions, and
the positions of their faults, `P` relates. -/
structure Cursor.Renumbered (P : Position → Position → Prop) (c d : Cursor) : Prop where
  rest_eq : c.rest = d.rest
  offset_eq : c.offset = d.offset
  policy_eq : c.policy = d.policy
  position : P c.position d.position
  fault : Option.Rel
    (fun f g : Utf8Fault => f.offset = g.offset ∧ f.length = g.length ∧ P f.position g.position)
    c.fault d.fault

namespace Cursor.Renumbered

variable {P : Position → Position → Prop} {c d : Cursor}

theorem noteFault (h : c.Renumbered P d) (n : Nat) :
    (c.noteFault n).Renumbered P (d.noteFault n) := by
  have hf := h.fault
  unfold Cursor.noteFault
  cases hc : c.fault <;> cases hd : d.fault <;> simp only [hc, hd] at hf <;> cases hf
  · exact ⟨h.rest_eq, h.offset_eq, h.policy_eq, h.position, .some ⟨h.offset_eq, rfl, h.position⟩⟩
  · exact h

theorem fault_relocate {ψ φ : Position → Position} (hP : ∀ {p q}, P p q → ψ p = φ q)
    (h : c.Renumbered P d) :
    c.fault.map (Utf8Fault.relocate ψ) = d.fault.map (Utf8Fault.relocate φ) := by
  have hf := h.fault
  cases hc : c.fault <;> cases hd : d.fault <;> simp only [hc, hd] at hf <;> cases hf
  · rfl
  · next f g hfg =>
    obtain ⟨ho, hl, hp⟩ := hfg
    simp [Utf8Fault.relocate, ho, hl, hP hp]

/-- Cursors whose positions `P` relates read alike, when every step of a position that succeeds
at the first succeeds at the second, or halts as `E` allows, at positions `P` relates again. -/
theorem simulation {E : Halt → Prop}
    (hadvance : ∀ {p q ch}, P p q → Sim E P (p.advance ch) (q.advance ch))
    (htext : ∀ {p q s}, P p q → Sim E P (p.advanceText s) (q.advanceText s)) :
    Simulation E (Cursor.Renumbered P) where
  rest_eq h := h.rest_eq
  offset_eq h := h.offset_eq
  scan h := by
    unfold Cursor.scan
    rw [h.rest_eq, h.policy_eq]
    split
    · exact ⟨rfl, h⟩
    · exact ⟨rfl, h⟩
    · split
      · exact ⟨rfl, h⟩
      · exact ⟨rfl, h.noteFault _⟩
  consume _ h := by
    unfold Cursor.consume
    exact (hadvance h.position).bind fun _ _ hq =>
      Sim.pure ⟨by rw [h.rest_eq], by rw [h.offset_eq], h.policy_eq, hq, h.fault⟩
  leap h := by
    unfold Cursor.leap
    dsimp only
    rw [h.rest_eq]
    split
    · exact (htext h.position).bind fun _ _ hq =>
        Sim.pure ⟨rfl, rfl, by rw [h.offset_eq], h.policy_eq, hq, h.fault⟩
    · exact Sim.pure ⟨rfl, h⟩
  leapFetch h := by
    unfold Cursor.leapFetch
    dsimp only
    rw [h.rest_eq]
    split
    · split
      · split
        · refine (htext h.position).bind fun _ _ hq => ?_
          exact (hadvance hq).bind fun _ _ hq' =>
            Sim.pure ⟨rfl, rfl, by rw [h.offset_eq], h.policy_eq, hq', h.fault⟩
        · exact Sim.pure ⟨rfl, h⟩
      · exact Sim.pure ⟨rfl, h⟩
    · exact Sim.pure ⟨rfl, h⟩

/-- Scans from cursors whose positions `P` relates find the same tokens and end alike, at
positions that agree once moved by maps that agree on what `P` relates. -/
theorem scanTokens {E : Halt → Prop} {κ : Type} {bindings : List (Binding κ)}
    {ψ φ : Position → Position} (sim : Simulation E (Cursor.Renumbered P))
    (hP : ∀ {p q}, P p q → ψ p = φ q) (h : c.Renumbered P d) :
    Sim E (fun r r' => relocateScan ψ r = relocateScan φ r') (scanTokens bindings c)
      (scanTokens bindings d) :=
  sim.scanTokens (fun h => hP h.position) (fun h => h.fault_relocate hP) h

end Cursor.Renumbered

end Lexer
