import Lexer.Proofs.Reach
/-! # Not applying leaves no trace

Every term keeps its outcome discipline (`Attempt.Disciplined`): one that does not apply has read
and written nothing, and one that matches without moving has written nothing. A sequence needs
both halves for its parts, so one induction carries them together (`attempt_disciplined`).
-/

namespace Lexer

open Cursor

/-- The outcome discipline of an attempt begun at `c`. -/
structure Attempt.Disciplined (c : Cursor) (a : Attempt) : Prop where
  /-- A term that does not apply does not move. -/
  unmatched_offset : a.outcome = .failed .unmatched → a.cursor.offset = c.offset
  /-- A term that does not apply, or that matches without moving, writes nothing. -/
  silent : a.outcome = .failed .unmatched ∨ a.outcome = .matched → a.cursor.offset = c.offset →
    a.written = .empty

/-- The contract of an attempt that never reports `unmatched`, such as the rest of a form once
its opener has matched: it writes nothing when it matches without moving. -/
structure Attempt.Committed (c : Cursor) (a : Attempt) : Prop where
  ne_unmatched : a.outcome ≠ .failed .unmatched
  silent : a.outcome = .matched → a.cursor.offset = c.offset → a.written = .empty

@[simp] theorem Outcome.mapFailure_invalidIfUnmatched_ne (o : Outcome) :
    o.mapFailure Failure.invalidIfUnmatched ≠ .failed .unmatched := by
  rcases o with _ | ⟨_ | _ | _ | _ | _ | _⟩ <;> simp [mapFailure, Failure.invalidIfUnmatched]

@[simp] theorem Outcome.mapFailure_unterminatedIfUnmatched_ne (o : Outcome) :
    o.mapFailure Failure.unterminatedIfUnmatched ≠ .failed .unmatched := by
  rcases o with _ | ⟨_ | _ | _ | _ | _ | _⟩ <;> simp [mapFailure, Failure.unterminatedIfUnmatched]

namespace Attempt

variable {c c₁ c' : Cursor} {a a₁ r : Attempt}

namespace Committed

theorem disciplined (h : Committed c a) : Disciplined c a where
  unmatched_offset hu := absurd hu h.ne_unmatched
  silent hq := hq.elim (fun hu => absurd hu h.ne_unmatched) h.silent

theorem of_hard {f : Failure} (ho : a.outcome = .failed f) (hf : f ≠ .unmatched) :
    Committed c a where
  ne_unmatched h := hf (Outcome.failed.inj (ho.symm.trans h))
  silent h := by simp [ho] at h

theorem of_moved (hlt : c.offset < a.cursor.offset) (hu : a.outcome ≠ .failed .unmatched) :
    Committed c a :=
  ⟨hu, fun _ h => absurd h (Nat.ne_of_gt hlt)⟩

theorem matched_empty : Committed c (.matched c' .empty) :=
  ⟨by simp, fun _ _ => rfl⟩

theorem recover (h : Disciplined c a)
    (hq : a.outcome = .failed .unmatched ∨ a.outcome = .matched) :
    Committed c (.matched a.cursor a.written) :=
  ⟨by simp, fun _ ho => h.silent hq ho⟩

theorem of_forward (f₁ : c.Forward c₁) (h : Committed c₁ r) (f₂ : c₁.Forward r.cursor) :
    Committed c r where
  ne_unmatched := h.ne_unmatched
  silent hm ho := by
    have := f₁.offset_le
    have := f₂.offset_le
    exact h.silent hm (by omega)

end Committed

namespace Disciplined

theorem unmatched_here (ho : c'.offset = c.offset) : Disciplined c (.failed .unmatched c' .empty) :=
  ⟨fun _ => ho, fun _ _ => rfl⟩

/-- The discipline speaks of offsets only, so a cursor that has not moved can stand in for the
one a term began at. -/
theorem of_offset_eq (ho : c₁.offset = c.offset) (h : Disciplined c₁ a) : Disciplined c a :=
  ⟨fun hu => (h.unmatched_offset hu).trans ho, fun hq hc => h.silent hq (hc.trans ho.symm)⟩

theorem failed_empty {f : Failure} (h : Disciplined c a) (ho : a.outcome = .failed f) :
    Disciplined c (.failed f a.cursor .empty) :=
  ⟨fun hu => h.unmatched_offset (by simpa [ho] using hu), fun _ _ => rfl⟩

theorem silence (h : Disciplined c a) : Disciplined c a.silent :=
  ⟨h.unmatched_offset, fun _ _ => rfl⟩

theorem after_unmatched (h₁ : Disciplined c a₁) (hu : a₁.outcome = .failed .unmatched)
    (h₂ : Disciplined a₁.cursor r) : Disciplined c (r.after a₁.written) := by
  have ho := h₁.unmatched_offset hu
  have hw := h₁.silent (.inl hu) ho
  refine ⟨fun h => ?_, fun h hr => ?_⟩
  · simpa [ho] using h₂.unmatched_offset (by simpa using h)
  · simpa [hw] using h₂.silent (by simpa using h) (by simpa [ho] using hr)

/-- After a part that matched: the whole matched without moving, or did not apply, only if both
parts did, and the second does not apply only where the first left the cursor where it began. -/
theorem after_matched (h₁ : Disciplined c a₁) (hm : a₁.outcome = .matched)
    (f₁ : c.Forward a₁.cursor) (h₂ : Disciplined a₁.cursor r) (f₂ : a₁.cursor.Forward r.cursor)
    (hr : r.outcome = .failed .unmatched → a₁.cursor.offset = c.offset) :
    Disciplined c (r.after a₁.written) := by
  have l₁ := f₁.offset_le
  have l₂ := f₂.offset_le
  refine ⟨fun h => ?_, fun h ho => ?_⟩
  · simp only [after_outcome] at h
    simpa [hr h] using h₂.unmatched_offset h
  · simp only [after_cursor] at ho
    have e₁ : a₁.cursor.offset = c.offset := by omega
    have e₂ : r.cursor.offset = a₁.cursor.offset := by omega
    simp only [after_written, h₁.silent (.inr hm) e₁, Capture.empty_append]
    exact h₂.silent (by simpa using h) e₂

end Disciplined

theorem Committed.after_matched (h₁ : Disciplined c a₁) (hm : a₁.outcome = .matched)
    (f₁ : c.Forward a₁.cursor) (h₂ : Committed a₁.cursor r) (f₂ : a₁.cursor.Forward r.cursor) :
    Committed c (r.after a₁.written) :=
  have h := h₁.after_matched hm f₁ h₂.disciplined f₂ fun hu => absurd hu h₂.ne_unmatched
  ⟨by simpa using h₂.ne_unmatched, fun hm' => h.silent (.inr hm')⟩

end Attempt

open Attempt

/-- Every attempt of `step` keeps the outcome discipline. -/
def Tidy (step : Step) : Prop := ∀ c a, step c = .ok a → Disciplined c a

/-! ## Digits and decoders -/

/-- A digit scan counts each digit it reads, and moves exactly when it reads one. -/
theorem Accumulator.scan_count {a a' : Accumulator} {ds : List Char} {c c' : Cursor}
    {limit : Option Nat} (h : a.scan c limit = .ok ((a', ds), c')) :
    a'.count = a.count + ds.length ∧ (ds = [] → c'.offset = c.offset) ∧
      (ds ≠ [] → c.offset < c'.offset) := by
  induction a, c using Accumulator.scan.induct limit generalizing a' ds c' with
  | case1 a c hlim ih =>
    rw [Accumulator.scan, if_pos hlim] at h
    obtain ⟨⟨r, c₁⟩, hf, h⟩ := bind_eq_ok.1 h
    have hmove := fetch_offset hf
    cases r with
    | none =>
      simp only [pure_eq_ok, Prod.mk.injEq] at h
      obtain ⟨⟨rfl, rfl⟩, rfl⟩ := h
      simpa using hmove.2 rfl
    | some ch =>
      have hlt := hmove.1 rfl
      obtain ⟨d, hd⟩ := Option.isSome_iff_exists.1 (fetch_some hf)
      dsimp only at h
      split at h
      · next hlen =>
        obtain ⟨⟨⟨a'', more⟩, c''⟩, hc'', h⟩ := bind_eq_ok.1 h
        simp only [pure_eq_ok, Prod.mk.injEq] at h
        obtain ⟨⟨rfl, rfl⟩, rfl⟩ := h
        have ih' := ih ch c₁ hlen hc''
        have hfwd := Accumulator.scan_reaches readClosed_forward hc''
        simp only [hd, Accumulator.push_count] at ih'
        have := hfwd.offset_le
        refine ⟨by simp [ih'.1]; omega, by simp, fun _ => by omega⟩
      · simp only [pure_eq_ok, Prod.mk.injEq] at h
        obtain ⟨⟨rfl, rfl⟩, rfl⟩ := h
        simp [hd, hlt]
  | case2 a c hlim =>
    rw [Accumulator.scan, if_neg hlim] at h
    simp only [pure_eq_ok, Prod.mk.injEq] at h
    obtain ⟨⟨rfl, rfl⟩, rfl⟩ := h
    simp

theorem extractHex_offset {c c' : Cursor} {limit : Option Nat} {a : Accumulator}
    (h : extractHex c limit = .ok (a, c')) :
    (a.count = 0 → c'.offset = c.offset) ∧ (a.count ≠ 0 → c.offset < c'.offset) := by
  unfold extractHex at h
  obtain ⟨⟨⟨a₁, ds⟩, c₁⟩, hs, h⟩ := bind_eq_ok.1 h
  simp only [pure_eq_ok, Prod.mk.injEq] at h
  obtain ⟨rfl, rfl⟩ := h
  obtain ⟨hcount, hnil, hcons⟩ := Accumulator.scan_count hs
  simp only [Accumulator.init, Nat.zero_add] at hcount
  exact ⟨fun h0 => hnil (List.length_eq_zero_iff.1 (hcount ▸ h0)),
    fun h0 => hcons fun hds => h0 (by simp [hcount, hds])⟩

theorem extractOctal_offset {c c' : Cursor} {limit : Option Nat} {a : Accumulator}
    (h : extractOctal c limit = .ok (a, c')) :
    (a.count = 0 → c'.offset = c.offset) ∧ (a.count ≠ 0 → c.offset < c'.offset) := by
  unfold extractOctal at h
  obtain ⟨⟨⟨a₁, ds⟩, c₁⟩, hs, h⟩ := bind_eq_ok.1 h
  simp only [pure_eq_ok, Prod.mk.injEq] at h
  obtain ⟨rfl, rfl⟩ := h
  obtain ⟨hcount, hnil, hcons⟩ := Accumulator.scan_count hs
  simp only [Accumulator.init, Nat.zero_add] at hcount
  exact ⟨fun h0 => hnil (List.length_eq_zero_iff.1 (hcount ▸ h0)),
    fun h0 => hcons fun hds => h0 (by simp [hcount, hds])⟩

@[simp] theorem unpairedSurrogate_ne_unmatched (c : Cursor) (p : UnpairedPolicy) :
    (unpairedSurrogate c p).outcome ≠ .failed .unmatched := by
  cases p <;> simp [unpairedSurrogate]

/-- A digit decoder keeps the discipline when its digit scan moves exactly when it reads a
digit. -/
theorem DigitDecoder.tidy {extract : Cursor → Except Halt (Accumulator × Cursor)} {step : Step}
    (hd : DigitDecoder extract step)
    (he : ∀ c c' acc, extract c = .ok (acc, c') →
      (acc.count = 0 → c'.offset = c.offset) ∧ (acc.count ≠ 0 → c.offset < c'.offset)) :
    Tidy step := by
  intro c a h
  obtain ⟨acc, c₁, hx, hj⟩ := hd.judged h
  have ho := he c c₁ acc hx
  rw [← hj.cursor_eq] at ho
  by_cases h0 : acc.count = 0
  · exact ⟨fun _ => ho.1 h0, fun _ _ => hj.silent h0⟩
  · exact (Committed.of_moved (ho.2 h0) (mt hj.unmatched_iff.1 h0)).disciplined

/-- A UTF-16 unit that does not apply is one not yet committed to, and reads nothing; a unit read
in full moves on. -/
theorem readUnit_offset {c c' : Cursor} {committed : Bool} {u : Except Failure Nat}
    (h : readUnit c committed = .ok (u, c')) :
    (u = .error .unmatched → committed = false ∧ c'.offset = c.offset) ∧
      (∀ v, u = .ok v → c.offset < c'.offset) := by
  unfold readUnit at h
  obtain ⟨⟨acc, c₁⟩, he, h⟩ := bind_eq_ok.1 h
  have h₁ := extractHex_offset he
  dsimp only at h
  split at h
  · next h0 =>
    simp only [pure_eq_ok, Prod.mk.injEq] at h
    obtain ⟨rfl, rfl⟩ := h
    simp only [Bool.not_eq_eq_eq_not, Bool.not_true] at h0
    exact ⟨fun _ => ⟨h0.2, h₁.1 h0.1⟩, by simp⟩
  · split at h
    · next h4 =>
      simp only [pure_eq_ok, Prod.mk.injEq] at h
      obtain ⟨rfl, rfl⟩ := h
      exact ⟨by simp, fun _ _ => h₁.2 (by omega)⟩
    · simp only [pure_eq_ok, Prod.mk.injEq] at h
      obtain ⟨rfl, rfl⟩ := h
      simp

theorem readSurrogatePair_tidy (first second : String) (p : UnpairedPolicy) :
    Tidy (readSurrogatePair · first second p) := by
  intro c a h
  dsimp only at h
  unfold readSurrogatePair at h
  obtain ⟨⟨ok₁, c₁⟩, hl₁, h⟩ := bind_eq_ok.1 h
  have f₁ := readClosed_forward.leap hl₁
  dsimp only at h
  split at h
  · next hok =>
    simp only [pure_eq_ok] at h
    subst h
    rcases leap_eq_ok hl₁ with ⟨rfl, -⟩ | ⟨-, -, rfl⟩
    · simp at hok
    · exact .unmatched_here rfl
  obtain ⟨⟨u, c₂⟩, hu, h⟩ := bind_eq_ok.1 h
  have f₂ := f₁.trans (readUnit_reaches readClosed_forward hu)
  have hu' := readUnit_offset hu
  cases u with
  | error why =>
    simp only [pure_eq_ok] at h
    subst h
    by_cases hw : why = .unmatched
    · subst hw
      obtain ⟨hc, ho⟩ := hu'.1 rfl
      have hfirst : first = "" := by simpa using hc
      subst hfirst
      rcases leap_eq_ok hl₁ with ⟨-, -, q, -, rfl⟩ | ⟨-, hpre, -⟩
      · exact .unmatched_here (by simpa using ho)
      · simp at hpre
    · exact (Committed.of_hard rfl hw).disciplined
  | ok high =>
    have hlt : c.offset < c₂.offset := Nat.lt_of_le_of_lt f₁.offset_le (hu'.2 high rfl)
    dsimp only at h
    split at h
    · simp only [pure_eq_ok] at h
      subst h
      exact (Committed.of_moved (by simpa using hlt) (by simp)).disciplined
    split at h
    · simp only [pure_eq_ok] at h
      subst h
      exact (Committed.of_moved (by simpa using hlt) (by simp)).disciplined
    obtain ⟨⟨ok₂, c₃⟩, hl₂, h⟩ := bind_eq_ok.1 h
    have l₃ := (readClosed_forward.leap hl₂).offset_le
    dsimp only at h
    split at h
    · simp only [pure_eq_ok] at h
      subst h
      exact (Committed.of_moved (by simp; omega) (by simp)).disciplined
    obtain ⟨⟨v, c₄⟩, hv, h⟩ := bind_eq_ok.1 h
    have l₄ := (readUnit_reaches readClosed_forward hv).offset_le
    have hv' := readUnit_offset hv
    cases v with
    | error why =>
      simp only [pure_eq_ok] at h
      subst h
      refine (Committed.of_moved (by simp; omega) ?_).disciplined
      rintro ⟨⟩
      simp at hv'
    | ok low =>
      dsimp only at h
      repeat' split at h
      all_goals
        simp only [pure_eq_ok] at h
        subst h
        exact (Committed.of_moved (by simp; omega) (by simp)).disciplined

/-! ## Numerals -/

theorem readLeadDigit_offset {c c' : Cursor} {lead : String} {r : Radix} {ceiling : Nat}
    {x : Option (Char × Accumulator)} (h : readLeadDigit c lead r ceiling = .ok (x, c')) :
    (x = none → c' = c) ∧ (x.isSome → c.offset < c'.offset) := by
  unfold readLeadDigit at h
  obtain ⟨⟨y, c₁⟩, hf, h⟩ := bind_eq_ok.1 h
  have h₁ := leapFetch_offset hf
  cases y with
  | none =>
    simp only [pure_eq_ok, Prod.mk.injEq] at h
    obtain ⟨rfl, rfl⟩ := h
    simpa using h₁.2 rfl
  | some ch =>
    simp only [pure_eq_ok, Prod.mk.injEq] at h
    obtain ⟨rfl, rfl⟩ := h
    simpa using h₁.1 rfl

theorem readUnsigned_tidy (lead : String) (r : Radix) (w : Width) :
    Tidy (readUnsigned · lead r w) := by
  intro c a h
  dsimp only at h
  unfold readUnsigned at h
  obtain ⟨⟨x, c₁⟩, hl, h⟩ := bind_eq_ok.1 h
  have h₁ := readLeadDigit_offset hl
  cases x with
  | none =>
    simp only [pure_eq_ok] at h
    subst h
    exact .unmatched_here (by simp [h₁.1 rfl])
  | some x =>
    obtain ⟨first, acc⟩ := x
    obtain ⟨⟨⟨a₂, more⟩, c₂⟩, hs, h⟩ := bind_eq_ok.1 h
    have hlt : c.offset < c₂.offset :=
      Nat.lt_of_lt_of_le (h₁.2 rfl) (Accumulator.scan_reaches readClosed_forward hs).offset_le
    dsimp only at h
    split at h
    all_goals
      simp only [pure_eq_ok] at h
      subst h
      exact (Committed.of_moved (by simpa using hlt) (by simp)).disciplined

theorem readFixedHex_tidy (lead : String) (w : Width) : Tidy (readFixedHex · lead w) := by
  intro c a h
  dsimp only at h
  unfold readFixedHex at h
  obtain ⟨⟨x, c₁⟩, hl, h⟩ := bind_eq_ok.1 h
  have h₁ := readLeadDigit_offset hl
  cases x with
  | none =>
    simp only [pure_eq_ok] at h
    subst h
    exact .unmatched_here (by simp [h₁.1 rfl])
  | some x =>
    obtain ⟨first, acc⟩ := x
    obtain ⟨⟨⟨a₂, more⟩, c₂⟩, hs, h⟩ := bind_eq_ok.1 h
    have hlt : c.offset < c₂.offset :=
      Nat.lt_of_lt_of_le (h₁.2 rfl) (Accumulator.scan_reaches readClosed_forward hs).offset_le
    dsimp only at h
    split at h
    all_goals
      simp only [pure_eq_ok] at h
      subst h
      exact (Committed.of_moved (by simpa using hlt) (by simp)).disciplined

/-! ## Literals and scalars -/

/-- A literal that stood at the cursor writes its text, and it moves unless the text is empty. -/
theorem leap_committed {c c' : Cursor} {s : String} (h : c.leap s = .ok (true, c')) :
    Committed c (.matched c' (.ofText s)) := by
  rcases leap_eq_ok h with ⟨-, -, q, -, rfl⟩ | ⟨hb, -⟩
  · refine ⟨by simp, fun _ ho => ?_⟩
    simp only [matched_cursor, Nat.add_eq_left, List.length_eq_zero_iff] at ho
    simp [Capture.ofText, Capture.empty, ho]
  · simp at hb

theorem leap_stays {c c' : Cursor} {s : String} (h : c.leap s = .ok (false, c')) : c' = c := by
  rcases leap_eq_ok h with ⟨hb, -⟩ | ⟨-, -, rfl⟩
  · simp at hb
  · rfl

theorem literal_tidy (s : String) : Tidy (Term.literal s).attempt := by
  intro c a h
  simp only [Term.attempt] at h
  obtain ⟨⟨ok, c₁⟩, hl, h⟩ := bind_eq_ok.1 h
  simp only [pure_eq_ok] at h
  subst h
  cases ok with
  | false => simpa [leap_stays hl] using Disciplined.unmatched_here (c := c) rfl
  | true => simpa using (leap_committed hl).disciplined

theorem scalar_tidy (ch : Char) : Tidy (Term.scalar ch).attempt := by
  intro c a h
  simp only [Term.attempt] at h
  obtain ⟨⟨ok, c₁⟩, hh, h⟩ := bind_eq_ok.1 h
  simp only [pure_eq_ok] at h
  subst h
  cases ok with
  | false => simpa using Disciplined.unmatched_here ((hop_offset hh).2 rfl)
  | true => simpa using (Committed.of_moved (by simpa using (hop_offset hh).1 rfl) (by simp)).disciplined

theorem scalarIn_tidy (k : CharClass) : Tidy (Term.scalarIn k).attempt := by
  intro c a h
  simp only [Term.attempt] at h
  obtain ⟨⟨r, c₁⟩, hf, h⟩ := bind_eq_ok.1 h
  cases r with
  | none =>
    simp only [pure_eq_ok] at h
    subst h
    exact .unmatched_here ((fetch_offset hf).2 rfl)
  | some ch =>
    simp only [pure_eq_ok] at h
    subst h
    exact (Committed.of_moved (by simpa using (fetch_offset hf).1 rfl) (by simp)).disciplined

theorem word_tidy (first more : CharClass) : Tidy (Term.word first more).attempt := by
  intro c a h
  simp only [Term.attempt] at h
  obtain ⟨⟨r, c₁⟩, hf, h⟩ := bind_eq_ok.1 h
  cases r with
  | none =>
    simp only [pure_eq_ok] at h
    subst h
    exact .unmatched_here ((fetch_offset hf).2 rfl)
  | some ch =>
    obtain ⟨⟨⟨run, stop⟩, c₂⟩, hs, h⟩ := bind_eq_ok.1 h
    simp only [pure_eq_ok] at h
    subst h
    have hlt : c.offset < c₂.offset :=
      Nat.lt_of_lt_of_le ((fetch_offset hf).1 rfl) (readClosed_forward.skipRun hs).offset_le
    exact (Committed.of_moved (by simpa using hlt) (by simp)).disciplined

theorem endOfInput_tidy : Tidy Term.endOfInput.attempt := by
  intro c a h
  simp only [Term.attempt, pure_eq_ok] at h
  subst h
  split
  · exact Committed.matched_empty.disciplined
  · exact .unmatched_here rfl

theorem endOfLine_tidy : Tidy Term.endOfLine.attempt := by
  intro c a h
  simp only [Term.attempt] at h
  obtain ⟨⟨fed, c₁⟩, hh, h⟩ := bind_eq_ok.1 h
  dsimp only at h
  split at h
  · next hfed =>
    simp only [pure_eq_ok] at h
    subst h
    exact (Committed.of_moved (by simpa using (hop_offset hh).1 hfed) (by simp)).disciplined
  have h₁ : c₁.offset = c.offset := (hop_offset hh).2 (by simpa using ‹¬fed = true›)
  obtain ⟨⟨fed₂, c₂⟩, hl, h⟩ := bind_eq_ok.1 h
  dsimp only at h
  split at h
  · next hfed =>
    simp only [pure_eq_ok] at h
    subst h
    exact (leap_committed (hfed ▸ hl)).disciplined.of_offset_eq h₁
  · next hfed =>
    have hf : fed₂ = false := by simpa using hfed
    have h₂ : c₂ = c₁ := leap_stays (hf ▸ hl)
    simp only [pure_eq_ok] at h
    subst h h₂
    split
    · exact Committed.matched_empty.disciplined
    · exact .unmatched_here h₁

theorem leapFirst_tidy (c : Cursor) : ∀ (alts : List String) (a : Attempt),
    leapFirst c alts = .ok a → Disciplined c a
  | [], a, h => by
    simp only [leapFirst, pure_eq_ok] at h
    subst h
    exact .unmatched_here rfl
  | alt :: alts, a, h => by
    rw [leapFirst] at h
    obtain ⟨⟨ok, c₁⟩, hl, h⟩ := bind_eq_ok.1 h
    dsimp only at h
    split at h
    · next hok =>
      simp only [pure_eq_ok] at h
      subst h hok
      exact (leap_committed hl).disciplined
    · exact leapFirst_tidy c alts a h

theorem anyLiteral_tidy (alts : List String) : Tidy (Term.anyLiteral alts).attempt := by
  intro c a h
  simp only [Term.attempt] at h
  unfold readAnyLiteral at h
  split at h
  · next c₁ hp =>
    simp only [pure_eq_ok] at h
    subst h
    have : c₁ = c.peek.2 := by rw [hp]
    exact .unmatched_here (by simp [this])
  · next first c₁ hp =>
    have : c₁ = c.peek.2 := by rw [hp]
    exact (leapFirst_tidy c₁ _ a h).of_offset_eq (by simp [this])

/-! ## Loops -/

theorem repeatStep_committed {step : Step} (ht : Tidy step) (hf : Respects Forward step)
    {c : Cursor} {a : Attempt} (h : repeatStep step c = .ok a) : Committed c a := by
  induction c using repeatStep.induct generalizing a with
  | _ c ih =>
    rw [repeatStep] at h
    obtain ⟨a₁, ha₁, h⟩ := bind_eq_ok.1 h
    have d₁ := ht c a₁ ha₁
    split at h
    · next hm =>
      split at h
      · next hlt =>
        obtain ⟨a₂, ha₂, h⟩ := bind_eq_ok.1 h
        simp only [pure_eq_ok] at h
        subst h
        exact .after_matched d₁ hm (hf c a₁ ha₁) (ih a₁ hlt ha₂)
          (repeatStep_reaches readClosed_forward hf ha₂)
      · simp only [pure_eq_ok] at h
        subst h
        exact .recover d₁ (.inr hm)
    · next hu =>
      simp only [pure_eq_ok] at h
      subst h
      exact .recover d₁ (.inl hu)
    · next why hne ho =>
      simp only [pure_eq_ok] at h
      subst h
      exact .of_hard ho hne

theorem readToLineEnd_committed {c : Cursor} {a : Attempt} (h : readToLineEnd c = .ok a) :
    Committed c a := by
  induction c using readToLineEnd.induct generalizing a with
  | case1 c hd =>
    rw [readToLineEnd, if_pos hd] at h
    simp only [pure_eq_ok] at h
    subst h
    exact .matched_empty
  | case2 c hd ih =>
    rw [readToLineEnd, if_neg hd] at h
    obtain ⟨⟨fed, c₁⟩, hh, h⟩ := bind_eq_ok.1 h
    have l₁ := (readClosed_forward.hop hh).offset_le
    dsimp only at h
    split at h
    · simp only [pure_eq_ok] at h
      subst h
      exact .matched_empty
    obtain ⟨⟨fed₂, c₂⟩, hl, h⟩ := bind_eq_ok.1 h
    have l₂ := (readClosed_forward.leap hl).offset_le
    dsimp only at h
    split at h
    · simp only [pure_eq_ok] at h
      subst h
      exact .matched_empty
    obtain ⟨⟨r, c₃⟩, hf, h⟩ := bind_eq_ok.1 h
    have h₃ := fetch_offset hf
    cases r with
    | none =>
      simp only [pure_eq_ok] at h
      subst h
      exact .of_hard rfl (by simp)
    | some ch =>
      have hlt : c.offset < c₃.offset := by
        have := h₃.1 rfl
        omega
      dsimp only at h
      split at h
      · next hlen =>
        obtain ⟨a₄, ha₄, h⟩ := bind_eq_ok.1 h
        simp only [pure_eq_ok] at h
        subst h
        have l₄ := (readToLineEnd_reaches readClosed_forward ha₄).offset_le
        exact .of_moved (by simp; omega) (by simpa using (ih c₃ hlen ha₄).ne_unmatched)
      · simp only [pure_eq_ok] at h
        subst h
        exact .of_moved (by simpa using hlt) (by simp)

theorem readToStop_committed {stop : Step} (hf : Respects Forward stop) {c : Cursor} {a : Attempt}
    (h : readToStop stop c = .ok a) : Committed c a := by
  induction c using readToStop.induct generalizing a with
  | _ c ih =>
    rw [readToStop] at h
    obtain ⟨a₁, ha₁, h⟩ := bind_eq_ok.1 h
    have l₁ := (hf c a₁ ha₁).offset_le
    split at h
    · simp only [pure_eq_ok] at h
      subst h
      exact .matched_empty
    · obtain ⟨⟨r, c₃⟩, hfa, h⟩ := bind_eq_ok.1 h
      have h₃ := fetch_offset hfa
      cases r with
      | none =>
        simp only [pure_eq_ok] at h
        subst h
        exact .of_hard rfl (by simp)
      | some ch =>
        have hlt : c.offset < c₃.offset := by
          have := h₃.1 rfl
          omega
        dsimp only at h
        split at h
        · next hlen =>
          obtain ⟨a₄, ha₄, h⟩ := bind_eq_ok.1 h
          simp only [pure_eq_ok] at h
          subst h
          have l₄ := (readToStop_reaches readClosed_forward hf ha₄).offset_le
          exact .of_moved (by simp; omega) (by simpa using (ih c₃ hlen ha₄).ne_unmatched)
        · simp only [pure_eq_ok] at h
          subst h
          exact .of_moved (by simpa using hlt) (by simp)
    · next why hne ho =>
      simp only [pure_eq_ok] at h
      subst h
      exact .of_hard rfl hne

/-- A round that ends a quoted body ends it with the closing quote, a hard failure of the escape,
or as unterminated: never as `unmatched`. -/
theorem closeOrContent_finished {q : Char} {p : Char → Bool} {c : Cursor} {w : Capture}
    {a : Attempt} (h : closeOrContent q p c w = .ok (.finished a)) :
    a.outcome ≠ .failed .unmatched := by
  unfold closeOrContent at h
  obtain ⟨⟨closed, c₂⟩, -, h⟩ := bind_eq_ok.1 h
  dsimp only at h
  split at h
  · simp only [pure_eq_ok, Round.finished.injEq] at h
    simp [← h]
  obtain ⟨⟨x, c₃⟩, -, h⟩ := bind_eq_ok.1 h
  cases x <;> simp only [pure_eq_ok, Round.finished.injEq, reduceCtorEq] at h
  simp [← h]

theorem quotedRound_finished {q : Char} {p : Char → Bool} {escape : Step} {c : Cursor}
    {a : Attempt} (h : quotedRound q p escape c = .ok (.finished a)) :
    a.outcome ≠ .failed .unmatched := by
  unfold quotedRound at h
  obtain ⟨e, -, h⟩ := bind_eq_ok.1 h
  split at h
  · split at h
    · simp at h
    · simp [throw, throwThe, MonadExceptOf.throw] at h
  · exact closeOrContent_finished h
  · next why hne ho =>
    simp only [pure_eq_ok, Round.finished.injEq] at h
    subst h
    simpa [ho] using hne

theorem readQuotedBody_ne_unmatched {q : Char} {p : Char → Bool} {escape : Step} {c : Cursor}
    {a : Attempt} (h : readQuotedBody q p escape c = .ok a) : a.outcome ≠ .failed .unmatched := by
  induction c using readQuotedBody.induct generalizing a with
  | _ c ih =>
    rw [readQuotedBody] at h
    obtain ⟨r, hr, h⟩ := bind_eq_ok.1 h
    split at h
    · simp only [pure_eq_ok] at h
      subst h
      exact quotedRound_finished hr
    · split at h
      · next hlt =>
        obtain ⟨a₂, ha₂, h⟩ := bind_eq_ok.1 h
        simp only [pure_eq_ok] at h
        subst h
        simpa using ih _ hlt ha₂
      · simp only [pure_eq_ok] at h
        subst h
        simp

/-! ## Escapes and quoted literals -/

/-- Once an escape has read its key, what the key stands for never reports `unmatched`. -/
theorem apply_ne_unmatched {s : Substitution} {key : Char} {c : Cursor} {a : Attempt}
    (h : s.apply key c = .ok a) : a.outcome ≠ .failed .unmatched := by
  cases s with
  | term t =>
    simp only [Substitution.apply] at h
    obtain ⟨a₁, -, h⟩ := bind_eq_ok.1 h
    simp only [pure_eq_ok] at h
    subst h
    simp
  | itself | byte _ | char _ | text _ =>
    simp only [Substitution.apply, pure_eq_ok] at h
    simp [← h]

theorem entry_ne_unmatched {key : Char} {c : Cursor} :
    ∀ {table : List (Char × Substitution)} {a : Attempt},
      attemptEntry table key c = .ok (some a) → a.outcome ≠ .failed .unmatched
  | [], a, h => by simp [attemptEntry] at h
  | (k, s) :: entries, a, h => by
    simp only [attemptEntry] at h
    split at h
    · obtain ⟨⟨ok, c₁⟩, -, h⟩ := bind_eq_ok.1 h
      obtain ⟨a₂, ha₂, h⟩ := bind_eq_ok.1 h
      simp only [pure_eq_ok, Option.some.injEq] at h
      exact h ▸ apply_ne_unmatched ha₂
    · exact entry_ne_unmatched h

theorem fallback_ne_unmatched {fallback : Option Substitution} {key : Char} {c : Cursor}
    {a : Attempt} (h : attemptFallback fallback key c = .ok a) :
    a.outcome ≠ .failed .unmatched := by
  cases fallback with
  | none =>
    simp only [attemptFallback, pure_eq_ok] at h
    simp [← h]
  | some s =>
    simp only [attemptFallback] at h
    split at h
    · exact apply_ne_unmatched h
    · obtain ⟨⟨ok, c₁⟩, -, h⟩ := bind_eq_ok.1 h
      exact apply_ne_unmatched h

theorem escape_tidy (lead : Char) (table : List (Char × Substitution))
    (fallback : Option Substitution) : Tidy (Term.escape lead table fallback).attempt := by
  intro c a h
  simp only [Term.attempt] at h
  obtain ⟨⟨ok, c₁⟩, hh, h⟩ := bind_eq_ok.1 h
  dsimp only at h
  split at h
  · next hok =>
    simp only [pure_eq_ok] at h
    subst h
    exact .unmatched_here ((hop_offset hh).2 (by simpa using hok))
  have hlt := (hop_offset hh).1 (by simpa using ‹¬(!ok) = true›)
  split at h
  · simp only [pure_eq_ok] at h
    subst h
    exact (Committed.of_hard rfl (by simp)).disciplined
  · next key c₂ hp =>
    have e₂ : c₂.offset = c₁.offset := by
      have : c₂ = c₁.peek.2 := by rw [hp]
      simp [this]
    obtain ⟨x, hx, h⟩ := bind_eq_ok.1 h
    cases x with
    | some a₃ =>
      simp only [pure_eq_ok] at h
      subst h
      have l₃ := (entry_reaches readClosed_forward table key c₂ _ hx a₃ rfl).offset_le
      exact (Committed.of_moved (by omega) (entry_ne_unmatched hx)).disciplined
    | none =>
      have l₃ := (fallback_reaches readClosed_forward fallback key c₂ a h).offset_le
      exact (Committed.of_moved (by omega) (fallback_ne_unmatched h)).disciplined

theorem quoted_tidy (quote content : CharClass) (escape : Option Term) :
    Tidy (Term.quoted quote content escape).attempt := by
  intro c a h
  simp only [Term.attempt] at h
  obtain ⟨⟨r, c₁⟩, hf, h⟩ := bind_eq_ok.1 h
  cases r with
  | none =>
    simp only [pure_eq_ok] at h
    subst h
    exact .unmatched_here ((fetch_offset hf).2 rfl)
  | some q =>
    have hlt := (fetch_offset hf).1 rfl
    have l₂ := (readQuotedBody_reaches readClosed_forward
      (escapeStep_reaches readClosed_forward escape) h).offset_le
    exact (Committed.of_moved (by omega) (readQuotedBody_ne_unmatched h)).disciplined

/-! ## Terms -/

mutual

theorem attempt_disciplined : ∀ t : Term, Tidy t.attempt
  | .literal s => literal_tidy s
  | .scalar ch => scalar_tidy ch
  | .scalarIn k => scalarIn_tidy k
  | .word first more => word_tidy first more
  | .endOfInput => endOfInput_tidy
  | .endOfLine => endOfLine_tidy
  | .seq parts => fun c a h => (seq_disciplined c.offset parts c a (Nat.le_refl _) h).1
  | .firstOf choices => first_disciplined choices
  | .optional t => fun c a h => by
    simp only [Term.attempt] at h
    obtain ⟨a₁, ha₁, h⟩ := bind_eq_ok.1 h
    have d₁ := attempt_disciplined t c a₁ ha₁
    split at h
    · next hu =>
      simp only [pure_eq_ok] at h
      subst h
      exact (Committed.recover d₁ (.inl hu)).disciplined
    · simp only [pure_eq_ok] at h
      subst h
      exact d₁
  | .many t => fun c a h =>
    (repeatStep_committed (attempt_disciplined t) (attempt_reaches readClosed_forward t) h).disciplined
  | .many1 t => fun c a h => by
    simp only [Term.attempt] at h
    obtain ⟨a₁, ha₁, h⟩ := bind_eq_ok.1 h
    have d₁ := attempt_disciplined t c a₁ ha₁
    split at h
    · next hm =>
      obtain ⟨a₂, ha₂, h⟩ := bind_eq_ok.1 h
      simp only [pure_eq_ok] at h
      subst h
      exact (Committed.after_matched d₁ hm (attempt_forward ha₁)
        (repeatStep_committed (attempt_disciplined t) (attempt_reaches readClosed_forward t) ha₂)
        (repeatStep_reaches readClosed_forward (attempt_reaches readClosed_forward t) ha₂)).disciplined
    · simp only [pure_eq_ok] at h
      subst h
      exact d₁
  | .discard t => fun c a h => by
    simp only [Term.attempt] at h
    obtain ⟨a₁, ha₁, h⟩ := bind_eq_ok.1 h
    simp only [pure_eq_ok] at h
    subst h
    exact (attempt_disciplined t c a₁ ha₁).silence
  | .anyLiteral alts => anyLiteral_tidy alts
  | .between opener content closer => fun c a h => by
    simp only [Term.attempt] at h
    obtain ⟨a₁, ha₁, h⟩ := bind_eq_ok.1 h
    have d₁ := attempt_disciplined opener c a₁ ha₁
    split at h
    · next why ho =>
      simp only [pure_eq_ok] at h
      subst h
      exact d₁.failed_empty ho
    obtain ⟨b, hb, h⟩ := bind_eq_ok.1 h
    have cb := content_committed content a₁.cursor b hb
    have f₁ := attempt_forward ha₁
    have f₂ := content_reaches readClosed_forward content a₁.cursor b hb
    split at h
    · simp only [pure_eq_ok] at h
      subst h
      exact (cb.of_forward f₁ f₂).disciplined
    · next hbm =>
      obtain ⟨z, hz, h⟩ := bind_eq_ok.1 h
      simp only [pure_eq_ok] at h
      subst h
      have l₃ := (attempt_forward hz).offset_le
      have l₁ := f₁.offset_le
      have l₂ := f₂.offset_le
      exact Committed.disciplined ⟨by simp, fun _ ho => cb.silent hbm (by simp at ho; omega)⟩
  | .untilLineEnd opener => fun c a h => by
    simp only [Term.attempt] at h
    obtain ⟨a₁, ha₁, h⟩ := bind_eq_ok.1 h
    have d₁ := attempt_disciplined opener c a₁ ha₁
    split at h
    · next why ho =>
      simp only [pure_eq_ok] at h
      subst h
      exact d₁.failed_empty ho
    · exact ((readToLineEnd_committed h).of_forward (attempt_forward ha₁)
        (readToLineEnd_reaches readClosed_forward h)).disciplined
  | .untilStop opener stop => fun c a h => by
    simp only [Term.attempt] at h
    obtain ⟨a₁, ha₁, h⟩ := bind_eq_ok.1 h
    have d₁ := attempt_disciplined opener c a₁ ha₁
    split at h
    · next why ho =>
      simp only [pure_eq_ok] at h
      subst h
      exact d₁.failed_empty ho
    · have hs := attempt_reaches readClosed_forward stop
      exact ((readToStop_committed hs h).of_forward (attempt_forward ha₁)
        (readToStop_reaches readClosed_forward hs h)).disciplined
  | .quoted quote content escape => quoted_tidy quote content escape
  | .unsigned lead r w => readUnsigned_tidy lead r w
  | .fixedHex lead w => readFixedHex_tidy lead w
  | .escape lead table fallback => escape_tidy lead table fallback
  | .hexByteRun => readHexByteRun_digitDecoder.tidy fun _ _ _ => extractHex_offset
  | .hexByte => readHexByte_digitDecoder.tidy fun _ _ _ => extractHex_offset
  | .hexScalar4 => readHexScalar4_digitDecoder.tidy fun _ _ _ => extractHex_offset
  | .hexScalar8 => readHexScalar8_digitDecoder.tidy fun _ _ _ => extractHex_offset
  | .octalByte => readOctalByte_digitDecoder.tidy fun _ _ _ => extractOctal_offset
  | .surrogatePair first second p => readSurrogatePair_tidy first second p

/-- A sequence begun at `start` does not apply only where its first part did not, so nothing
before it moved. -/
theorem seq_disciplined : ∀ (start : Nat) (parts : List Term) (c : Cursor) (a : Attempt),
    start ≤ c.offset → attemptSeq start parts c = .ok a →
      Disciplined c a ∧ (a.outcome = .failed .unmatched → c.offset = start)
  | _, [], c, a, _, h => by
    simp only [attemptSeq, pure_eq_ok] at h
    subst h
    exact ⟨Committed.matched_empty.disciplined, by simp⟩
  | start, t :: ts, c, a, hs, h => by
    simp only [attemptSeq] at h
    obtain ⟨a₁, ha₁, h⟩ := bind_eq_ok.1 h
    have d₁ := attempt_disciplined t c a₁ ha₁
    have f₁ := attempt_forward ha₁
    have l₁ := f₁.offset_le
    split at h
    · next hm =>
      obtain ⟨a₂, ha₂, h⟩ := bind_eq_ok.1 h
      simp only [pure_eq_ok] at h
      subst h
      obtain ⟨d₂, s₂⟩ := seq_disciplined start ts a₁.cursor a₂ (by omega) ha₂
      have f₂ := seq_reaches readClosed_forward start ts a₁.cursor a₂ ha₂
      refine ⟨d₁.after_matched hm f₁ d₂ f₂ fun hu => ?_, fun hu => ?_⟩
      · have := s₂ hu
        omega
      · have := s₂ (by simpa using hu)
        omega
    · next hu =>
      simp only [pure_eq_ok] at h
      subst h
      have e₁ := d₁.unmatched_offset hu
      have w₁ := d₁.silent (.inl hu) e₁
      split
      · exact ⟨by simpa [w₁] using Disciplined.unmatched_here e₁, fun _ => by omega⟩
      · exact ⟨(Committed.of_hard rfl (by simp)).disciplined, by simp⟩
    · next why hne ho =>
      simp only [pure_eq_ok] at h
      subst h
      exact ⟨d₁, fun hu => absurd (Outcome.failed.inj (ho.symm.trans hu)) hne⟩

theorem first_disciplined : ∀ choices : List Term, Tidy (attemptFirst choices)
  | [] => fun c a h => by
    simp only [attemptFirst, pure_eq_ok] at h
    subst h
    exact .unmatched_here rfl
  | t :: ts => fun c a h => by
    simp only [attemptFirst] at h
    obtain ⟨a₁, ha₁, h⟩ := bind_eq_ok.1 h
    have d₁ := attempt_disciplined t c a₁ ha₁
    split at h
    · next hu =>
      obtain ⟨a₂, ha₂, h⟩ := bind_eq_ok.1 h
      simp only [pure_eq_ok] at h
      subst h
      exact d₁.after_unmatched hu (first_disciplined ts a₁.cursor a₂ ha₂)
    · simp only [pure_eq_ok] at h
      subst h
      exact d₁

theorem content_committed : ∀ (ts : List Term) (c : Cursor) (a : Attempt),
    attemptContent ts c = .ok a → Committed c a
  | [], c, a, h => by
    simp only [attemptContent, pure_eq_ok] at h
    subst h
    exact .matched_empty
  | t :: ts, c, a, h => by
    simp only [attemptContent] at h
    obtain ⟨a₁, ha₁, h⟩ := bind_eq_ok.1 h
    have d₁ := attempt_disciplined t c a₁ ha₁
    split at h
    · next hm =>
      obtain ⟨a₂, ha₂, h⟩ := bind_eq_ok.1 h
      simp only [pure_eq_ok] at h
      subst h
      exact .after_matched d₁ hm (attempt_forward ha₁) (content_committed ts a₁.cursor a₂ ha₂)
        (content_reaches readClosed_forward ts a₁.cursor a₂ ha₂)
    · next why ho =>
      simp only [pure_eq_ok] at h
      subst h
      exact ⟨by simp, fun hm => by simp [ho, Outcome.mapFailure] at hm⟩

end

theorem attempt_stays {t : Term} {c : Cursor} {a : Attempt} (h : t.attempt c = .ok a)
    (hq : a.outcome = .failed .unmatched ∨ a.outcome = .matched ∧ a.cursor.offset = c.offset) :
    a.written = .empty ∧ a.cursor.offset = c.offset ∧ c.Forward a.cursor := by
  have d := attempt_disciplined t c a h
  have ho : a.cursor.offset = c.offset := hq.elim d.unmatched_offset And.right
  exact ⟨d.silent (hq.imp_right And.left) ho, ho, attempt_forward h⟩

/-- A term that does not apply, or that matches without moving, leaves no trace: it writes
nothing, and the cursor it leaves is the one it began at, but for a fault that a strict cursor
may have recorded where it stands. -/
theorem attempt_leaves_no_trace {t : Term} {c : Cursor} {a : Attempt} (h : t.attempt c = .ok a)
    (hq : a.outcome = .failed .unmatched ∨ a.outcome = .matched ∧ a.cursor.offset = c.offset) :
    a.written = .empty ∧ a.cursor = { c with fault := a.cursor.fault } ∧
      (a.cursor.fault = c.fault ∨ c.fault = none ∧ c.policy = .strict) := by
  obtain ⟨hw, ho, f⟩ := attempt_stays h hq
  exact ⟨hw, f.eq_of_offset_eq ho, f.fault_eq⟩

/-- A scalar that meets an invalid byte on a strict cursor does not apply, and records the
byte as the cursor's fault. -/
theorem scalar_on_invalid_byte_leaves_no_trace :
    (Term.scalar 'a').attempt (Cursor.init [0xFF] .strict ⟨1, 0⟩) =
        .ok (.failed .unmatched ⟨[0xFF], 0, ⟨1, 0⟩, .strict, some ⟨0, ⟨1, 0⟩, 1⟩⟩ .empty) ∧
      (⟨[0xFF], 0, ⟨1, 0⟩, .strict, some ⟨0, ⟨1, 0⟩, 1⟩⟩ : Cursor) =
        { Cursor.init [0xFF] .strict ⟨1, 0⟩ with fault := some ⟨0, ⟨1, 0⟩, 1⟩ } ∧
      (some (⟨0, ⟨1, 0⟩, 1⟩ : Utf8Fault) = (Cursor.init [0xFF] .strict ⟨1, 0⟩).fault ∨
        (Cursor.init [0xFF] .strict ⟨1, 0⟩).fault = none ∧
          (Cursor.init [0xFF] .strict ⟨1, 0⟩).policy = .strict) :=
  have h : (Term.scalar 'a').attempt (Cursor.init [0xFF] .strict ⟨1, 0⟩) =
      .ok (.failed .unmatched ⟨[0xFF], 0, ⟨1, 0⟩, .strict, some ⟨0, ⟨1, 0⟩, 1⟩⟩ .empty) := by rfl
  ⟨h, (attempt_leaves_no_trace h (.inl rfl)).2⟩

end Lexer
