import Mathlib
import Lexer.Proofs.Sink
import Lexer.Proofs.Discipline
import Lexer.Proofs.Policy
/-! # Derived forms

A nested sequence runs as its parts spliced into the outer one, `many1 t` as `t` then `many t`,
and `many t` as an optional `many1 t` and as `many (many t)` (`derived_forms_run_alike`). The
repetition laws rest on `attempt_repeats`: a term that ends where it began does so again there.
-/

namespace Lexer

open Cursor Attempt

/-! ## Cursors at the same place -/

/-- Two cursors at the same place of the same bytes, at the same position and under the same
policy; their faults may differ. -/
structure Cursor.SamePlace (c d : Cursor) : Prop where
  rest_eq : c.rest = d.rest
  offset_eq : c.offset = d.offset
  position_eq : c.position = d.position
  policy_eq : c.policy = d.policy

namespace Cursor.SamePlace

variable {c d : Cursor}

theorem of_eq_fault (h : d = { c with fault := d.fault }) : SamePlace c d := by
  rw [h]
  exact ⟨rfl, rfl, rfl, rfl⟩

theorem moved (h : SamePlace c d) (n : Nat) (p : Position) :
    SamePlace { c with rest := c.rest.drop n, offset := c.offset + n, position := p }
      { d with rest := d.rest.drop n, offset := d.offset + n, position := p } :=
  ⟨by rw [h.rest_eq], by rw [h.offset_eq], rfl, h.policy_eq⟩

theorem noteFault (h : SamePlace c d) (n : Nat) : SamePlace (c.noteFault n) (d.noteFault n) :=
  ⟨by simp [h.rest_eq], by simp [h.offset_eq], by simp [h.position_eq], by simp [h.policy_eq]⟩

theorem eq_of_fault_eq (h : SamePlace c d) (hf : c.fault = d.fault) : c = d := by
  obtain ⟨hr, ho, hp, hpol⟩ := h
  cases c
  cases d
  simp only [Cursor.mk.injEq] at *
  exact ⟨hr, ho, hp, hpol, hf⟩

/-- Every read is blind to the fault: cursors at the same place read alike and never halt apart. -/
theorem simulation : Simulation (fun _ => False) SamePlace where
  rest_eq h := h.rest_eq
  offset_eq h := h.offset_eq
  scan {c d} h := by
    unfold Cursor.scan
    rw [← h.rest_eq, ← h.policy_eq]
    split
    · exact ⟨rfl, h⟩
    · exact ⟨rfl, h⟩
    · split
      · exact ⟨rfl, h⟩
      · exact ⟨rfl, h.noteFault _⟩
  consume {c d ch w} _ h := by
    unfold Cursor.consume
    rw [← h.position_eq]
    refine (Sim.refl _).bind fun p q hpq => ?_
    subst hpq
    exact Sim.pure (h.moved w p)
  leap {c d s} h := by
    unfold Cursor.leap
    dsimp only
    rw [← h.rest_eq, ← h.position_eq]
    split
    · refine (Sim.refl _).bind fun p q hpq => ?_
      subst hpq
      have hm := h.moved (Utf8.encode s).length p
      rw [← h.rest_eq] at hm
      exact Sim.pure ⟨rfl, hm⟩
    · exact Sim.pure ⟨rfl, h⟩
  leapFetch {c d s p} h := by
    unfold Cursor.leapFetch
    dsimp only
    rw [← h.rest_eq, ← h.position_eq]
    split
    · split
      · next ch w _ =>
        split
        · refine (Sim.refl _).bind fun q₁ q₁' hq₁ => ?_
          subst hq₁
          refine (Sim.refl _).bind fun q q' hq => ?_
          subst hq
          have hm := h.moved ((Utf8.encode s).length + w) q
          rw [← h.rest_eq, ← Nat.add_assoc, ← Nat.add_assoc] at hm
          exact Sim.pure ⟨rfl, hm⟩
        · exact Sim.pure ⟨rfl, h⟩
      · exact Sim.pure ⟨rfl, h⟩
    · exact Sim.pure ⟨rfl, h⟩

end Cursor.SamePlace

/-! ## Reading within the bytes -/

/-- `c'` lies ahead of `c` within the same bytes: what it has read and what it has left add up to
what `c` had read and had left. -/
def Cursor.SameEnd (c c' : Cursor) : Prop := c'.offset + c'.rest.length = c.offset + c.rest.length

theorem readClosed_sameEnd : ReadClosed SameEnd where
  refl _ := rfl
  trans h₁ h₂ := h₂.trans h₁
  scan c := by
    rcases scan_snd c with h | ⟨-, n, h⟩ <;> rw [h] <;> simp [SameEnd]
  consume hs hc := by
    obtain ⟨p, -, rfl⟩ := consume_eq_ok.1 hc
    have := (scan_width hs).2
    simp only [SameEnd, List.length_drop]
    omega
  leap h := by
    rcases leap_eq_ok h with ⟨-, hp, p, -, rfl⟩ | ⟨-, -, rfl⟩
    · have := hp.length_le
      simp only [SameEnd, List.length_drop]
      omega
    · rfl
  leapFetch {c s p r c'} h := by
    rcases leapFetch_eq_ok h with ⟨ch, w, q₁, q, -, hp, hd, -, -, -, rfl⟩ | ⟨-, rfl⟩
    · have hpre := hp.length_le
      have hw := Utf8.decode_width_le (c.rest.drop (Utf8.encode s).length)
      rw [hd] at hw
      simp only [Utf8.Decoded.width, List.length_drop] at hw
      simp only [SameEnd, List.length_drop]
      omega
    · rfl

theorem attempt_sameEnd {t : Term} {c : Cursor} {a : Attempt} (h : t.attempt c = .ok a) :
    c.SameEnd a.cursor :=
  attempt_reaches readClosed_sameEnd t c a h

theorem offset_eq_of_length {c c' : Cursor} (hs : c.SameEnd c') (hf : c.Forward c')
    (hlt : ¬ c'.rest.length < c.rest.length) : c'.offset = c.offset := by
  have := hf.length_le
  unfold SameEnd at hs
  omega

/-! ## A term that stays repeats itself -/

theorem ok_bind {ε α β : Type} (a : α) (f : α → Except ε β) :
    (Except.ok a : Except ε α) >>= f = f a := rfl

theorem Attempt.Agree.eq_of_cursor_eq {S : Cursor → Cursor → Prop} {a b : Attempt}
    (h : a.Agree S b) (hc : a.cursor = b.cursor) : b = a := by
  obtain ⟨o, cur, w⟩ := a
  obtain ⟨o', cur', w'⟩ := b
  obtain ⟨ho, hw, -⟩ := h
  simp only at ho hw hc
  rw [ho, hw, hc]

/-- Attempted again where it ended without moving, `step` ends exactly as it did. -/
def Repeats (step : Step) : Prop :=
  ∀ c a, step c = .ok a → a.cursor.offset = c.offset → step a.cursor = .ok a

/-- A term that ends where it began, however it ended, does the same again from there. -/
theorem attempt_repeats (t : Term) : Repeats t.attempt := by
  intro c a h ho
  have f := attempt_forward h
  have hc := f.eq_of_offset_eq ho
  cases hfa : a.cursor.fault with
  | none =>
    have hcf : c.fault = none := by
      rcases f.fault_eq with e | ⟨e, -⟩
      · rw [← e, hfa]
      · exact e
    rw [hc, hfa, ← hcf]
    exact h
  | some g =>
    obtain ⟨b, hb, hab⟩ := (SamePlace.simulation.attempt t (SamePlace.of_eq_fault hc)).ok h
    have hbf : a.cursor.fault = b.cursor.fault := by
      rcases (attempt_forward hb).fault_eq with e | ⟨e, -⟩
      · exact e.symm
      · rw [hfa] at e
        cases e
    rw [hb, hab.eq_of_cursor_eq (hab.cursor.eq_of_fault_eq hbf)]

/-! ## Repetition -/

section Repetition

variable {step : Step}

@[simp] theorem Attempt.after_matched_empty (c : Cursor) (w : Capture) :
    (Attempt.matched c .empty).after w = .matched c w := by
  simp [Attempt.after, Attempt.matched]

theorem repeatStep_at_stop (ht : Tidy step) (hr : Repeats step) {c : Cursor} {a : Attempt}
    (h : step c = .ok a) (ho : a.cursor.offset = c.offset)
    (hq : a.outcome = .failed .unmatched ∨ a.outcome = .matched) :
    repeatStep step a.cursor = .ok (.matched a.cursor .empty) := by
  rw [repeatStep, hr c a h ho, ok_bind]
  have hw : a.written = .empty := (ht c a h).silent hq ho
  rcases hq with hu | hm
  · simp [hu, hw]
  · simp [hm, hw]

variable (ht : Tidy step) (hf : Respects Forward step) (hs : Respects SameEnd step)
  (hr : Repeats step)
include ht hf hs hr

theorem repeatStep_stalls {c : Cursor} {r : Attempt} (h : repeatStep step c = .ok r)
    (hm : r.outcome = .matched) : repeatStep step r.cursor = .ok (.matched r.cursor .empty) := by
  induction c using repeatStep.induct generalizing r with
  | _ c ih =>
    rw [repeatStep] at h
    obtain ⟨a, ha, h⟩ := bind_eq_ok.1 h
    have fa := hf c a ha
    split at h
    · next hma =>
      split at h
      · next hlt =>
        obtain ⟨r', hr', h⟩ := bind_eq_ok.1 h
        simp only [pure_eq_ok] at h
        subst h
        exact ih a hlt (r := r') hr' hm
      · next hlt =>
        simp only [pure_eq_ok] at h
        subst h
        exact repeatStep_at_stop ht hr (a := a) ha (offset_eq_of_length (hs c a ha) fa hlt) (.inr hma)
    · next hu =>
      simp only [pure_eq_ok] at h
      subst h
      exact repeatStep_at_stop ht hr (a := a) ha ((ht c a ha).unmatched_offset hu) (.inl hu)
    · next why hne hwhy =>
      simp only [pure_eq_ok] at h
      subst h
      rw [hwhy] at hm
      cases hm

/-- The unfolding law of a repetition: the step, then, after a match, the repetition again. The
check that the step moved is not needed, since a step that matched without moving matches
again at once. -/
theorem repeatStep_unfold (c : Cursor) :
    repeatStep step c = step c >>= fun a =>
      match a.outcome with
      | .matched => do return (← repeatStep step a.cursor).after a.written
      | .failed .unmatched => return .matched a.cursor a.written
      | .failed _ => return a := by
  rw [repeatStep]
  refine bind_congr_of_ok fun a ha => ?_
  obtain ⟨o, cur, w⟩ := a
  cases o with
  | matched =>
    dsimp only
    split
    · rfl
    · next hlt =>
      have ho := offset_eq_of_length (hs c _ ha) (hf c _ ha) hlt
      have hw : w = .empty := (ht c _ ha).silent (.inr rfl) ho
      rw [repeatStep_at_stop ht hr ha ho (.inr rfl), hw]
      rfl
  | failed why => cases why <;> rfl

/-- A repetition of a repetition is the repetition: the inner one stops only where its step
no longer moves on, and there the outer one stops too. -/
theorem repeatStep_repeatStep (c : Cursor) :
    repeatStep (repeatStep step) c = repeatStep step c := by
  rw [repeatStep.eq_1 (repeatStep step) c]
  conv_rhs => rw [← bind_pure (repeatStep step c)]
  refine bind_congr_of_ok fun r hr' => ?_
  have hc := repeatStep_committed ht hf hr'
  split
  · next hm =>
    have hrep : repeatStep (repeatStep step) r.cursor = .ok (.matched r.cursor .empty) := by
      rw [repeatStep, repeatStep_stalls ht hf hs hr hr' hm, ok_bind]
      simp
    obtain ⟨o, cur, w⟩ := r
    simp only at hm hrep
    subst hm
    split
    · rw [hrep, ok_bind]
      exact congrArg pure (Attempt.after_matched_empty cur w)
    · rfl
  · next hu => exact absurd hu hc.ne_unmatched
  · rfl

end Repetition

/-! ## Sequences -/

theorem Outcome.cases (o : Outcome) :
    o = .matched ∨ o = .failed .unmatched ∨ ∃ f, o = .failed f ∧ f ≠ .unmatched := by
  rcases o with _ | f
  · exact .inl rfl
  · by_cases hf : f = .unmatched
    · exact .inr (.inl (by rw [hf]))
    · exact .inr (.inr ⟨f, rfl, hf⟩)

/-- What a sequence begun at `start` does once a part has ended with `a`: after a match the parts
`ts` follow; a part that does not apply leaves the sequence unmatched where it began and
incomplete past it; a hard failure ends it. -/
def seqAfter (start : Nat) (ts : List Term) (a : Attempt) : Except Halt Attempt :=
  match a.outcome with
  | .matched => return (← attemptSeq start ts a.cursor).after a.written
  | .failed .unmatched =>
    let why := if a.cursor.offset = start then Failure.unmatched else .incomplete
    return .failed why a.cursor a.written
  | .failed _ => return a

theorem attemptSeq_cons (start : Nat) (t : Term) (ts : List Term) (c : Cursor) :
    attemptSeq start (t :: ts) c = t.attempt c >>= seqAfter start ts := by
  rw [attemptSeq]
  rfl

section SeqAfter

variable {start : Nat} {ts : List Term} {a : Attempt}

theorem seqAfter_matched (h : a.outcome = .matched) :
    seqAfter start ts a = attemptSeq start ts a.cursor >>= fun r => pure (r.after a.written) := by
  rw [seqAfter, h]

theorem seqAfter_unmatched (h : a.outcome = .failed .unmatched) :
    seqAfter start ts a =
      pure (.failed (if a.cursor.offset = start then .unmatched else .incomplete) a.cursor
        a.written) := by
  rw [seqAfter, h]

theorem seqAfter_hard {f : Failure} (h : a.outcome = .failed f) (hf : f ≠ .unmatched) :
    seqAfter start ts a = pure a := by
  rw [seqAfter, h]
  cases f
  · exact absurd rfl hf
  all_goals rfl

end SeqAfter

theorem seqAfter_after (start : Nat) (ts : List Term) (w : Capture) (a : Attempt) :
    seqAfter start ts (a.after w) = seqAfter start ts a >>= fun r => pure (r.after w) := by
  rcases Outcome.cases a.outcome with hm | hu | ⟨f, hh, hf⟩
  · rw [seqAfter_matched hm, seqAfter_matched (by simpa using hm), bind_assoc]
    simp [Attempt.after, Capture.append_assoc]
  · rw [seqAfter_unmatched hu, seqAfter_unmatched (by simpa using hu), pure_bind]
    rfl
  · rw [seqAfter_hard hh hf, seqAfter_hard (by simpa using hh) hf, pure_bind]

/-- A sequence begun at `s'` inside one begun at `start`, followed by the outer parts `zs`, runs
as its parts followed by `zs`: a part that does not apply where the inner sequence began leaves it
unmatched, which the outer one judges from its own start; one that does not apply past it leaves
it incomplete, and so does the outer one, which began no later. -/
theorem attemptSeq_nested (start : Nat) (zs : List Term) :
    ∀ (ys : List Term) {s' : Nat} {c : Cursor}, start ≤ s' → s' ≤ c.offset →
      attemptSeq s' ys c >>= seqAfter start zs = attemptSeq start (ys ++ zs) c
  | [], s', c, _, _ => by
    rw [attemptSeq, List.nil_append, pure_bind, seqAfter_matched rfl]
    conv_rhs => rw [← bind_pure (attemptSeq start zs c)]
    exact bind_congr_of_ok fun r _ => rfl
  | y :: ys, s', c, h₁, h₂ => by
    rw [attemptSeq_cons, List.cons_append, attemptSeq_cons, bind_assoc]
    refine bind_congr_of_ok fun a ha => ?_
    have hle := (attempt_forward ha).offset_le
    rcases Outcome.cases a.outcome with hm | hu | ⟨f, hh, hf⟩
    · rw [seqAfter_matched hm, seqAfter_matched hm, bind_assoc]
      simp only [pure_bind, seqAfter_after]
      rw [← attemptSeq_nested start zs ys h₁ (by omega), bind_assoc]
    · rw [seqAfter_unmatched hu, seqAfter_unmatched hu, pure_bind]
      by_cases hs : a.cursor.offset = s'
      · rw [if_pos hs, seqAfter_unmatched rfl]
        rfl
      · have hne : a.cursor.offset ≠ start := by omega
        rw [if_neg hs, if_neg hne, seqAfter_hard rfl (by simp)]
    · rw [seqAfter_hard hh hf, seqAfter_hard hh hf, pure_bind, seqAfter_hard hh hf]

theorem attemptSeq_splice (start : Nat) (ys zs : List Term) :
    ∀ (xs : List Term) {c : Cursor}, start ≤ c.offset →
      attemptSeq start (xs ++ Term.seq ys :: zs) c = attemptSeq start (xs ++ ys ++ zs) c
  | [], c, h => by
    rw [List.nil_append, List.nil_append, attemptSeq_cons, Term.attempt]
    exact attemptSeq_nested start zs ys h (Nat.le_refl _)
  | x :: xs, c, h => by
    rw [List.cons_append, List.cons_append, List.cons_append, attemptSeq_cons, attemptSeq_cons]
    refine bind_congr_of_ok fun a ha => ?_
    have hle := (attempt_forward ha).offset_le
    rcases Outcome.cases a.outcome with hm | hu | ⟨f, hh, hf⟩
    · rw [seqAfter_matched hm, seqAfter_matched hm, attemptSeq_splice start ys zs xs (by omega)]
    · rw [seqAfter_unmatched hu, seqAfter_unmatched hu]
    · rw [seqAfter_hard hh hf, seqAfter_hard hh hf]

theorem attemptSeq_single (start : Nat) {t : Term} {c : Cursor}
    (h : ∀ a, t.attempt c = .ok a → a.outcome ≠ .failed .unmatched) :
    attemptSeq start [t] c = t.attempt c := by
  rw [attemptSeq_cons]
  conv_rhs => rw [← bind_pure (t.attempt c)]
  refine bind_congr_of_ok fun a ha => ?_
  rcases Outcome.cases a.outcome with hm | hu | ⟨f, hh, hf⟩
  · rw [seqAfter_matched hm, attemptSeq, pure_bind]
    obtain ⟨o, cur, w⟩ := a
    simp only at hm
    rw [hm, Attempt.after_matched_empty]
    rfl
  · exact absurd hu (h a ha)
  · rw [seqAfter_hard hh hf]

/-! ## The laws -/

section Terms

variable (t : Term) (c : Cursor)

/-- A sequence nested in a sequence runs as its parts spliced into the outer one. -/
theorem seq_splice (xs ys zs : List Term) :
    (Term.seq (xs ++ [Term.seq ys] ++ zs)).attempt c = (Term.seq (xs ++ ys ++ zs)).attempt c := by
  rw [Term.attempt, Term.attempt, List.append_assoc, List.singleton_append]
  exact attemptSeq_splice c.offset ys zs xs (Nat.le_refl _)

theorem many_eq : (Term.many t).attempt = repeatStep t.attempt := by
  funext c
  rw [Term.attempt]

theorem many_ne_unmatched {a : Attempt} (h : (Term.many t).attempt c = .ok a) :
    a.outcome ≠ .failed .unmatched := by
  rw [many_eq] at h
  exact (repeatStep_committed (attempt_disciplined t) (fun _ _ => attempt_forward) h).ne_unmatched

theorem many_unfold :
    (Term.many t).attempt c = t.attempt c >>= fun a =>
      match a.outcome with
      | .matched => do return (← (Term.many t).attempt a.cursor).after a.written
      | .failed .unmatched => return .matched a.cursor a.written
      | .failed _ => return a := by
  rw [many_eq]
  exact repeatStep_unfold (attempt_disciplined t) (fun _ _ => attempt_forward)
    (fun _ _ => attempt_sameEnd) (attempt_repeats t) c

/-- One or more is the term followed by none or more. -/
theorem many1_eq_seq : (Term.many1 t).attempt c = (Term.seq [t, Term.many t]).attempt c := by
  rw [Term.attempt, Term.attempt, attemptSeq_cons]
  refine bind_congr_of_ok fun a ha => ?_
  rcases Outcome.cases a.outcome with hm | hu | ⟨f, hh, hf⟩
  · rw [seqAfter_matched hm, attemptSeq_single _ fun r hr => many_ne_unmatched t _ hr, hm,
      many_eq]
  · have ho := (attempt_disciplined t c a ha).unmatched_offset hu
    rw [seqAfter_unmatched hu, if_pos ho, hu]
    obtain ⟨o, cur, w⟩ := a
    simp only at hu
    rw [hu]
    rfl
  · rw [seqAfter_hard hh hf, hh]

/-- None or more is an optional one or more. -/
theorem many_eq_optional_many1 :
    (Term.many t).attempt c = (Term.optional (Term.many1 t)).attempt c := by
  rw [many_unfold, Term.attempt, Term.attempt, bind_assoc]
  refine bind_congr_of_ok fun a ha => ?_
  rcases Outcome.cases a.outcome with hm | hu | ⟨f, hh, hf⟩
  · simp only [hm, bind_assoc, pure_bind]
    refine bind_congr_of_ok fun r hr => ?_
    have hne := many_ne_unmatched t _ hr
    rcases Outcome.cases r.outcome with hm' | hu' | ⟨f', hh', -⟩
    · simp [hm']
    · exact absurd hu' hne
    · rcases f' with _ | _ | _ | _ | _ | _
      · exact absurd hh' hne
      all_goals simp [hh']
  · simp [hu]
  · rcases f with _ | _ | _ | _ | _ | _
    · exact absurd rfl hf
    all_goals simp [hh]

/-- None or more of none or more is none or more. -/
theorem many_many : (Term.many (Term.many t)).attempt c = (Term.many t).attempt c := by
  rw [many_eq, many_eq]
  exact repeatStep_repeatStep (attempt_disciplined t) (fun _ _ => attempt_forward)
    (fun _ _ => attempt_sameEnd) (attempt_repeats t) c

end Terms

/-- The combinators keep their derived-form laws: a sequence nested in a sequence runs as its
parts spliced into the outer one, one or more as the term followed by none or more, and none or
more as an optional one or more and as none or more of none or more. Each pair runs exactly
alike from every cursor into every sink: the same outcome, cursor and sink, or the same halt. -/
theorem derived_forms_run_alike (xs ys zs : List Term) (t : Term) (c : Cursor)
    (sink : Option Capture) :
    (Term.seq (xs ++ [Term.seq ys] ++ zs)).attemptInto c sink =
        (Term.seq (xs ++ ys ++ zs)).attemptInto c sink ∧
      (Term.many1 t).attemptInto c sink = (Term.seq [t, Term.many t]).attemptInto c sink ∧
      (Term.many t).attemptInto c sink = (Term.optional (Term.many1 t)).attemptInto c sink ∧
      (Term.many t).attemptInto c sink = (Term.many (Term.many t)).attemptInto c sink := by
  simp only [attemptInto_eq]
  exact ⟨by rw [seq_splice], by rw [many1_eq_seq], by rw [many_eq_optional_many1],
    by rw [many_many]⟩

end Lexer
