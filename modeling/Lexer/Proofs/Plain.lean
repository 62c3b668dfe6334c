import Mathlib
import Lexer.Proofs.Discipline
import Lexer.Proofs.Sink
import Lexer.Proofs.Units
/-! # Plain terms write what they read

A plain term reads scalars and literals and only sequences, chooses and repeats such reads
(`Term.Plain`). When it matches it has written the bytes it moved past, each invalid span that a
lenient cursor read written as U+FFFD (`plain_terms_write_what_they_read`).
-/

namespace Lexer

open Utf8 Cursor

namespace Utf8

/-- The bytes as a lenient reader passes them on: the scalar of each unit encoded again, so that
a well-formed scalar stays as it is and each invalid span becomes the encoding of U+FFFD. -/
def replaceInvalid (bytes : List UInt8) : List UInt8 :=
  ((units bytes).map Decoded.reading).flatMap String.utf8EncodeChar

example : replaceInvalid [0x61, 0xFF, 0x80, 0x62] = [0x61, 0xEF, 0xBF, 0xBD, 0x62] := by cbv

theorem replaceInvalid_encode (s : String) : replaceInvalid (encode s) = encode s := by
  have h := units_encode_append s []
  rw [List.append_nil, units_nil, List.append_nil] at h
  have hid : Decoded.reading ∘ scalarUnit = id := rfl
  rw [replaceInvalid, h, List.map_map, hid, List.map_id]
  rfl

end Utf8

namespace Cursor

/-- `c'` stands past the units `us` of the bytes ahead of `c`. -/
structure Passes (c : Cursor) (us : List Decoded) (c' : Cursor) : Prop where
  units_eq : units c.rest = us ++ units c'.rest
  rest_eq : c'.rest = c.rest.drop (us.map Decoded.width).sum
  offset_eq : c'.offset = c.offset + (us.map Decoded.width).sum

variable {c c' c₁ : Cursor} {us vs : List Decoded}

namespace Passes

theorem nil (hr : c'.rest = c.rest) (ho : c'.offset = c.offset) : c.Passes [] c' :=
  ⟨by simp [hr], by simp [hr], by simp [ho]⟩

theorem of_forward (f : c.Forward c') (ho : c'.offset = c.offset) : c.Passes [] c' :=
  nil (by rw [f.rest_eq, ho, Nat.sub_self, List.drop_zero]) ho

theorem trans (h₁ : c.Passes us c₁) (h₂ : c₁.Passes vs c') : c.Passes (us ++ vs) c' where
  units_eq := by rw [h₁.units_eq, h₂.units_eq, List.append_assoc]
  rest_eq := by simp [h₂.rest_eq, h₁.rest_eq, List.drop_drop]
  offset_eq := by simp [h₂.offset_eq, h₁.offset_eq, Nat.add_assoc]

theorem units_take (h : c.Passes us c') : units (c.rest.take (c'.offset - c.offset)) = us := by
  have hn : c'.offset - c.offset = (us.map Decoded.width).sum := by
    rw [h.offset_eq]
    omega
  rw [hn]
  exact units_take_of_units_eq (h.rest_eq ▸ h.units_eq) rfl

theorem consume {ch : Char} {w : Nat} (hs : c.scan = (some (ch, w), c))
    (hc : c.consume ch w = .ok c') :
    c.Passes [decode c.rest] c' ∧ (decode c.rest).reading = ch := by
  obtain ⟨-, hd⟩ := scan_eq_some hs
  have hw : (decode c.rest).width = w ∧ (decode c.rest).reading = ch := by
    rcases hd with hd | ⟨hd, -, rfl⟩ <;> simp [hd, Decoded.width]
  have hne : c.rest ≠ [] := fun h0 => by simp [h0] at hd
  obtain ⟨p, -, rfl⟩ := consume_eq_ok.1 hc
  refine ⟨⟨?_, ?_, ?_⟩, hw.2⟩
  · rw [units_eq_cons hne, hw.1]
    rfl
  · simp [hw.1]
  · simp [hw.1]

theorem leap {s : String} (h : c.leap s = .ok (true, c')) :
    c.Passes (s.toList.map scalarUnit) c' := by
  rcases leap_eq_ok h with ⟨-, ⟨t, ht⟩, p, -, rfl⟩ | ⟨hb, -⟩
  · refine ⟨?_, ?_, ?_⟩
    · simp [← ht, units_encode_append]
    · simp only [sum_width_scalarUnits]
    · simp only [sum_width_scalarUnits]
  · cases hb

theorem hop {ch : Char} (h : c.hop ch = .ok (true, c')) :
    c.Passes [decode c.rest] c' ∧ (decode c.rest).reading = ch := by
  unfold Cursor.hop at h
  split at h
  · next got w c₁ hs =>
    obtain ⟨rfl, -⟩ := scan_eq_some hs
    split at h
    · next hg =>
      obtain ⟨c₂, hc₂, h⟩ := bind_eq_ok.1 h
      simp only [pure_eq_ok, Prod.mk.injEq] at h
      obtain ⟨-, rfl⟩ := h
      obtain ⟨hp, hr⟩ := consume hs hc₂
      exact ⟨hp, hr.trans hg⟩
    · simp at h
  · simp at h

theorem fetch {p : Char → Bool} {ch : Char} (h : c.fetch p = .ok (some ch, c')) :
    c.Passes [decode c.rest] c' ∧ (decode c.rest).reading = ch := by
  unfold Cursor.fetch at h
  split at h
  · next got w c₁ hs =>
    obtain ⟨rfl, -⟩ := scan_eq_some hs
    split at h
    · obtain ⟨c₂, hc₂, h⟩ := bind_eq_ok.1 h
      simp only [pure_eq_ok, Prod.mk.injEq, Option.some.injEq] at h
      obtain ⟨rfl, rfl⟩ := h
      exact consume hs hc₂
    · simp at h
  · simp at h

theorem skipRun {p : Char → Bool} {r : List Char × Option Char} (h : c.skipRun p = .ok (r, c')) :
    ∃ us, c.Passes us c' ∧ us.map Decoded.reading = r.1 := by
  induction c using Cursor.skipRun.induct p generalizing r c' with
  | case1 c ch w c₁ hs hp ih =>
    rw [Cursor.skipRun, hs] at h
    obtain ⟨rfl, -⟩ := scan_eq_some hs
    simp only [hp, if_true] at h
    obtain ⟨c₂, hc₂, h⟩ := bind_eq_ok.1 h
    obtain ⟨hstep, hread⟩ := consume hs hc₂
    split at h
    · next hlt =>
      obtain ⟨⟨⟨run, stop⟩, c₃⟩, hc₃, h⟩ := bind_eq_ok.1 h
      simp only [pure_eq_ok, Prod.mk.injEq] at h
      obtain ⟨rfl, rfl⟩ := h
      obtain ⟨vs, hvs, hrun⟩ := ih c₂ hlt hc₃
      exact ⟨_, hstep.trans hvs, by simp [hread, hrun]⟩
    · simp only [pure_eq_ok, Prod.mk.injEq] at h
      obtain ⟨rfl, rfl⟩ := h
      exact ⟨_, hstep, by simp [hread]⟩
  | case2 c ch w c₁ hs hp =>
    rw [Cursor.skipRun, hs] at h
    obtain ⟨rfl, -⟩ := scan_eq_some hs
    simp only [hp, if_false, Bool.false_eq_true, pure_eq_ok, Prod.mk.injEq] at h
    obtain ⟨rfl, rfl⟩ := h
    exact ⟨[], nil rfl rfl, rfl⟩
  | case3 c c₁ hs =>
    rw [Cursor.skipRun, hs] at h
    simp only [pure_eq_ok, Prod.mk.injEq] at h
    obtain ⟨rfl, rfl⟩ := h
    have : c₁ = c.scan.2 := by rw [hs]
    exact ⟨[], this ▸ of_forward (readClosed_forward.scan c) (scan_snd_offset c), rfl⟩

end Passes

end Cursor

/-! ## Attempts that write what they pass -/

namespace Attempt

variable {c c' : Cursor} {a a₁ r : Attempt}

/-- An attempt begun at `c` that matched has written exactly the scalars of the units it passed,
each invalid span as U+FFFD. -/
def Transcribes (c : Cursor) (a : Attempt) : Prop :=
  a.outcome = .matched →
    ∃ us, c.Passes us a.cursor ∧ a.written = .ofChars (us.map Decoded.reading)

namespace Transcribes

theorem from_here {c₁ : Cursor} (hp : c.Passes [] c₁) (h : Transcribes c₁ a) :
    Transcribes c a := by
  intro hm
  obtain ⟨us, hus, hw⟩ := h hm
  exact ⟨us, hp.trans hus, hw⟩

theorem matched {us : List Decoded} {w : Capture} (hp : c.Passes us c')
    (hw : w = .ofChars (us.map Decoded.reading)) : Transcribes c (.matched c' w) :=
  fun _ => ⟨us, hp, hw⟩

theorem failed {f : Failure} {w : Capture} : Transcribes c (.failed f c' w) := by
  intro h
  cases h

theorem here (hp : c.Passes [] c') : Transcribes c (.matched c' .empty) :=
  matched hp rfl

/-- A part that matched, then the rest from where it left the cursor. -/
theorem after_matched (h₁ : Transcribes c a₁) (hm : a₁.outcome = .matched)
    (h₂ : Transcribes a₁.cursor r) : Transcribes c (r.after a₁.written) := by
  intro hr
  obtain ⟨us, hus, hw₁⟩ := h₁ hm
  obtain ⟨vs, hvs, hw₂⟩ := h₂ hr
  exact ⟨us ++ vs, hus.trans hvs, by simp [hw₁, hw₂, Capture.ofChars_append]⟩

theorem after_silent (hp : c.Passes [] a₁.cursor) (hw : a₁.written = .empty)
    (h₂ : Transcribes a₁.cursor r) : Transcribes c (r.after a₁.written) := by
  rw [hw]
  exact from_here hp h₂

end Transcribes

end Attempt

open Attempt

/-- Every match of `step` writes what it passed. -/
def Transcribing (step : Step) : Prop := ∀ c a, step c = .ok a → Transcribes c a

theorem Tidy.unmatched_passes_nothing {step : Step} (ht : Tidy step) (hf : Respects Forward step)
    {c : Cursor} {a : Attempt} (h : step c = .ok a) (hu : a.outcome = .failed .unmatched) :
    c.Passes [] a.cursor ∧ a.written = .empty :=
  have ho := (ht c a h).unmatched_offset hu
  ⟨Passes.of_forward (hf c a h) ho, (ht c a h).silent (.inl hu) ho⟩

/-- A term that does not apply passes nothing and writes nothing. -/
theorem attempt_unmatched_passes_nothing {t : Term} {c : Cursor} {a : Attempt}
    (h : t.attempt c = .ok a) (hu : a.outcome = .failed .unmatched) :
    c.Passes [] a.cursor ∧ a.written = .empty :=
  Tidy.unmatched_passes_nothing (attempt_disciplined t) (fun _ _ => attempt_forward) h hu

theorem ofChars_scalarUnits (s : String) :
    Capture.ofChars ((s.toList.map scalarUnit).map Decoded.reading) = .ofText s := by
  have hid : Decoded.reading ∘ scalarUnit = id := rfl
  rw [List.map_map, hid, List.map_id]
  rfl

/-! ## The primitive terms -/

theorem literal_transcribes (s : String) : Transcribing (Term.literal s).attempt := by
  intro c a h
  simp only [Term.attempt] at h
  obtain ⟨⟨ok, c₁⟩, hl, h⟩ := bind_eq_ok.1 h
  simp only [pure_eq_ok] at h
  subst h
  cases ok with
  | false => exact Transcribes.failed
  | true => exact Transcribes.matched (Passes.leap hl) (ofChars_scalarUnits s).symm

theorem scalar_transcribes (ch : Char) : Transcribing (Term.scalar ch).attempt := by
  intro c a h
  simp only [Term.attempt] at h
  obtain ⟨⟨ok, c₁⟩, hh, h⟩ := bind_eq_ok.1 h
  simp only [pure_eq_ok] at h
  subst h
  cases ok with
  | false => exact Transcribes.failed
  | true =>
    obtain ⟨hp, hr⟩ := Passes.hop hh
    exact Transcribes.matched hp (by simp [hr])

theorem scalarIn_transcribes (k : CharClass) : Transcribing (Term.scalarIn k).attempt := by
  intro c a h
  simp only [Term.attempt] at h
  obtain ⟨⟨r, c₁⟩, hf, h⟩ := bind_eq_ok.1 h
  cases r with
  | none =>
    simp only [pure_eq_ok] at h
    subst h
    exact Transcribes.failed
  | some ch =>
    simp only [pure_eq_ok] at h
    subst h
    obtain ⟨hp, hr⟩ := Passes.fetch hf
    exact Transcribes.matched hp (by simp [hr])

theorem word_transcribes (first more : CharClass) :
    Transcribing (Term.word first more).attempt := by
  intro c a h
  simp only [Term.attempt] at h
  obtain ⟨⟨r, c₁⟩, hf, h⟩ := bind_eq_ok.1 h
  cases r with
  | none =>
    simp only [pure_eq_ok] at h
    subst h
    exact Transcribes.failed
  | some ch =>
    obtain ⟨⟨⟨run, stop⟩, c₂⟩, hs, h⟩ := bind_eq_ok.1 h
    simp only [pure_eq_ok] at h
    subst h
    obtain ⟨hp₁, hr₁⟩ := Passes.fetch hf
    obtain ⟨us, hp₂, hr₂⟩ := Passes.skipRun hs
    exact Transcribes.matched (hp₁.trans hp₂) (by simp [hr₁, hr₂])

theorem endOfInput_transcribes : Transcribing Term.endOfInput.attempt := by
  intro c a h
  simp only [Term.attempt, pure_eq_ok] at h
  subst h
  split
  · exact Transcribes.here (Passes.nil rfl rfl)
  · exact Transcribes.failed

theorem endOfLine_transcribes : Transcribing Term.endOfLine.attempt := by
  intro c a h
  simp only [Term.attempt] at h
  obtain ⟨⟨fed, c₁⟩, hh, h⟩ := bind_eq_ok.1 h
  cases fed with
  | true =>
    simp only [if_true, pure_eq_ok] at h
    subst h
    obtain ⟨hp, hr⟩ := Passes.hop hh
    exact Transcribes.matched hp (by simp [hr]; rfl)
  | false =>
    have hp₁ : c.Passes [] c₁ :=
      Passes.of_forward (readClosed_forward.hop hh) ((hop_offset hh).2 rfl)
    simp only [Bool.false_eq_true, if_false] at h
    obtain ⟨⟨fed₂, c₂⟩, hl, h⟩ := bind_eq_ok.1 h
    cases fed₂ with
    | true =>
      simp only [if_true, pure_eq_ok] at h
      subst h
      exact Transcribes.matched (hp₁.trans (Passes.leap hl)) (ofChars_scalarUnits "\r\n").symm
    | false =>
      simp only [Bool.false_eq_true, if_false, pure_eq_ok] at h
      subst h
      obtain ⟨-, -, rfl⟩ := (leap_eq_ok hl).resolve_left (by simp)
      split
      · exact Transcribes.here hp₁
      · exact Transcribes.failed

theorem leapFirst_transcribes (c : Cursor) :
    ∀ (alts : List String) (a : Attempt), leapFirst c alts = .ok a → Transcribes c a
  | [], a, h => by
    simp only [leapFirst, pure_eq_ok] at h
    subst h
    exact Transcribes.failed
  | alt :: alts, a, h => by
    rw [leapFirst] at h
    obtain ⟨⟨ok, c₁⟩, hl, h⟩ := bind_eq_ok.1 h
    cases ok with
    | true =>
      simp only [if_true, pure_eq_ok] at h
      subst h
      exact Transcribes.matched (Passes.leap hl) (ofChars_scalarUnits alt).symm
    | false => exact leapFirst_transcribes c alts a h

theorem anyLiteral_transcribes (alts : List String) :
    Transcribing (Term.anyLiteral alts).attempt := by
  intro c a h
  simp only [Term.attempt, readAnyLiteral] at h
  have hp : c.Passes [] c.peek.2 :=
    Passes.of_forward (readClosed_forward.peek c) (peek_snd_offset c)
  split at h
  · simp only [pure_eq_ok] at h
    subst h
    exact Transcribes.failed
  · next first c₁ hpk =>
    rw [hpk] at hp
    exact Transcribes.from_here hp (leapFirst_transcribes c₁ _ a h)

/-! ## Sequences, choices and repetitions -/

section Combinators

variable {step : Step}

theorem seq_transcribes (start : Nat) :
    ∀ parts : List Term, (∀ t ∈ parts, Transcribing t.attempt) →
      Transcribing (attemptSeq start parts)
  | [], _, c, a, h => by
    simp only [attemptSeq, pure_eq_ok] at h
    subst h
    exact Transcribes.here (Passes.nil rfl rfl)
  | t :: ts, hall, c, a, h => by
    simp only [attemptSeq] at h
    obtain ⟨a₁, ha₁, h⟩ := bind_eq_ok.1 h
    have h₁ := hall t List.mem_cons_self c a₁ ha₁
    split at h
    · next hm =>
      obtain ⟨a₂, ha₂, h⟩ := bind_eq_ok.1 h
      simp only [pure_eq_ok] at h
      subst h
      exact h₁.after_matched hm
        (seq_transcribes start ts (fun t ht => hall t (List.mem_cons_of_mem _ ht)) _ a₂ ha₂)
    · simp only [pure_eq_ok] at h
      subst h
      exact Transcribes.failed
    · simp only [pure_eq_ok] at h
      subst h
      exact h₁

theorem first_transcribes :
    ∀ choices : List Term, (∀ t ∈ choices, Transcribing t.attempt) →
      Transcribing (attemptFirst choices)
  | [], _, c, a, h => by
    simp only [attemptFirst, pure_eq_ok] at h
    subst h
    exact Transcribes.failed
  | t :: ts, hall, c, a, h => by
    simp only [attemptFirst] at h
    obtain ⟨a₁, ha₁, h⟩ := bind_eq_ok.1 h
    split at h
    · next hu =>
      obtain ⟨a₂, ha₂, h⟩ := bind_eq_ok.1 h
      simp only [pure_eq_ok] at h
      subst h
      obtain ⟨hp, hw⟩ := attempt_unmatched_passes_nothing ha₁ hu
      exact Transcribes.after_silent hp hw
        (first_transcribes ts (fun t ht => hall t (List.mem_cons_of_mem _ ht)) _ a₂ ha₂)
    · simp only [pure_eq_ok] at h
      subst h
      exact hall t List.mem_cons_self c a₁ ha₁

theorem repeatStep_transcribes (ht : Tidy step) (hf : Respects Forward step)
    (hs : Transcribing step) : Transcribing (repeatStep step) := by
  intro c a h
  induction c using repeatStep.induct generalizing a with
  | _ c ih =>
    rw [repeatStep] at h
    obtain ⟨a₁, ha₁, h⟩ := bind_eq_ok.1 h
    have h₁ := hs c a₁ ha₁
    split at h
    · next hm =>
      split at h
      · next hlt =>
        obtain ⟨a₂, ha₂, h⟩ := bind_eq_ok.1 h
        simp only [pure_eq_ok] at h
        subst h
        exact h₁.after_matched hm (ih a₁ hlt a₂ ha₂)
      · simp only [pure_eq_ok] at h
        subst h
        obtain ⟨us, hp, hw⟩ := h₁ hm
        exact Transcribes.matched hp hw
    · next hu =>
      simp only [pure_eq_ok] at h
      subst h
      obtain ⟨hp, hw⟩ := Tidy.unmatched_passes_nothing ht hf ha₁ hu
      rw [hw]
      exact Transcribes.here hp
    · simp only [pure_eq_ok] at h
      subst h
      exact h₁

end Combinators

/-! ## Plain terms -/

/-- The terms that read scalars and literals and only sequence, choose and repeat such reads:
none of them decodes an escape, stands for something else, or discards what it read. -/
inductive Term.Plain : Term → Prop
  | literal (s : String) : Plain (.literal s)
  | scalar (ch : Char) : Plain (.scalar ch)
  | scalarIn (k : CharClass) : Plain (.scalarIn k)
  | word (first more : CharClass) : Plain (.word first more)
  | endOfInput : Plain .endOfInput
  | endOfLine : Plain .endOfLine
  | anyLiteral (alts : List String) : Plain (.anyLiteral alts)
  | seq {parts : List Term} : (∀ t ∈ parts, Plain t) → Plain (.seq parts)
  | firstOf {choices : List Term} : (∀ t ∈ choices, Plain t) → Plain (.firstOf choices)
  | optional {t : Term} : Plain t → Plain (.optional t)
  | many {t : Term} : Plain t → Plain (.many t)
  | many1 {t : Term} : Plain t → Plain (.many1 t)

/-- Every match of a plain term writes what it passed. -/
theorem Term.Plain.transcribing {t : Term} (ht : t.Plain) : Transcribing t.attempt := by
  induction ht with
  | literal s => exact literal_transcribes s
  | scalar ch => exact scalar_transcribes ch
  | scalarIn k => exact scalarIn_transcribes k
  | word first more => exact word_transcribes first more
  | endOfInput => exact endOfInput_transcribes
  | endOfLine => exact endOfLine_transcribes
  | anyLiteral alts => exact anyLiteral_transcribes alts
  | seq _ ih =>
    intro c a h
    exact seq_transcribes c.offset _ ih c a h
  | firstOf _ ih =>
    intro c a h
    exact first_transcribes _ ih c a h
  | @optional t _ ih =>
    intro c a h
    simp only [Term.attempt] at h
    obtain ⟨a₁, ha₁, h⟩ := bind_eq_ok.1 h
    split at h
    · next hu =>
      simp only [pure_eq_ok] at h
      subst h
      obtain ⟨hp, hw⟩ := attempt_unmatched_passes_nothing ha₁ hu
      rw [hw]
      exact Transcribes.here hp
    · simp only [pure_eq_ok] at h
      subst h
      exact ih c a₁ ha₁
  | @many t _ ih =>
    intro c a h
    simp only [Term.attempt] at h
    exact repeatStep_transcribes (attempt_disciplined t) (fun _ _ => attempt_forward) ih c a h
  | @many1 t _ ih =>
    intro c a h
    simp only [Term.attempt] at h
    obtain ⟨a₁, ha₁, h⟩ := bind_eq_ok.1 h
    split at h
    · next hm =>
      obtain ⟨a₂, ha₂, h⟩ := bind_eq_ok.1 h
      simp only [pure_eq_ok] at h
      subst h
      exact (ih c a₁ ha₁).after_matched hm (repeatStep_transcribes (attempt_disciplined t)
        (fun _ _ => attempt_forward) ih _ a₂ ha₂)
    · simp only [pure_eq_ok] at h
      subst h
      exact ih c a₁ ha₁

/-- A plain term that matches has written exactly the bytes it moved past, each invalid span
replaced by the encoding of U+FFFD, and no value; so where the bytes it moved past are
well-formed UTF-8 it has written them as they are. -/
theorem plain_terms_write_what_they_read {t : Term} (ht : t.Plain) {c : Cursor} {a : Attempt}
    (h : t.attempt c = .ok a) (hm : a.outcome = .matched) :
    a.cursor.rest = c.rest.drop (a.cursor.offset - c.offset) ∧
      a.written = ⟨replaceInvalid (c.rest.take (a.cursor.offset - c.offset)), []⟩ ∧
      ∀ s : String, c.rest.take (a.cursor.offset - c.offset) = encode s →
        a.written.text = encode s := by
  obtain ⟨us, hp, hw⟩ := ht.transcribing c a h hm
  have hwritten :
      a.written = ⟨replaceInvalid (c.rest.take (a.cursor.offset - c.offset)), []⟩ := by
    rw [hw, replaceInvalid, hp.units_take]
    rfl
  refine ⟨(attempt_forward h).rest_eq, hwritten, fun s hs => ?_⟩
  rw [hwritten, hs, replaceInvalid_encode]

/-- Any scalars, as often as they stand, over a letter, an invalid span of two bytes and a letter:
the span is written as the three bytes of U+FFFD. -/
theorem invalid_span_written_as_replacement :
    Term.Plain (.many (.scalarIn .univ)) ∧
      (Term.many (.scalarIn .univ)).attempt (Cursor.init [0x61, 0xFF, 0x80, 0x62] .lenient .start) =
        .ok (.matched ⟨[], 4, ⟨0, 3⟩, .lenient, none⟩
          ⟨[0x61, 0xEF, 0xBF, 0xBD, 0x62], []⟩) ∧
      (⟨[0x61, 0xEF, 0xBF, 0xBD, 0x62], []⟩ : Capture) =
        ⟨replaceInvalid ([0x61, 0xFF, 0x80, 0x62].take 4), []⟩ :=
  have hp : Term.Plain (.many (.scalarIn .univ)) := .many (.scalarIn .univ)
  have h : (Term.many (.scalarIn .univ)).attempt
      (Cursor.init [0x61, 0xFF, 0x80, 0x62] .lenient .start) =
        .ok (.matched ⟨[], 4, ⟨0, 3⟩, .lenient, none⟩
          ⟨[0x61, 0xEF, 0xBF, 0xBD, 0x62], []⟩) := by cbv
  ⟨hp, h, (plain_terms_write_what_they_read hp h rfl).2.1⟩

end Lexer
