import Mathlib
import Lexer.Proofs.Origin
import Lexer.Proofs.Reading
/-! # Counting a text at once

`Position.advanceText` lands where stepping over the text one scalar at a time does, and overflows
where stepping does (`advanceText_agrees_with_stepping`). The converse fails: the count at once
never forms the columns before the text's last line feed.
-/

namespace Lexer.Position

/-- Both counts fit in 32 bits. -/
def InRange (p : Position) : Prop := p.line ≤ maxCount ∧ p.column ≤ maxCount

theorem advance_inRange {p q : Position} {ch : Char} (hp : p.InRange) (h : p.advance ch = .ok q) :
    q.InRange := by
  unfold advance at h
  obtain ⟨hl, hc⟩ := hp
  split at h
  · obtain ⟨n, hn, hq⟩ := bind_eq_ok.1 h
    rw [bumpCount_eq_ok] at hn
    simp only [pure_eq_ok] at hq
    subst hq
    exact ⟨by dsimp only; omega, Nat.zero_le _⟩
  · obtain ⟨n, hn, hq⟩ := bind_eq_ok.1 h
    rw [bumpCount_eq_ok] at hn
    simp only [pure_eq_ok] at hq
    subst hq
    exact ⟨hl, by dsimp only; omega⟩

/-- Stepping that succeeds from a position in range lands where the unchecked fold does, in
range. -/
theorem foldlM_advance_eq_ok {p q : Position} {cs : List Char} (hp : p.InRange)
    (h : cs.foldlM Position.advance p = .ok q) : q = p.along cs ∧ q.InRange := by
  induction cs generalizing p with
  | nil =>
    cases h
    exact ⟨rfl, hp⟩
  | cons ch cs ih =>
    rw [List.foldlM_cons] at h
    obtain ⟨p', hp', h⟩ := bind_eq_ok.1 h
    rw [along_cons, ← advance_eq_ok hp']
    exact ih (advance_inRange hp hp') h

theorem foldlM_advance_error {p : Position} {cs : List Char} {e : Halt}
    (h : cs.foldlM Position.advance p = .error e) : e = .countOverflow := by
  induction cs generalizing p with
  | nil => cases h
  | cons ch cs ih =>
    rw [List.foldlM_cons] at h
    rcases advance_ok_or_overflow p ch with hp | hp <;> rw [hp] at h
    · exact ih h
    · cases h
      rfl

theorem foldlM_advance_of_fits {p : Position} {cs : List Char} (h : p.Fits cs) :
    cs.foldlM Position.advance p = .ok (p.along cs) := by
  induction cs generalizing p with
  | nil => rfl
  | cons ch cs ih =>
    obtain ⟨h₁, h₂⟩ := Fits.append (show p.Fits ([ch] ++ cs) from h)
    rw [List.foldlM_cons, h₁.advance, along_cons]
    exact ih h₂

theorem advanceText_of_inRange {p : Position} {s : String} (h : (p.along s.toList).InRange) :
    p.advanceText s = .ok (p.along s.toList) := by
  unfold advanceText
  dsimp only
  rw [along_eq] at h ⊢
  obtain ⟨hl, hc⟩ := h
  split
  · next hn =>
    rw [if_pos hn] at hl hc
    simp [bumpCount, hc, bind, Except.bind, pure, Except.pure]
  · next hn =>
    rw [if_neg hn] at hl hc
    simp [bumpCount, hl, bind, Except.bind, pure, Except.pure]

theorem foldlM_advance_of_advanceText {p q : Position} {s : String} (hp : p.InRange)
    (hn : '\n' ∉ s.toList) (h : p.advanceText s = .ok q) :
    s.toList.foldlM Position.advance p = .ok q := by
  have hcount : s.toList.count '\n' = 0 := List.count_eq_zero.2 hn
  have hc : p.column + s.toList.length ≤ maxCount := by
    unfold advanceText at h
    dsimp only at h
    rw [if_pos hcount] at h
    obtain ⟨n, hn, -⟩ := bind_eq_ok.1 h
    exact (bumpCount_eq_ok.1 hn).1
  rw [advanceText_eq_ok h]
  exact foldlM_advance_of_fits ⟨by rw [hcount]; exact hp.1, hc⟩

/-- Counting a text at once agrees with stepping over it one scalar at a time, from every position
in range: wherever stepping succeeds, counting at once lands on the same position; wherever
counting at once overflows, stepping overflows too; and where counting at once succeeds, it lands
where the unchecked fold does, and stepping either lands there as well or overflows a column
before a line feed of the text. -/
theorem advanceText_agrees_with_stepping {p : Position} (hp : p.InRange) (s : String) :
    (∀ q, s.toList.foldlM Position.advance p = .ok q → p.advanceText s = .ok q) ∧
    (∀ e, p.advanceText s = .error e →
      e = .countOverflow ∧ s.toList.foldlM Position.advance p = .error .countOverflow) ∧
    (∀ q, p.advanceText s = .ok q → q = p.along s.toList ∧
      (s.toList.foldlM Position.advance p = .ok q ∨
        '\n' ∈ s.toList ∧ s.toList.foldlM Position.advance p = .error .countOverflow)) := by
  have stepped : ∀ q, s.toList.foldlM Position.advance p = .ok q → p.advanceText s = .ok q := by
    intro q h
    obtain ⟨rfl, hq⟩ := foldlM_advance_eq_ok hp h
    exact advanceText_of_inRange hq
  refine ⟨stepped, fun e h => ?_, fun q h => ⟨advanceText_eq_ok h, ?_⟩⟩
  · have he : e = .countOverflow := by
      rcases advanceText_ok_or_overflow p s with h' | h' <;> rw [h'] at h <;> cases h
      rfl
    refine ⟨he, ?_⟩
    cases hf : s.toList.foldlM Position.advance p with
    | ok q =>
      rw [stepped q hf] at h
      cases h
    | error e' => rw [foldlM_advance_error hf]
  · by_cases hn : '\n' ∈ s.toList
    · cases hf : s.toList.foldlM Position.advance p with
      | ok q' =>
        rw [stepped q' hf, Except.ok.injEq] at h
        exact .inl (by rw [h])
      | error e => exact .inr ⟨hn, by rw [foldlM_advance_error hf]⟩
    · exact .inl (foldlM_advance_of_advanceText hp hn h)

/-- From the second to last column, the count at once crosses `ab` and a line feed to the start
of the next line, while stepping overflows the column at `b`. -/
theorem advanceText_skips_columns_before_line_feed :
    (Position.mk 0 (maxCount - 1)).advanceText "ab\n" = .ok ⟨1, 0⟩ ∧
      "ab\n".toList.foldlM Position.advance (Position.mk 0 (maxCount - 1)) =
        .error .countOverflow := by
  decide

/-- From the second to last column, the count at once and stepping agree on where `ab` and a line
feed lead, and stepping is the one that overflows. -/
theorem second_to_last_column_steps_over_line_feed :
    (Position.mk 0 (maxCount - 1)).InRange ∧
    ((∀ q, "ab\n".toList.foldlM Position.advance (Position.mk 0 (maxCount - 1)) = .ok q →
        (Position.mk 0 (maxCount - 1)).advanceText "ab\n" = .ok q) ∧
      (∀ e, (Position.mk 0 (maxCount - 1)).advanceText "ab\n" = .error e →
        e = .countOverflow ∧
          "ab\n".toList.foldlM Position.advance (Position.mk 0 (maxCount - 1)) =
            .error .countOverflow) ∧
      (∀ q, (Position.mk 0 (maxCount - 1)).advanceText "ab\n" = .ok q →
        q = (Position.mk 0 (maxCount - 1)).along "ab\n".toList ∧
        ("ab\n".toList.foldlM Position.advance (Position.mk 0 (maxCount - 1)) = .ok q ∨
          '\n' ∈ "ab\n".toList ∧
            "ab\n".toList.foldlM Position.advance (Position.mk 0 (maxCount - 1)) =
              .error .countOverflow))) :=
  have hp : (Position.mk 0 (maxCount - 1)).InRange := ⟨by decide, by decide⟩
  ⟨hp, advanceText_agrees_with_stepping hp "ab\n"⟩

end Lexer.Position
