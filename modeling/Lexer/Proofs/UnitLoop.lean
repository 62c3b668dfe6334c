import Mathlib
import Lexer.Proofs.Units
import Lexer.Proofs.Strict
import Lexer.Proofs.Counting
import Lexer.Proofs.Sink
import Lexer.Proofs.Laws
/-! # Loops that read unit by unit

A loop that looks for a terminator reads the bytes ahead one unit at a time (`UnitLoop`). Where
the terminator can only stand where a unit begins (`Utf8.Aligned`), the loop reaches its first
occurrence or is `unterminated` (`UnitLoop.result`).
-/

namespace Lexer

open Utf8 Cursor

/-- Whether a cursor of policy `pol` reads the unit `u`: a lenient cursor reads an invalid span as
U+FFFD, a strict one reads scalars only. -/
def Utf8Policy.Reads (pol : Utf8Policy) (u : Decoded) : Prop := pol = .lenient ∨ u.isScalar = true

instance (pol : Utf8Policy) (u : Decoded) : Decidable (pol.Reads u) :=
  inferInstanceAs (Decidable (_ ∨ _))

/-! ## Where a terminator can stand -/

namespace Utf8

/-- `k` is the first offset of `bytes` where the bytes after it satisfy `stop`. -/
def FirstAt (stop : List UInt8 → Prop) (bytes : List UInt8) (k : Nat) : Prop :=
  stop (bytes.drop k) ∧ ∀ i < k, ¬ stop (bytes.drop i)

/-- A condition on the bytes ahead that holds only where a unit can begin: at the end, or before
a byte that does not continue a unit. -/
def Aligned (stop : List UInt8 → Prop) : Prop :=
  ∀ x t, stop (x :: t) → isContinuation x = false

variable {stop : List UInt8 → Prop}

theorem Aligned.not_inside (ha : Aligned stop) {bs : List UInt8} {j : Nat} (hj : 0 < j)
    (hw : j < (decode bs).width) : ¬ stop (bs.drop j) := by
  obtain ⟨x, t, hx, hc⟩ := drop_inside_unit hj hw
  rw [hx]
  intro h
  rw [ha x t h] at hc
  cases hc

theorem Aligned.width_le (ha : Aligned stop) {bs : List UInt8} (hs : ¬ stop bs) {k : Nat}
    (hk : stop (bs.drop k)) : (decode bs).width ≤ k := by
  by_contra hlt
  rcases Nat.eq_zero_or_pos k with rfl | hpos
  · exact hs hk
  · exact ha.not_inside hpos (by omega) hk

/-- Past a first unit where an aligned condition does not hold, the first place where it does
lies in the bytes after the unit. -/
theorem Aligned.firstAt_iff (ha : Aligned stop) {bs : List UInt8} (hs : ¬ stop bs) {k : Nat} :
    FirstAt stop bs k ↔ (decode bs).width ≤ k ∧
      FirstAt stop (bs.drop (decode bs).width) (k - (decode bs).width) := by
  have hdrop : ∀ i, (bs.drop (decode bs).width).drop i = bs.drop ((decode bs).width + i) :=
    fun i => List.drop_drop ..
  constructor
  · rintro ⟨hk, hfirst⟩
    have hw := ha.width_le hs hk
    refine ⟨hw, by rwa [hdrop, Nat.add_sub_cancel' hw], fun i hi => ?_⟩
    rw [hdrop]
    exact hfirst _ (by omega)
  · rintro ⟨hw, hk, hfirst⟩
    rw [hdrop, Nat.add_sub_cancel' hw] at hk
    refine ⟨hk, fun i hi => ?_⟩
    rcases Nat.eq_zero_or_pos i with rfl | hpos
    · exact hs
    by_cases hiw : i < (decode bs).width
    · exact ha.not_inside hpos hiw
    · have := hfirst (i - (decode bs).width) (by omega)
      rwa [hdrop, Nat.add_sub_cancel' (by omega)] at this

theorem Aligned.exists_reads_iff (ha : Aligned stop) {bs : List UInt8} (hne : bs ≠ [])
    (hs : ¬ stop bs) (pol : Utf8Policy) :
    (∃ k, stop (bs.drop k) ∧ ∀ u ∈ unitsBefore bs k, pol.Reads u) ↔
      pol.Reads (decode bs) ∧ ∃ k, stop ((bs.drop (decode bs).width).drop k) ∧
        ∀ u ∈ unitsBefore (bs.drop (decode bs).width) k, pol.Reads u := by
  constructor
  · rintro ⟨k, hk, hr⟩
    have hw := ha.width_le hs hk
    rw [unitsBefore_of_width_le hne hw] at hr
    refine ⟨hr _ List.mem_cons_self, k - (decode bs).width, ?_,
      fun u hu => hr u (List.mem_cons_of_mem _ hu)⟩
    rwa [List.drop_drop, Nat.add_sub_cancel' hw]
  · rintro ⟨hu, k, hk, hr⟩
    have hw : (decode bs).width ≤ (decode bs).width + k := Nat.le_add_right ..
    refine ⟨(decode bs).width + k, by rwa [← List.drop_drop], ?_⟩
    rw [unitsBefore_of_width_le hne hw, Nat.add_sub_cancel_left]
    rintro v (_ | ⟨_, hv⟩)
    · exact hu
    · exact hr v hv

/-! ## Units up to an offset -/

theorem takeUnits_of_sum_le {us : List Decoded} {n : Nat} (h : (us.map Decoded.width).sum ≤ n) :
    takeUnits n us = us := by
  induction us generalizing n with
  | nil => rfl
  | cons u us ih =>
    simp only [List.map_cons, List.sum_cons] at h
    rw [takeUnits, if_pos (by omega), ih (by omega)]

theorem unitsBefore_of_length_le {bs : List UInt8} {n : Nat} (h : bs.length ≤ n) :
    unitsBefore bs n = units bs :=
  takeUnits_of_sum_le (by rw [sum_width_units]; exact h)

theorem unitsBefore_next {bs : List UInt8} {j : Nat} (hb : IsBoundary bs j)
    (hne : bs.drop j ≠ []) :
    unitsBefore bs (j + (decode (bs.drop j)).width) = unitsBefore bs j ++ [decode (bs.drop j)] ∧
      IsBoundary bs (j + (decode (bs.drop j)).width) := by
  have hunits := units_eq_unitsBefore_append hb
  rw [units_eq_cons hne, ← List.singleton_append, ← List.append_assoc] at hunits
  have hsum : ((unitsBefore bs j ++ [decode (bs.drop j)]).map Decoded.width).sum =
      j + (decode (bs.drop j)).width := by
    rw [List.map_append, List.sum_append, hb]
    simp
  have ht : unitsBefore bs (j + (decode (bs.drop j)).width) =
      unitsBefore bs j ++ [decode (bs.drop j)] := by
    conv_lhs => rw [unitsBefore, hunits]
    exact takeUnits_append hsum fun _ hv => width_pos_of_mem_units hv
  refine ⟨ht, ?_⟩
  rw [IsBoundary, ht]
  exact hsum

end Utf8

/-! ## One unit at a time -/

namespace Cursor

variable {d d' : Cursor}

theorem fetchAny_reads (hne : d.rest ≠ []) (hr : d.policy.Reads (decode d.rest)) :
    d.fetchAny = d.consume (decode d.rest).reading (decode d.rest).width >>= fun d' =>
      pure (some (decode d.rest).reading, d') := by
  unfold fetchAny fetch scan
  obtain ⟨b, t, hbt⟩ := List.exists_cons_of_ne_nil hne
  rcases decode_cons_cases b t with ⟨ch, w, hd⟩ | hd <;> rw [← hbt] at hd <;> rw [hd]
  · rfl
  · rcases hr with hl | hs
    · rw [hl]
      rfl
    · rw [hd] at hs
      cases hs

theorem fetchAny_unread (h : d.rest = [] ∨ ¬ d.policy.Reads (decode d.rest)) :
    ∃ d', d.fetchAny = .ok (none, d') := by
  unfold fetchAny fetch scan
  rcases h with h | h
  · rw [h]
    exact ⟨d, rfl⟩
  · cases hd : decode d.rest with
    | scalar ch w =>
      rw [hd] at h
      exact absurd (.inr rfl) h
    | empty => exact ⟨d, rfl⟩
    | invalid n =>
      cases hp : d.policy with
      | lenient => exact absurd (.inl hp) h
      | strict => exact ⟨_, rfl⟩

theorem consume_rest_lt (hne : d.rest ≠ [])
    (h : d.consume (decode d.rest).reading (decode d.rest).width = .ok d') :
    d'.rest.length < d.rest.length := by
  obtain ⟨p, -, rfl⟩ := consume_eq_ok.1 h
  obtain ⟨b, t, hbt⟩ := List.exists_cons_of_ne_nil hne
  have hpos := decode_width_pos b t
  rw [← hbt] at hpos
  simp only [List.length_drop]
  have : d.rest.length ≠ 0 := by simpa using hne
  omega

/-- The cursor moved over the first `n` bytes ahead, read as the scalars `cs`. -/
def across (d : Cursor) (n : Nat) (cs : List Char) : Cursor :=
  { d with rest := d.rest.drop n, offset := d.offset + n, position := d.position.along cs }

@[simp] theorem across_rest (d : Cursor) (n : Nat) (cs : List Char) :
    (d.across n cs).rest = d.rest.drop n := rfl

@[simp] theorem across_zero (d : Cursor) : d.across 0 [] = d := rfl

theorem across_across (d : Cursor) (n m : Nat) (cs ds : List Char) :
    (d.across n cs).across m ds = d.across (n + m) (cs ++ ds) := by
  simp only [across, List.drop_drop, Nat.add_assoc, Position.along_append]

theorem consume_eq_across {ch : Char} {w : Nat} (h : d.consume ch w = .ok d') :
    d' = d.across w [ch] := by
  obtain ⟨p, hp, rfl⟩ := consume_eq_ok.1 h
  rw [Position.advance_eq_ok hp]
  rfl

end Cursor

namespace Attempt

@[simp] theorem after_empty (a : Attempt) : a.after .empty = a := rfl

@[simp] theorem after_after (a : Attempt) (w₁ w₂ : Capture) :
    (a.after w₂).after w₁ = a.after (w₁ ++ w₂) := by
  simp only [after, Capture.append_assoc]

end Attempt

/-! ## Loops that read unit by unit -/

/-- A loop that reads unit by unit up to where `stop` holds of the bytes ahead: short of that,
where the cursor reads the unit ahead, it writes the unit and goes on after it, and where the
cursor reads nothing it is `unterminated`. -/
structure UnitLoop (stop : List UInt8 → Prop) (loop : Step) : Prop where
  read : ∀ d, ¬ stop d.rest → d.rest ≠ [] → d.policy.Reads (decode d.rest) →
    loop d = d.consume (decode d.rest).reading (decode d.rest).width >>= fun d' =>
      loop d' >>= fun b => pure (b.after (.ofChar (decode d.rest).reading))
  unread : ∀ d, ¬ stop d.rest → (d.rest = [] ∨ ¬ d.policy.Reads (decode d.rest)) →
    ∃ d', loop d = .ok (.failed .unterminated d' .empty)

namespace UnitLoop

variable {stop : List UInt8 → Prop} {loop : Step}

/-- What a loop that reads unit by unit returns, when it returns: either the first place where
its stop holds comes after units the cursor reads, and the loop is what it does there, after
writing those units; or there is no such place, and the loop is `unterminated`. -/
theorem result (hl : UnitLoop stop loop) (ha : Aligned stop) {d : Cursor} {b : Attempt}
    (h : loop d = .ok b) :
    (∃ k, FirstAt stop d.rest k ∧ IsBoundary d.rest k ∧
      (∀ u ∈ unitsBefore d.rest k, d.policy.Reads u) ∧
      ∃ b', loop (d.across k ((unitsBefore d.rest k).map Decoded.reading)) = .ok b' ∧
        b = b'.after (.ofChars ((unitsBefore d.rest k).map Decoded.reading))) ∨
    (b.outcome = .failed .unterminated ∧
      ¬ ∃ k, stop (d.rest.drop k) ∧ ∀ u ∈ unitsBefore d.rest k, d.policy.Reads u) := by
  induction hn : d.rest.length using Nat.strong_induction_on generalizing d b with
  | _ n ih =>
  by_cases hs : stop d.rest
  · refine .inl ⟨0, ⟨by simpa using hs, fun i hi => absurd hi (Nat.not_lt_zero i)⟩,
      by simp [IsBoundary], by simp, b, by simpa using h, by simp⟩
  by_cases hread : d.rest ≠ [] ∧ d.policy.Reads (decode d.rest)
  · obtain ⟨hne, hr⟩ := hread
    rw [hl.read d hs hne hr] at h
    obtain ⟨d', hd', h⟩ := bind_eq_ok.1 h
    obtain ⟨b₀, hb₀, h⟩ := bind_eq_ok.1 h
    rw [pure_eq_ok] at h
    subst h
    have hlt := consume_rest_lt hne hd'
    rw [consume_eq_across hd'] at hb₀ hlt
    rcases ih _ (hn ▸ hlt) hb₀ rfl with ⟨k, hk, hbk, hrk, b', hb', rfl⟩ | ⟨hu, hno⟩
    · have hw : (decode d.rest).width ≤ (decode d.rest).width + k := Nat.le_add_right ..
      have hunits := unitsBefore_of_width_le hne hw
      rw [Nat.add_sub_cancel_left] at hunits
      refine .inl ⟨(decode d.rest).width + k, ?_, ?_, ?_, b', ?_, ?_⟩
      · exact (ha.firstAt_iff hs).2 ⟨hw, by simpa using hk⟩
      · simpa [IsBoundary, hunits] using hbk
      · rw [hunits]
        rintro v (_ | ⟨_, hv⟩)
        · exact hr
        · exact hrk v hv
      · rw [hunits, List.map_cons, ← List.singleton_append, ← across_across]
        exact hb'
      · rw [hunits, List.map_cons, Capture.ofChars_cons, Attempt.after_after]
        rfl
    · exact .inr ⟨hu, fun hex => hno ((ha.exists_reads_iff hne hs _).1 hex).2⟩
  · obtain ⟨d', hd'⟩ := hl.unread d hs (by tauto)
    rw [hd'] at h
    cases h
    refine .inr ⟨rfl, ?_⟩
    rintro ⟨k, hk, hr⟩
    by_cases hne : d.rest = []
    · rw [hne, List.drop_nil] at hk
      exact hs (hne ▸ hk)
    · exact hread ⟨hne, ((ha.exists_reads_iff hne hs _).1 ⟨k, hk, hr⟩).1⟩

/-- A loop that reads unit by unit runs to its end where the counts of the units ahead fit, if
it does so where its stop holds. -/
theorem ok_of_fits (hl : UnitLoop stop loop)
    (hstop : ∀ d, stop d.rest → d.position.Fits ((units d.rest).map Decoded.reading) →
      ∃ b, loop d = .ok b) (d : Cursor)
    (hfit : d.position.Fits ((units d.rest).map Decoded.reading)) :
    ∃ b, loop d = .ok b := by
  induction hn : d.rest.length using Nat.strong_induction_on generalizing d with
  | _ n ih =>
  by_cases hs : stop d.rest
  · exact hstop d hs hfit
  by_cases hread : d.rest ≠ [] ∧ d.policy.Reads (decode d.rest)
  · obtain ⟨hne, hr⟩ := hread
    rw [units_eq_cons hne, List.map_cons] at hfit
    obtain ⟨h₁, h₂⟩ := Position.Fits.append (show d.position.Fits ([_] ++ _) from hfit)
    have hc : d.consume (decode d.rest).reading (decode d.rest).width =
        .ok (d.across (decode d.rest).width [(decode d.rest).reading]) := by
      rw [consume_eq_ok]
      exact ⟨_, h₁.advance, rfl⟩
    obtain ⟨b, hb⟩ := ih _ (hn ▸ consume_rest_lt hne hc) _ h₂ rfl
    rw [hl.read d hs hne hr, hc]
    exact ⟨_, by rw [ok_bind, hb]; rfl⟩
  · obtain ⟨d', hd'⟩ := hl.unread d hs (by tauto)
    exact ⟨_, hd'⟩

end UnitLoop

end Lexer
