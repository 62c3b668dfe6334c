import Mathlib
import Lexer.Proofs.Reading
/-! # Reading digits under a ceiling is exact

An accumulator that has read digits from scratch has counted each one, sets its flag exactly when
their value passes the ceiling, and otherwise holds that value (`Accumulator.Tracks`). The order
of a push's tests keeps every quantity it works out under the ceiling (`ArithBelow`).
-/

namespace Lexer

/-- The value of the digits `ds` in the radix after the value `v`, most significant first; a
digit may be at least the radix. -/
def Radix.numeral (r : Radix) (v : Nat) (ds : List Nat) : Nat :=
  ds.foldl (fun v d => v * r.val + d) v

@[simp] theorem Radix.numeral_nil (r : Radix) (v : Nat) : r.numeral v [] = v := rfl

@[simp] theorem Radix.numeral_cons (r : Radix) (v d : Nat) (ds : List Nat) :
    r.numeral v (d :: ds) = r.numeral (v * r.val + d) ds := rfl

namespace Accumulator

/-- `a` has read digits whose exact value is `n`: its flag says whether `n` passes the ceiling, it
holds `n` while the flag is clear, and what it holds never passes the ceiling. -/
structure Tracks (a : Accumulator) (n : Nat) : Prop where
  overflow_iff : a.overflow = true ↔ a.ceiling < n
  value_eq : a.overflow = false → a.value = n
  value_le : a.value ≤ a.ceiling

theorem init_tracks (r : Radix) (ceiling : Nat) : (init r ceiling).Tracks 0 where
  overflow_iff := by simp [init]
  value_eq _ := rfl
  value_le := Nat.zero_le _

theorem push_value_of_overflow {a : Accumulator} {d : Nat} (h : (a.push d).overflow = true) :
    (a.push d).value = a.value := by
  unfold push at h ⊢
  split <;> (try split) <;> (try split) <;> (try split) <;> simp_all

/-- One push keeps the invariant: the exact value moves one place and takes the digit. -/
theorem Tracks.push {a : Accumulator} {n : Nat} (h : a.Tracks n) (d : Nat) :
    (a.push d).Tracks (n * a.radix.val + d) := by
  have hgrow : n ≤ n * a.radix.val + d :=
    Nat.le_add_right_of_le (Nat.le_mul_of_pos_right n (by have := a.radix.two_le; omega))
  cases ho : a.overflow with
  | true =>
    obtain ⟨ho', hv⟩ := push_of_overflow a d ho
    have hlt := h.overflow_iff.1 ho
    refine ⟨?_, fun hf => absurd ho' (by simp [hf]), ?_⟩
    · simp only [ho', push_ceiling, true_iff]
      omega
    · rw [hv, push_ceiling]
      exact h.value_le
  | false =>
    have hiff := push_overflow_iff a d ho
    rw [h.value_eq ho] at hiff
    have hflag : (a.push d).overflow = true ↔ (a.push d).ceiling < n * a.radix.val + d := by
      rw [push_ceiling]
      exact hiff
    cases ho' : (a.push d).overflow with
    | true =>
      refine ⟨hflag, fun hf => by simp [ho'] at hf, ?_⟩
      rw [push_value_of_overflow ho', push_ceiling]
      exact h.value_le
    | false =>
      have hle : n * a.radix.val + d ≤ a.ceiling :=
        Nat.le_of_not_lt fun hlt => absurd (hiff.2 hlt) (by simp [ho'])
      have hstored : (a.push d).value = n * a.radix.val + d := by
        rw [push_of_le ho (h.value_eq ho ▸ hle), h.value_eq ho]
      refine ⟨hflag, fun _ => hstored, ?_⟩
      rw [hstored, push_ceiling]
      exact hle

theorem Tracks.foldl {a : Accumulator} {n : Nat} (h : a.Tracks n) (ds : List Nat) :
    (ds.foldl Accumulator.push a).Tracks (a.radix.numeral n ds) := by
  induction ds generalizing a n with
  | nil => exact h
  | cons d ds ih =>
    have hrun := ih (h.push d)
    rwa [push_radix] at hrun

@[simp] theorem foldl_push_count (a : Accumulator) (ds : List Nat) :
    (ds.foldl Accumulator.push a).count = a.count + ds.length := by
  induction ds generalizing a with
  | nil => rfl
  | cons d ds ih =>
    rw [List.foldl_cons, ih, push_count, List.length_cons]
    omega

@[simp] theorem foldl_push_ceiling (a : Accumulator) (ds : List Nat) :
    (ds.foldl Accumulator.push a).ceiling = a.ceiling := by
  induction ds generalizing a with
  | nil => rfl
  | cons d ds ih => rw [List.foldl_cons, ih, push_ceiling]

/-- What a push of the digit `d` works out stays below `bound`: the product of the value and the
radix, which it forms once the flag is clear, the digit is at most the ceiling and the value at
most the ceiling over the radix, and the sum of that product and the digit, which it forms once
the product is also at most the ceiling less the digit. -/
def ArithBelow (a : Accumulator) (d bound : Nat) : Prop :=
  a.overflow = false → d ≤ a.ceiling → a.value ≤ a.ceiling / a.radix.val →
    a.value * a.radix.val < bound ∧
      (a.value * a.radix.val ≤ a.ceiling - d → a.value * a.radix.val + d < bound)

theorem arithBelow_of_ceiling_lt {a : Accumulator} {bound : Nat} (h : a.ceiling < bound)
    (d : Nat) : a.ArithBelow d bound := by
  intro _ hd hv
  have hmul : a.value * a.radix.val ≤ a.ceiling := Nat.mul_le_of_le_div _ _ _ hv
  exact ⟨by omega, fun _ => by omega⟩

/-- An accumulator agrees with unbounded arithmetic. From scratch, with any radix and any ceiling
below `2^64`, after pushing the digits `ds` (which may be at least the radix) it has counted all of
them; its flag is set exactly when the exact value of `ds` passes the ceiling; while the flag is
clear it holds that value; and at every push along the way the value held, the product of the
value and the radix and the sum with the digit, wherever the push forms them, fit in 64 bits. -/
theorem pushes_agree_with_exact_value (r : Radix) (ceiling : Nat) (hc : ceiling < 2 ^ 64)
    (ds : List Nat) :
    (ds.foldl push (init r ceiling)).count = ds.length ∧
    ((ds.foldl push (init r ceiling)).overflow = true ↔ ceiling < r.numeral 0 ds) ∧
    ((ds.foldl push (init r ceiling)).overflow = false →
      (ds.foldl push (init r ceiling)).value = r.numeral 0 ds) ∧
    ∀ pre d post, ds = pre ++ d :: post →
      (pre.foldl push (init r ceiling)).value < 2 ^ 64 ∧
        (pre.foldl push (init r ceiling)).ArithBelow d (2 ^ 64) := by
  have hrun := (init_tracks r ceiling).foldl ds
  have hiff : (ds.foldl push (init r ceiling)).overflow = true ↔ ceiling < r.numeral 0 ds := by
    rw [hrun.overflow_iff, foldl_push_ceiling]
    rfl
  refine ⟨by simp [init], hiff, hrun.value_eq, fun pre d post _ => ?_⟩
  have hle := ((init_tracks r ceiling).foldl pre).value_le
  rw [foldl_push_ceiling] at hle
  have hceil : (pre.foldl push (init r ceiling)).ceiling < 2 ^ 64 := by
    rw [foldl_push_ceiling]
    exact hc
  exact ⟨Nat.lt_of_le_of_lt hle hc, arithBelow_of_ceiling_lt hceil d⟩

/-- Octal digits `3`, `7` and `9` under the ceiling `255`: the last digit is not octal, and the
flag stands for the exact value `(3 * 8 + 7) * 8 + 9 = 257`, which passes the ceiling. -/
theorem octal_pushes_past_ceiling :
    (255 : Nat) < 2 ^ 64 ∧
    ([3, 7, 9].foldl push (init Radix.octal 255)).count = 3 ∧
    (([3, 7, 9].foldl push (init Radix.octal 255)).overflow = true ↔
      255 < Radix.octal.numeral 0 [3, 7, 9]) ∧
    (([3, 7, 9].foldl push (init Radix.octal 255)).overflow = false →
      ([3, 7, 9].foldl push (init Radix.octal 255)).value = Radix.octal.numeral 0 [3, 7, 9]) ∧
    (∀ pre d post, [3, 7, 9] = pre ++ d :: post →
      (pre.foldl push (init Radix.octal 255)).value < 2 ^ 64 ∧
        (pre.foldl push (init Radix.octal 255)).ArithBelow d (2 ^ 64)) :=
  ⟨by decide, pushes_agree_with_exact_value Radix.octal 255 (by decide) [3, 7, 9]⟩

end Accumulator

end Lexer
