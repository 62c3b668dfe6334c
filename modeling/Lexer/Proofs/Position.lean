import Mathlib.Data.List.Induction
import Lexer.Position
/-! # Positions as a fold over scalars

Without their checks against `maxCount`, `Position.advance` and `Position.advanceText` are one
fold: `next` past a scalar and `along` past a list of them. A checked step that succeeds lands
where the fold lands, and the fold has the closed form that `advanceText` computes.
-/

namespace Lexer

theorem bind_eq_ok {ε α β : Type} {x : Except ε α} {f : α → Except ε β} {b : β} :
    x >>= f = .ok b ↔ ∃ a, x = .ok a ∧ f a = .ok b := by
  cases x <;> simp [bind, Except.bind]

@[simp] theorem pure_eq_ok {ε α : Type} {a b : α} : (pure a : Except ε α) = .ok b ↔ a = b := by
  simp [pure, Except.pure]

theorem bumpCount_eq_ok {n k m : Nat} : bumpCount n k = .ok m ↔ n + k ≤ maxCount ∧ m = n + k := by
  unfold bumpCount
  split
  · simp_all [eq_comm]
  · simp only [reduceCtorEq, false_iff, not_and]
    omega

namespace Position

/-- The position after the scalar `ch`, with no bound on the counts. -/
def next (p : Position) (ch : Char) : Position :=
  if ch = '\n' then ⟨p.line + 1, 0⟩ else ⟨p.line, p.column + 1⟩

/-- The position after the scalars `cs`, one at a time. -/
def along (p : Position) (cs : List Char) : Position := cs.foldl next p

@[simp] theorem along_nil (p : Position) : p.along [] = p := rfl

@[simp] theorem along_cons (p : Position) (ch : Char) (cs : List Char) :
    p.along (ch :: cs) = (p.next ch).along cs := rfl

@[simp] theorem along_append (p : Position) (cs ds : List Char) :
    p.along (cs ++ ds) = (p.along cs).along ds := List.foldl_append

/-- The closed form of the fold: line feeds count lines, and the column is what follows the
last line feed, counted from the origin's column when there is no line feed at all. -/
theorem along_eq (p : Position) (cs : List Char) :
    p.along cs = if cs.count '\n' = 0 then ⟨p.line, p.column + cs.length⟩
      else ⟨p.line + cs.count '\n', (cs.reverse.takeWhile (· ≠ '\n')).length⟩ := by
  induction cs using List.reverseRecOn with
  | nil => simp
  | append_singleton cs ch ih =>
    rw [along_append, ih]
    by_cases hch : ch = '\n'
    · subst hch
      split <;> simp_all [next, Nat.add_assoc]
    · have hcount : (cs ++ [ch]).count '\n' = cs.count '\n' := by
        simp [List.count_append, hch]
      rw [hcount]
      split <;> simp_all [next, Nat.add_assoc]

theorem advance_eq_ok {p q : Position} {ch : Char} (h : p.advance ch = .ok q) : q = p.next ch := by
  unfold advance at h
  unfold next
  split at h <;>
  · obtain ⟨n, hn, hq⟩ := bind_eq_ok.1 h
    simp_all [bumpCount_eq_ok]

/-- A checked text step that succeeds is the fold over its scalars. -/
theorem advanceText_eq_ok {p q : Position} {s : String} (h : p.advanceText s = .ok q) :
    q = p.along s.toList := by
  unfold advanceText at h
  dsimp only at h
  rw [along_eq]
  split at h <;>
  · obtain ⟨n, hn, hq⟩ := bind_eq_ok.1 h
    simp_all [bumpCount_eq_ok]

end Position

end Lexer
