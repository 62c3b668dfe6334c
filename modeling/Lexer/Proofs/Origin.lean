import Mathlib
import Lexer.Proofs.Simulation
/-! # Moving the origin

A text that begins at `o` is scanned exactly as from the start, with every position moved by
`o.shift`, except that counts from `o` are larger and may overflow where the others do not
(`tokenize_from_origin`).
-/

namespace Lexer

namespace Position

/-- Where the position `p` of a text read from the start stands when the text begins at `o`. -/
def shift (o p : Position) : Position :=
  ⟨o.line + p.line, if p.line = 0 then o.column + p.column else p.column⟩

@[simp] theorem shift_start (o : Position) : o.shift start = o := by
  simp [shift, start]

theorem shift_next (o p : Position) (ch : Char) : o.shift (p.next ch) = (o.shift p).next ch := by
  unfold next shift
  by_cases hch : ch = '\n'
  · simp [hch, Nat.add_assoc]
  · by_cases hl : p.line = 0 <;> simp [hch, hl, Nat.add_assoc]

theorem shift_along (o p : Position) (cs : List Char) :
    o.shift (p.along cs) = (o.shift p).along cs := by
  induction cs generalizing p with
  | nil => rfl
  | cons ch cs ih => rw [along_cons, along_cons, ih, shift_next]

theorem line_le_shift (o p : Position) : p.line ≤ (o.shift p).line := by
  simp [shift]

theorem column_le_shift (o p : Position) : p.column ≤ (o.shift p).column := by
  unfold shift
  split <;> simp

/-! ## Checked steps from smaller counts -/

theorem bumpCount_ok_or_overflow (n k : Nat) :
    bumpCount n k = .ok (n + k) ∨ bumpCount n k = .error .countOverflow := by
  unfold bumpCount
  split
  · exact .inl rfl
  · exact .inr rfl

theorem bumpCount_of_le {n n' k m : Nat} (hle : n ≤ n') (h : bumpCount n' k = .ok m) :
    bumpCount n k = .ok (n + k) := by
  rw [bumpCount_eq_ok] at h ⊢
  exact ⟨by omega, rfl⟩

/-- A step halts only on a count overflow, and otherwise lands where `next` does. -/
theorem advance_ok_or_overflow (p : Position) (ch : Char) :
    p.advance ch = .ok (p.next ch) ∨ p.advance ch = .error .countOverflow := by
  unfold advance next
  split
  · rcases bumpCount_ok_or_overflow p.line 1 with h | h <;> rw [h]
    · exact .inl rfl
    · exact .inr rfl
  · rcases bumpCount_ok_or_overflow p.column 1 with h | h <;> rw [h]
    · exact .inl rfl
    · exact .inr rfl

/-- A text step halts only on a count overflow, and otherwise lands where `along` does. -/
theorem advanceText_ok_or_overflow (p : Position) (s : String) :
    p.advanceText s = .ok (p.along s.toList) ∨ p.advanceText s = .error .countOverflow := by
  cases h : p.advanceText s with
  | ok q => exact .inl (by rw [advanceText_eq_ok h])
  | error e =>
    refine .inr ?_
    unfold advanceText at h
    dsimp only at h
    split at h
    · rcases bumpCount_ok_or_overflow p.column s.toList.length with hb | hb <;>
        rw [hb] at h <;> cases h
      rfl
    · rcases bumpCount_ok_or_overflow p.line (s.toList.count '\n') with hb | hb <;>
        rw [hb] at h <;> cases h
      rfl

theorem advance_of_le {p p' q' : Position} {ch : Char} (hl : p.line ≤ p'.line)
    (hc : p.column ≤ p'.column) (h : p'.advance ch = .ok q') : p.advance ch = .ok (p.next ch) := by
  unfold advance next at *
  split
  · next hch =>
    rw [if_pos hch] at h
    obtain ⟨n, hn, -⟩ := bind_eq_ok.1 h
    rw [bumpCount_of_le hl hn]
    rfl
  · next hch =>
    rw [if_neg hch] at h
    obtain ⟨n, hn, -⟩ := bind_eq_ok.1 h
    rw [bumpCount_of_le hc hn]
    rfl

theorem advanceText_of_le {p p' q' : Position} {s : String} (hl : p.line ≤ p'.line)
    (hc : p.column ≤ p'.column) (h : p'.advanceText s = .ok q') :
    p.advanceText s = .ok (p.along s.toList) := by
  rcases advanceText_ok_or_overflow p s with hp | hp
  · exact hp
  · unfold advanceText at h hp
    dsimp only at h hp
    split at h
    · next hb =>
      rw [if_pos hb] at hp
      obtain ⟨n, hn, -⟩ := bind_eq_ok.1 h
      rw [bumpCount_of_le hc hn] at hp
      cases hp
    · next hb =>
      rw [if_neg hb] at hp
      obtain ⟨n, hn, -⟩ := bind_eq_ok.1 h
      rw [bumpCount_of_le hl hn] at hp
      cases hp

/-! ## Steps from a moved origin -/

/-- A step from a moved position that succeeds succeeds from the position itself. -/
theorem advance_shift_sim (o p : Position) (ch : Char) :
    Sim (fun _ => False) (fun q q₀ => q = o.shift q₀) ((o.shift p).advance ch) (p.advance ch) := by
  intro q hq
  refine .inl ⟨p.next ch, advance_of_le (line_le_shift o p) (column_le_shift o p) hq, ?_⟩
  rw [advance_eq_ok hq]
  exact (shift_next o p ch).symm

/-- A step that succeeds from a position succeeds from the moved one, unless a count
overflows. -/
theorem shift_advance_sim (o p : Position) (ch : Char) :
    Sim (· = .countOverflow) (fun q₀ q => q = o.shift q₀) (p.advance ch) ((o.shift p).advance ch) := by
  intro q₀ hq₀
  rcases advance_ok_or_overflow (o.shift p) ch with h | h
  · exact .inl ⟨_, h, by rw [advance_eq_ok hq₀]; exact (shift_next o p ch).symm⟩
  · exact .inr ⟨_, rfl, h⟩

theorem advanceText_shift_sim (o p : Position) (s : String) :
    Sim (fun _ => False) (fun q q₀ => q = o.shift q₀) ((o.shift p).advanceText s)
      (p.advanceText s) := by
  intro q hq
  refine .inl ⟨_, advanceText_of_le (line_le_shift o p) (column_le_shift o p) hq, ?_⟩
  rw [advanceText_eq_ok hq]
  exact (shift_along o p _).symm

theorem shift_advanceText_sim (o p : Position) (s : String) :
    Sim (· = .countOverflow) (fun q₀ q => q = o.shift q₀) (p.advanceText s)
      ((o.shift p).advanceText s) := by
  intro q₀ hq₀
  rcases advanceText_ok_or_overflow (o.shift p) s with h | h
  · exact .inl ⟨_, h, by rw [advanceText_eq_ok hq₀]; exact (shift_along o p _).symm⟩
  · exact .inr ⟨_, rfl, h⟩

end Position

/-! ## Scans from a moved origin -/

/-- The cursor of the scan from `o` that stands where the cursor of the scan from the start does. -/
theorem init_renumbered (bytes : List UInt8) (policy : Utf8Policy) (o : Position) :
    (Cursor.init bytes policy o).Renumbered (fun p q => p = o.shift q)
      (Cursor.init bytes policy .start) :=
  ⟨rfl, rfl, rfl, (Position.shift_start o).symm, .none⟩

/-- A scan from the origin `o` is the scan from the start with every position moved by
`o.shift`: where the scan from `o` succeeds, so does the scan from the start, and the tokens (each
key, text, values and position) and the error (its kind, what failed and its position, a strict
fault's included) are the start's, moved. Where the scan from the start succeeds, the scan from
`o` gives the same, moved, unless a line or column count overflows. -/
theorem tokenize_from_origin {κ : Type} (bindings : List (Binding κ)) (bytes : List UInt8)
    (policy : Utf8Policy) (o : Position) :
    (∀ r, tokenize bindings bytes policy o = .ok r →
      ∃ r₀, tokenize bindings bytes policy .start = .ok r₀ ∧ r = relocateScan o.shift r₀) ∧
    (∀ r₀, tokenize bindings bytes policy .start = .ok r₀ →
      tokenize bindings bytes policy o = .ok (relocateScan o.shift r₀) ∨
        tokenize bindings bytes policy o = .error .countOverflow) := by
  have hinit := init_renumbered bytes policy o
  constructor
  · intro r hr
    have sim : Simulation (fun _ => False) (Cursor.Renumbered fun p q => p = o.shift q) :=
      Cursor.Renumbered.simulation
        (fun h => h ▸ Position.advance_shift_sim o _ _)
        (fun h => h ▸ Position.advanceText_shift_sim o _ _)
    obtain ⟨r₀, h₀, hrel⟩ :=
      (Cursor.Renumbered.scanTokens (ψ := id) (φ := o.shift) sim id hinit).ok hr
    exact ⟨r₀, h₀, by simpa using hrel⟩
  · intro r₀ h₀
    have sim : Simulation (· = .countOverflow) (Cursor.Renumbered fun q p => p = o.shift q) :=
      Cursor.Renumbered.simulation
        (fun h => h ▸ Position.shift_advance_sim o _ _)
        (fun h => h ▸ Position.shift_advanceText_sim o _ _)
    have hinit' : (Cursor.init bytes policy .start).Renumbered (fun q p => p = o.shift q)
        (Cursor.init bytes policy o) :=
      ⟨rfl, rfl, rfl, Position.shift_start o, .none⟩
    rcases Cursor.Renumbered.scanTokens (ψ := o.shift) (φ := id) sim (fun h => h.symm) hinit'
        r₀ h₀ with ⟨r, hr, hrel⟩ | ⟨e, rfl, he⟩
    · exact .inl (by rw [tokenize, hr, hrel, relocateScan_id])
    · exact .inr he

/-- From the origin `3:6` the scalars of `a`, a line feed and `b` stand at `3:6`, `3:7` and `4:1`:
columns on the first line count on from the origin's column, on later lines from the line's
start; the scan from the start has them at `1:1`, `1:2` and `2:1`. -/
theorem origin_moves_first_line_columns :
    tokenize [⟨0, .scalarIn .univ, "any"⟩] [0x61, 0x0A, 0x62] .lenient ⟨2, 5⟩ =
      .ok ([⟨0, [0x61], [], ⟨2, 5⟩⟩, ⟨0, [0x0A], [], ⟨2, 6⟩⟩, ⟨0, [0x62], [], ⟨3, 0⟩⟩], none) ∧
    ∃ r₀, tokenize [⟨0, .scalarIn .univ, "any"⟩] [0x61, 0x0A, 0x62] .lenient .start = .ok r₀ ∧
      ([⟨0, [0x61], [], ⟨2, 5⟩⟩, ⟨0, [0x0A], [], ⟨2, 6⟩⟩, ⟨0, [0x62], [], ⟨3, 0⟩⟩], none) =
        relocateScan (Position.shift ⟨2, 5⟩) r₀ := by
  have h : tokenize [⟨0, .scalarIn .univ, "any"⟩] [0x61, 0x0A, 0x62] .lenient ⟨2, 5⟩ =
      .ok ([⟨0, [0x61], [], ⟨2, 5⟩⟩, ⟨0, [0x0A], [], ⟨2, 6⟩⟩, ⟨0, [0x62], [], ⟨3, 0⟩⟩], none) := by
    cbv
  exact ⟨h, (tokenize_from_origin _ _ _ _).1 _ h⟩

end Lexer
