import Lexer.Cursor
import Lexer.Proofs.Position
import Lexer.Proofs.Utf8
/-! # What a read does to a cursor

One lemma for each basic read says all it can do. A relation that the basic reads respect
(`ReadClosed`) is then respected by every read built from them, and, in `Lexer.Proofs.Reach`, by
every term. `Forward`, that a cursor only moves on, is the first such relation.
-/

namespace Lexer.Cursor

open Utf8

variable {c c' c₁ : Cursor}

/-! ## The basic reads -/

@[simp] theorem noteFault_rest (c : Cursor) (n : Nat) : (c.noteFault n).rest = c.rest := by
  unfold noteFault
  split <;> rfl

@[simp] theorem noteFault_offset (c : Cursor) (n : Nat) : (c.noteFault n).offset = c.offset := by
  unfold noteFault
  split <;> rfl

@[simp] theorem noteFault_position (c : Cursor) (n : Nat) :
    (c.noteFault n).position = c.position := by
  unfold noteFault
  split <;> rfl

@[simp] theorem noteFault_policy (c : Cursor) (n : Nat) : (c.noteFault n).policy = c.policy := by
  unfold noteFault
  split <;> rfl

theorem noteFault_fault (c : Cursor) (n : Nat) :
    (c.noteFault n).fault = c.fault.or (some ⟨c.offset, c.position, n⟩) := by
  unfold noteFault
  split <;> simp_all

theorem scan_eq_some {ch : Char} {w : Nat} (h : c.scan = (some (ch, w), c₁)) :
    c₁ = c ∧ (decode c.rest = .scalar ch w ∨
      decode c.rest = .invalid w ∧ c.policy = .lenient ∧ ch = '�') := by
  unfold scan at h
  split at h
  · simp_all
  · simp at h
  · split at h
    · simp only [Prod.mk.injEq, Option.some.injEq] at h
      obtain ⟨⟨rfl, rfl⟩, rfl⟩ := h
      simp_all
    · simp at h

/-- `scan` reads nothing at the end, and at invalid bytes under the strict policy, where it
records the span. -/
theorem scan_eq_none (h : c.scan = (none, c₁)) :
    decode c.rest = .empty ∧ c₁ = c ∨
      ∃ n, decode c.rest = .invalid n ∧ c.policy = .strict ∧ c₁ = c.noteFault n := by
  unfold scan at h
  split at h
  · simp at h
  · simp_all
  · split at h <;> simp_all

/-- The cursor `scan` leaves is the cursor itself, or it with a fault a strict cursor noted. -/
theorem scan_snd (c : Cursor) :
    c.scan.2 = c ∨ c.policy = .strict ∧ ∃ n, c.scan.2 = c.noteFault n := by
  unfold scan
  split
  · exact .inl rfl
  · exact .inl rfl
  · split <;> simp_all

theorem scan_width {ch : Char} {w : Nat} (h : c.scan = (some (ch, w), c₁)) :
    0 < w ∧ w ≤ c.rest.length := by
  obtain ⟨-, hd⟩ := scan_eq_some h
  have hne : c.rest ≠ [] := by
    intro hnil
    rcases hd with hd | hd <;> simp [hnil] at hd
  obtain ⟨b, rest, hcons⟩ := List.exists_cons_of_ne_nil hne
  have hpos := decode_width_pos b rest
  have hle := decode_width_le c.rest
  rw [← hcons] at hpos
  rcases hd with hd | ⟨hd, -⟩ <;> rw [hd] at hpos hle <;> exact ⟨hpos, hle⟩

theorem consume_eq_ok {ch : Char} {w : Nat} :
    c.consume ch w = .ok c' ↔ ∃ p, c.position.advance ch = .ok p ∧
      c' = { c with rest := c.rest.drop w, offset := c.offset + w, position := p } := by
  unfold consume
  cases c.position.advance ch with
  | error e => simp [bind, Except.bind]
  | ok p => simp [bind, Except.bind, pure, Except.pure, eq_comm]

theorem leap_eq_ok {s : String} {b : Bool} (h : c.leap s = .ok (b, c')) :
    (b = true ∧ encode s <+: c.rest ∧ ∃ p, c.position.advanceText s = .ok p ∧
      c' = { c with rest := c.rest.drop (encode s).length, offset := c.offset + (encode s).length,
                    position := p }) ∨
    (b = false ∧ ¬ encode s <+: c.rest ∧ c' = c) := by
  unfold leap at h
  dsimp only at h
  split at h
  · next hpre =>
    obtain ⟨p, hp, hc⟩ := bind_eq_ok.1 h
    simp only [pure_eq_ok, Prod.mk.injEq] at hc
    exact .inl ⟨hc.1.symm, List.isPrefixOf_iff_prefix.1 hpre, p, hp, hc.2.symm⟩
  · next hpre =>
    simp only [pure_eq_ok, Prod.mk.injEq] at h
    exact .inr ⟨h.1.symm, fun hp => hpre (List.isPrefixOf_iff_prefix.2 hp), h.2.symm⟩

/-- `leapFetch` moves past the text and a well-formed scalar that `p` accepts after it, and
otherwise stays; it decodes directly, whatever the policy, and records no fault. -/
theorem leapFetch_eq_ok {s : String} {p : Char → Bool} {r : Option Char}
    (h : c.leapFetch s p = .ok (r, c')) :
    (∃ ch w q₁ q, r = some ch ∧ encode s <+: c.rest ∧
      decode (c.rest.drop (encode s).length) = .scalar ch w ∧ p ch = true ∧
      c.position.advanceText s = .ok q₁ ∧ q₁.advance ch = .ok q ∧
      c' = { c with rest := c.rest.drop ((encode s).length + w),
                    offset := c.offset + (encode s).length + w, position := q }) ∨
    (r = none ∧ c' = c) := by
  unfold leapFetch at h
  dsimp only at h
  split at h
  · next hpre =>
    split at h
    · next ch w hd =>
      split at h
      · next hp =>
        obtain ⟨q₁, hq₁, h⟩ := bind_eq_ok.1 h
        obtain ⟨q, hq, h⟩ := bind_eq_ok.1 h
        simp only [pure_eq_ok, Prod.mk.injEq] at h
        exact .inl ⟨ch, w, q₁, q, h.1.symm, List.isPrefixOf_iff_prefix.1 hpre, hd, hp, hq₁, hq,
          h.2.symm⟩
      · simp only [pure_eq_ok, Prod.mk.injEq] at h
        exact .inr ⟨h.1.symm, h.2.symm⟩
    · simp only [pure_eq_ok, Prod.mk.injEq] at h
      exact .inr ⟨h.1.symm, h.2.symm⟩
  · simp only [pure_eq_ok, Prod.mk.injEq] at h
    exact .inr ⟨h.1.symm, h.2.symm⟩

theorem fetch_some {p : Char → Bool} {ch : Char} (h : c.fetch p = .ok (some ch, c')) :
    p ch = true := by
  unfold fetch at h
  split at h
  · split at h
    · next hp =>
      obtain ⟨c₂, -, h⟩ := bind_eq_ok.1 h
      simp only [pure_eq_ok, Prod.mk.injEq, Option.some.injEq] at h
      exact h.1 ▸ hp
    · simp at h
  · simp at h

/-! ## Which reads move -/

@[simp] theorem scan_snd_offset (c : Cursor) : c.scan.2.offset = c.offset := by
  rcases scan_snd c with h | ⟨-, n, h⟩ <;> simp [h]

@[simp] theorem peek_snd_offset (c : Cursor) : c.peek.2.offset = c.offset := scan_snd_offset c

theorem hop_offset {ch : Char} {b : Bool} (h : c.hop ch = .ok (b, c')) :
    (b = true → c.offset < c'.offset) ∧ (b = false → c'.offset = c.offset) := by
  unfold hop at h
  split at h
  · next got w c₁ hs =>
    obtain ⟨rfl, -⟩ := scan_eq_some hs
    have hw := (scan_width hs).1
    split at h
    · obtain ⟨c₂, hc₂, h⟩ := bind_eq_ok.1 h
      obtain ⟨p, -, rfl⟩ := consume_eq_ok.1 hc₂
      simp only [pure_eq_ok, Prod.mk.injEq] at h
      obtain ⟨rfl, rfl⟩ := h
      simp only [forall_const, Bool.true_eq_false, false_imp_iff, and_true]
      omega
    · simp only [pure_eq_ok, Prod.mk.injEq] at h
      obtain ⟨rfl, rfl⟩ := h
      simp
  · next c₁ hs =>
    simp only [pure_eq_ok, Prod.mk.injEq] at h
    obtain ⟨rfl, rfl⟩ := h
    have : c₁ = c.scan.2 := by rw [hs]
    simp [this]

theorem hop_rest_lt {ch : Char} (h : c.hop ch = .ok (true, c')) : c'.rest.length < c.rest.length := by
  unfold hop at h
  split at h
  · next got w c₁ hs =>
    obtain ⟨rfl, -⟩ := scan_eq_some hs
    have hw := scan_width hs
    split at h
    · obtain ⟨c₂, hc₂, h⟩ := bind_eq_ok.1 h
      obtain ⟨p, -, rfl⟩ := consume_eq_ok.1 hc₂
      simp only [pure_eq_ok, Prod.mk.injEq] at h
      obtain ⟨-, rfl⟩ := h
      simp only [List.length_drop]
      omega
    · simp at h
  · simp at h

theorem fetch_offset {p : Char → Bool} {r : Option Char} (h : c.fetch p = .ok (r, c')) :
    (r.isSome → c.offset < c'.offset) ∧ (r = none → c'.offset = c.offset) := by
  unfold fetch at h
  split at h
  · next got w c₁ hs =>
    obtain ⟨rfl, -⟩ := scan_eq_some hs
    have hw := (scan_width hs).1
    split at h
    · obtain ⟨c₂, hc₂, h⟩ := bind_eq_ok.1 h
      obtain ⟨q, -, rfl⟩ := consume_eq_ok.1 hc₂
      simp only [pure_eq_ok, Prod.mk.injEq] at h
      obtain ⟨rfl, rfl⟩ := h
      simp only [Option.isSome_some, forall_const, reduceCtorEq, false_imp_iff, and_true]
      omega
    · simp only [pure_eq_ok, Prod.mk.injEq] at h
      obtain ⟨rfl, rfl⟩ := h
      simp
  · next c₁ hs =>
    simp only [pure_eq_ok, Prod.mk.injEq] at h
    obtain ⟨rfl, rfl⟩ := h
    have : c₁ = c.scan.2 := by rw [hs]
    simp [this]

theorem leapFetch_offset {s : String} {p : Char → Bool} {r : Option Char}
    (h : c.leapFetch s p = .ok (r, c')) :
    (r.isSome → c.offset < c'.offset) ∧ (r = none → c' = c) := by
  rcases leapFetch_eq_ok h with ⟨ch, w, q₁, q, rfl, -, hd, -, -, -, rfl⟩ | ⟨rfl, rfl⟩
  · have := width_pos_of_decode_eq_scalar hd
    simp only [Option.isSome_some, forall_const, reduceCtorEq, false_imp_iff, and_true]
    omega
  · simp

/-! ## Relations that every read respects -/

/-- A relation between a cursor and a later one that the four basic reads respect. -/
structure ReadClosed (R : Cursor → Cursor → Prop) : Prop where
  refl : ∀ c, R c c
  trans : ∀ {c₁ c₂ c₃}, R c₁ c₂ → R c₂ c₃ → R c₁ c₃
  scan : ∀ c, R c c.scan.2
  consume : ∀ {c ch w c'}, c.scan = (some (ch, w), c) → c.consume ch w = .ok c' → R c c'
  leap : ∀ {c s b c'}, c.leap s = .ok (b, c') → R c c'
  leapFetch : ∀ {c s p r c'}, c.leapFetch s p = .ok (r, c') → R c c'

namespace ReadClosed

variable {R : Cursor → Cursor → Prop} (hR : ReadClosed R)
include hR

theorem peek (c : Cursor) : R c c.peek.2 := hR.scan c

theorem hop {ch : Char} {b : Bool} (h : c.hop ch = .ok (b, c')) : R c c' := by
  unfold Cursor.hop at h
  split at h
  · next got w c₁ hs =>
    obtain ⟨rfl, -⟩ := scan_eq_some hs
    split at h
    · obtain ⟨c₂, hc₂, h⟩ := bind_eq_ok.1 h
      simp only [pure_eq_ok, Prod.mk.injEq] at h
      exact h.2 ▸ hR.consume hs hc₂
    · simp only [pure_eq_ok, Prod.mk.injEq] at h
      exact h.2 ▸ hR.refl _
  · next c₁ hs =>
    simp only [pure_eq_ok, Prod.mk.injEq] at h
    have : c₁ = c.scan.2 := by rw [hs]
    exact h.2 ▸ this ▸ hR.scan c

theorem fetch {p : Char → Bool} {r : Option Char} (h : c.fetch p = .ok (r, c')) : R c c' := by
  unfold Cursor.fetch at h
  split at h
  · next ch w c₁ hs =>
    obtain ⟨rfl, -⟩ := scan_eq_some hs
    split at h
    · obtain ⟨c₂, hc₂, h⟩ := bind_eq_ok.1 h
      simp only [pure_eq_ok, Prod.mk.injEq] at h
      exact h.2 ▸ hR.consume hs hc₂
    · simp only [pure_eq_ok, Prod.mk.injEq] at h
      exact h.2 ▸ hR.refl _
  · next c₁ hs =>
    simp only [pure_eq_ok, Prod.mk.injEq] at h
    have : c₁ = c.scan.2 := by rw [hs]
    exact h.2 ▸ this ▸ hR.scan c

theorem fetchAny {r : Option Char} (h : c.fetchAny = .ok (r, c')) : R c c' := hR.fetch h

theorem skipRun {p : Char → Bool} {r : List Char × Option Char}
    (h : c.skipRun p = .ok (r, c')) : R c c' := by
  induction c using Cursor.skipRun.induct p generalizing r c' with
  | case1 c ch w c₁ hs hp ih =>
    rw [Cursor.skipRun, hs] at h
    obtain ⟨rfl, -⟩ := scan_eq_some hs
    simp only [hp, if_true] at h
    obtain ⟨c₂, hc₂, h⟩ := bind_eq_ok.1 h
    have hstep := hR.consume hs hc₂
    split at h
    · next hlt =>
      obtain ⟨⟨⟨run, stop⟩, c₃⟩, hc₃, h⟩ := bind_eq_ok.1 h
      simp only [pure_eq_ok, Prod.mk.injEq] at h
      exact h.2 ▸ hR.trans hstep (ih c₂ hlt hc₃)
    · simp only [pure_eq_ok, Prod.mk.injEq] at h
      exact h.2 ▸ hstep
  | case2 c ch w c₁ hs hp =>
    rw [Cursor.skipRun, hs] at h
    obtain ⟨rfl, -⟩ := scan_eq_some hs
    simp only [hp, if_false, Bool.false_eq_true, pure_eq_ok, Prod.mk.injEq] at h
    exact h.2 ▸ hR.refl _
  | case3 c c₁ hs =>
    rw [Cursor.skipRun, hs] at h
    simp only [pure_eq_ok, Prod.mk.injEq] at h
    have : c₁ = c.scan.2 := by rw [hs]
    exact h.2 ▸ this ▸ hR.scan c

theorem skip {p : Char → Bool} {r : Nat × Option Char} (h : c.skip p = .ok (r, c')) :
    R c c' := by
  unfold Cursor.skip at h
  obtain ⟨⟨⟨run, stop⟩, c₁⟩, hc₁, h⟩ := bind_eq_ok.1 h
  simp only [pure_eq_ok, Prod.mk.injEq] at h
  exact h.2 ▸ hR.skipRun hc₁

end ReadClosed

/-! ## Moving on -/

/-- `c'` lies ahead of `c` on the same bytes: it has read on from `c`'s offset, keeps the policy,
stands at `c`'s position if it has not moved, and keeps any fault `c` had; only a strict cursor
can have recorded a new one. -/
structure Forward (c c' : Cursor) : Prop where
  offset_le : c.offset ≤ c'.offset
  rest_eq : c'.rest = c.rest.drop (c'.offset - c.offset)
  position_eq : c'.offset = c.offset → c'.position = c.position
  policy_eq : c'.policy = c.policy
  fault_eq : c'.fault = c.fault ∨ c.fault = none ∧ c.policy = .strict

namespace Forward

theorem refl (c : Cursor) : Forward c c :=
  ⟨Nat.le_refl _, by simp, fun _ => rfl, rfl, .inl rfl⟩

theorem trans {c₁ c₂ c₃ : Cursor} (h₁ : Forward c₁ c₂) (h₂ : Forward c₂ c₃) : Forward c₁ c₃ where
  offset_le := Nat.le_trans h₁.offset_le h₂.offset_le
  rest_eq := by
    rw [h₂.rest_eq, h₁.rest_eq, List.drop_drop]
    congr 1
    have := h₁.offset_le
    have := h₂.offset_le
    omega
  position_eq := fun h => by
    have := h₁.offset_le
    have := h₂.offset_le
    rw [h₂.position_eq (by omega), h₁.position_eq (by omega)]
  policy_eq := h₂.policy_eq.trans h₁.policy_eq
  fault_eq := by
    rcases h₁.fault_eq with e₁ | ⟨n₁, s₁⟩ <;> rcases h₂.fault_eq with e₂ | ⟨n₂, s₂⟩
    · exact .inl (e₂.trans e₁)
    · exact .inr ⟨e₁ ▸ n₂, h₁.policy_eq ▸ s₂⟩
    · exact .inr ⟨n₁, s₁⟩
    · exact .inr ⟨n₁, s₁⟩

theorem length_le {c c' : Cursor} (h : Forward c c') : c'.rest.length ≤ c.rest.length := by
  rw [h.rest_eq, List.length_drop]
  omega

/-- A cursor that has not moved is the cursor it came from, but for a newly recorded fault. -/
theorem eq_of_offset_eq {c c' : Cursor} (h : Forward c c') (ho : c'.offset = c.offset) :
    c' = { c with fault := c'.fault } := by
  have hr : c'.rest = c.rest := by rw [h.rest_eq, ho, Nat.sub_self, List.drop_zero]
  have hp := h.position_eq ho
  have hpol := h.policy_eq
  cases c
  cases c'
  simp only [Cursor.mk.injEq] at *
  exact ⟨hr, ho, hp, hpol, trivial⟩

end Forward

theorem readClosed_forward : ReadClosed Forward where
  refl := Forward.refl
  trans := Forward.trans
  scan c := by
    rcases scan_snd c with h | ⟨hs, n, h⟩
    · rw [h]
      exact Forward.refl c
    · rw [h]
      refine ⟨by simp, by simp, fun _ => by simp, by simp, ?_⟩
      rw [noteFault_fault]
      cases hf : c.fault <;> simp [hs]
  consume hs hc := by
    obtain ⟨p, -, rfl⟩ := consume_eq_ok.1 hc
    have hw := (scan_width hs).1
    exact ⟨by simp, by simp, fun h => by simp at h; omega, rfl, .inl rfl⟩
  leap := by
    intro c s b c' h
    rcases leap_eq_ok h with ⟨-, -, p, hp, rfl⟩ | ⟨-, -, rfl⟩
    · refine ⟨by simp, by simp, fun h => ?_, rfl, .inl rfl⟩
      have hnil : (encode s).length = 0 := by simpa using h
      rw [List.length_eq_zero_iff, encode_eq_nil] at hnil
      simp [Position.advanceText_eq_ok hp, hnil]
    · exact Forward.refl _
  leapFetch h := by
    rcases leapFetch_eq_ok h with ⟨ch, w, q₁, q, -, -, hd, -, -, -, rfl⟩ | ⟨-, rfl⟩
    · have hw := width_pos_of_decode_eq_scalar hd
      exact ⟨by simp; omega, by simp [Nat.add_assoc], fun h => by simp at h; omega, rfl, .inl rfl⟩
    · exact Forward.refl _

end Lexer.Cursor
