import Mathlib
import Lexer.Proofs.Simulation
/-! # Well-formed bytes read alike under both policies

A cursor consults its policy only where `scan` meets an invalid span, and well-formed UTF-8 has
none, now or after any read. So cursors at one place of the same well-formed bytes read alike
whatever their policies (`Cursor.Alike`), and so does every term and every scan.
-/

namespace Lexer

open Cursor

namespace Utf8

/-- Bytes that spell a list of scalars: well-formed UTF-8. -/
def WellFormed (bytes : List UInt8) : Prop :=
  ∃ cs : List Char, bytes = cs.flatMap String.utf8EncodeChar

theorem wellFormed_iff_isValidUTF8 (bytes : List UInt8) :
    WellFormed bytes ↔ ByteArray.IsValidUTF8 bytes.toByteArray := by
  constructor
  · rintro ⟨cs, rfl⟩
    exact ⟨cs, rfl⟩
  · rintro ⟨cs, h⟩
    exact ⟨cs, List.toByteArray_inj.1 h⟩

/-- Bytes after a scalar's encoding in well-formed bytes are well-formed: the encoding decodes as
that scalar, so it is the encoding of the first scalar they spell. -/
theorem WellFormed.of_encodeChar_append {ch : Char} {t : List UInt8}
    (h : WellFormed (String.utf8EncodeChar ch ++ t)) : WellFormed t := by
  obtain ⟨cs, hcs⟩ := h
  cases cs with
  | nil => exact absurd (List.append_eq_nil_iff.1 hcs).1 String.utf8EncodeChar_ne_nil
  | cons c cs =>
    rw [List.flatMap_cons] at hcs
    have hd := congrArg decode hcs
    rw [decode_encodeChar_append, decode_encodeChar_append] at hd
    obtain ⟨rfl, -⟩ := Decoded.scalar.inj hd
    exact ⟨cs, List.append_cancel_left hcs⟩

theorem WellFormed.of_flatMap_append {cs : List Char} {t : List UInt8}
    (h : WellFormed (cs.flatMap String.utf8EncodeChar ++ t)) : WellFormed t := by
  induction cs with
  | nil => simpa using h
  | cons c cs ih =>
    rw [List.flatMap_cons, List.append_assoc] at h
    exact ih h.of_encodeChar_append

theorem WellFormed.decode_ne_invalid {bs : List UInt8} (h : WellFormed bs) (n : Nat) :
    decode bs ≠ .invalid n := by
  obtain ⟨cs, rfl⟩ := h
  cases cs with
  | nil => simp
  | cons c cs =>
    rw [List.flatMap_cons, decode_encodeChar_append]
    simp

theorem WellFormed.drop_of_decode {bs : List UInt8} {ch : Char} {w : Nat} (h : WellFormed bs)
    (hd : decode bs = .scalar ch w) : WellFormed (bs.drop w) := by
  rw [← List.take_append_drop w bs, take_eq_of_decode_eq_scalar hd] at h
  exact h.of_encodeChar_append

theorem WellFormed.drop_of_prefix {bs : List UInt8} {s : String} (h : WellFormed bs)
    (hp : encode s <+: bs) : WellFormed (bs.drop (encode s).length) := by
  rw [← List.prefix_iff_eq_append.1 hp] at h
  exact WellFormed.of_flatMap_append h

end Utf8

open Utf8

theorem Sim.refl {ε α : Type} {E : ε → Prop} (x : Except ε α) : Sim E (· = ·) x x :=
  fun a ha => .inl ⟨a, ha, rfl⟩

/-- Two cursors at the same place of the same well-formed bytes, both holding the fault `f`. Their
policies may differ: at well-formed bytes no read consults them. -/
structure Cursor.Alike (f : Option Utf8Fault) (c d : Cursor) : Prop where
  rest_eq : c.rest = d.rest
  offset_eq : c.offset = d.offset
  position_eq : c.position = d.position
  fault_left : c.fault = f
  fault_right : d.fault = f
  wellFormed : WellFormed c.rest

namespace Cursor.Alike

variable {f : Option Utf8Fault} {c d : Cursor}

theorem moved (h : Alike f c d) {n : Nat} (hw : WellFormed (c.rest.drop n)) (p : Position) :
    Alike f { c with rest := c.rest.drop n, offset := c.offset + n, position := p }
      { d with rest := c.rest.drop n, offset := d.offset + n, position := p } :=
  ⟨rfl, by rw [h.offset_eq], rfl, h.fault_left, h.fault_right, hw⟩

/-- Cursors alike read alike, whatever their policies: no read of theirs meets an invalid span, and
every read leaves well-formed bytes behind it. -/
theorem simulation (f : Option Utf8Fault) : Simulation (fun _ => False) (Alike f) where
  rest_eq h := h.rest_eq
  offset_eq h := h.offset_eq
  scan {c d} h := by
    unfold Cursor.scan
    rw [← h.rest_eq]
    split
    · exact ⟨rfl, h⟩
    · exact ⟨rfl, h⟩
    · next n hd => exact absurd hd (h.wellFormed.decode_ne_invalid n)
  consume {c d ch w} hs h := by
    have hd : decode c.rest = .scalar ch w := by
      rcases (scan_eq_some hs).2 with hd | ⟨hd, -⟩
      · exact hd
      · exact absurd hd (h.wellFormed.decode_ne_invalid w)
    unfold Cursor.consume
    rw [← h.rest_eq, ← h.position_eq]
    refine (Sim.refl _).bind fun p q hpq => ?_
    subst hpq
    exact Sim.pure (h.moved (h.wellFormed.drop_of_decode hd) p)
  leap {c d s} h := by
    unfold Cursor.leap
    dsimp only
    rw [← h.rest_eq, ← h.position_eq]
    split
    · next hp =>
      refine (Sim.refl _).bind fun p q hpq => ?_
      subst hpq
      exact Sim.pure ⟨rfl, h.moved (h.wellFormed.drop_of_prefix
        (List.isPrefixOf_iff_prefix.1 hp)) p⟩
    · exact Sim.pure ⟨rfl, h⟩
  leapFetch {c d s p} h := by
    unfold Cursor.leapFetch
    dsimp only
    rw [← h.rest_eq, ← h.position_eq]
    split
    · next hp =>
      split
      · next ch w hd =>
        split
        · refine (Sim.refl _).bind fun q₁ q₁' hq₁ => ?_
          subst hq₁
          refine (Sim.refl _).bind fun q q' hq => ?_
          subst hq
          have hw := (h.wellFormed.drop_of_prefix
            (List.isPrefixOf_iff_prefix.1 hp)).drop_of_decode hd
          rw [List.drop_drop] at hw
          have hm := h.moved hw q
          rw [← Nat.add_assoc, ← Nat.add_assoc] at hm
          exact Sim.pure ⟨rfl, hm⟩
        · exact Sim.pure ⟨rfl, h⟩
      · exact Sim.pure ⟨rfl, h⟩
    · exact Sim.pure ⟨rfl, h⟩

end Cursor.Alike

theorem init_alike {bytes : List UInt8} (hw : WellFormed bytes) (origin : Position)
    (p q : Utf8Policy) :
    Cursor.Alike none (Cursor.init bytes p origin) (Cursor.init bytes q origin) :=
  ⟨rfl, rfl, rfl, rfl, rfl, hw⟩

/-- Over well-formed UTF-8 the policy makes no difference. A strict scan and a lenient scan of the
same bytes from the same origin give the same tokens (keys, text, values and positions) and end
alike: where either gives a result, the other gives the same. And a term attempted at any cursor
over well-formed bytes, under one policy and under the other, ends with the same outcome and the
same writes, at the same place and position, and neither run records a fault. -/
theorem well_formed_reads_alike_under_both_policies :
    (∀ {κ : Type} (bindings : List (Binding κ)) (bytes : List UInt8) (origin : Position),
      ByteArray.IsValidUTF8 bytes.toByteArray → ∀ r,
        tokenize bindings bytes .strict origin = .ok r ↔
          tokenize bindings bytes .lenient origin = .ok r) ∧
    ∀ (t : Term) (c : Cursor) (p q : Utf8Policy) (a : Attempt),
      ByteArray.IsValidUTF8 c.rest.toByteArray → t.attempt { c with policy := p } = .ok a →
      ∃ b, t.attempt { c with policy := q } = .ok b ∧ b.outcome = a.outcome ∧
        b.written = a.written ∧ b.cursor.rest = a.cursor.rest ∧
        b.cursor.offset = a.cursor.offset ∧ b.cursor.position = a.cursor.position ∧
        a.cursor.fault = c.fault ∧ b.cursor.fault = c.fault := by
  refine ⟨fun bindings bytes origin hv r => ?_, fun t c p q a hv ha => ?_⟩
  · have hw := (wellFormed_iff_isValidUTF8 bytes).2 hv
    have follows : ∀ p q, tokenize bindings bytes p origin = .ok r →
        tokenize bindings bytes q origin = .ok r := fun p q hr => by
      obtain ⟨r', hr', hrel⟩ := ((Cursor.Alike.simulation none).scanTokens (ψ := id) (φ := id)
        (fun h => h.position_eq) (fun h => by rw [h.fault_left, h.fault_right])
        (init_alike hw origin p q)).ok hr
      rw [relocateScan_id, relocateScan_id] at hrel
      exact hrel ▸ hr'
    exact ⟨follows .strict .lenient, follows .lenient .strict⟩
  · have halike : Cursor.Alike c.fault { c with policy := p } { c with policy := q } :=
      ⟨rfl, rfl, rfl, rfl, rfl, (wellFormed_iff_isValidUTF8 _).2 hv⟩
    obtain ⟨b, hb, hagree⟩ := ((Cursor.Alike.simulation c.fault).attempt t halike).ok ha
    exact ⟨b, hb, hagree.outcome_eq.symm, hagree.written_eq.symm, hagree.cursor.rest_eq.symm,
      hagree.cursor.offset_eq.symm, hagree.cursor.position_eq.symm, hagree.cursor.fault_left,
      hagree.cursor.fault_right⟩

/-- The two bytes of `é` are one token under either policy: the lenient scan takes them as the
strict one does. -/
theorem accented_scalar_scans_alike :
    ByteArray.IsValidUTF8 [0xC3, 0xA9].toByteArray ∧
      tokenize [⟨0, .scalarIn .univ, "any"⟩] [0xC3, 0xA9] .lenient Position.start =
        .ok ([⟨0, [0xC3, 0xA9], [], ⟨0, 0⟩⟩], none) := by
  have hv : ByteArray.IsValidUTF8 [0xC3, 0xA9].toByteArray :=
    (wellFormed_iff_isValidUTF8 _).1 ⟨['é'], by decide⟩
  refine ⟨hv, (well_formed_reads_alike_under_both_policies.1 _ _ _ hv _).1 ?_⟩
  cbv

end Lexer
