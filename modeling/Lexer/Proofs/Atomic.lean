import Mathlib
import Lexer.Proofs.Numeral
import Lexer.Proofs.Origin
import Lexer.Proofs.Units
/-! # A literal and the scalar after it, at once

`Cursor.leapFetch s p` decodes the bytes after `s` itself, whatever the policy, so it takes only a
well-formed scalar. Where `s` and such a scalar stand ahead it does what `leap s` and then
`fetch p` do; anywhere else it leaves the cursor as it was.
-/

namespace Lexer.Cursor

open Utf8

variable {c : Cursor} {s : String} {p : Char → Bool} {ch : Char}

theorem leapFetch_some {c' : Cursor} (h : c.leapFetch s p = .ok (some ch, c')) :
    encode s ++ String.utf8EncodeChar ch <+: c.rest ∧ p ch = true := by
  rcases leapFetch_eq_ok h with
    ⟨ch', w, q₁, q, hr, ⟨t, ht⟩, hd, hp, -, -, -⟩ | ⟨hr, -⟩
  · obtain rfl := Option.some.inj hr
    rw [← ht, List.drop_left] at hd
    refine ⟨?_, hp⟩
    rw [← ht]
    exact (List.prefix_append_right_inj (encode s)).2 (decode_eq_scalar_iff.1 hd).1
  · cases hr

theorem spelled_ahead (h : encode s ++ String.utf8EncodeChar ch <+: c.rest) :
    (encode s).isPrefixOf c.rest = true ∧
      decode (c.rest.drop (encode s).length) = .scalar ch (String.utf8EncodeChar ch).length := by
  obtain ⟨t, ht⟩ := h
  refine ⟨List.isPrefixOf_iff_prefix.2 ⟨_, by rw [← ht, List.append_assoc]⟩, ?_⟩
  rw [← ht, List.append_assoc, List.drop_left, decode_encodeChar_append]

/-- Where the text and a scalar that `p` accepts stand ahead, `leapFetch` is `leap` then `fetch`:
the same scalar, the same cursor, or the same halt. -/
theorem leapFetch_eq_leap_bind_fetch (h : encode s ++ String.utf8EncodeChar ch <+: c.rest)
    (hp : p ch = true) : c.leapFetch s p = (c.leap s >>= fun r => r.2.fetch p) := by
  obtain ⟨hpre, hdec⟩ := spelled_ahead h
  unfold leapFetch leap
  simp only [hpre, hdec, hp, if_true]
  cases hq : c.position.advanceText s with
  | error e => rfl
  | ok q =>
    simp only [bind, Except.bind, pure, Except.pure, fetch, scan, hdec, hp, if_true, consume]
    cases q.advance ch with
    | error e => rfl
    | ok q' => simp [List.drop_drop, Nat.add_assoc]

theorem leapFetch_spelled_or_overflow (h : encode s ++ String.utf8EncodeChar ch <+: c.rest)
    (hp : p ch = true) :
    c.leapFetch s p = .ok (some ch, c.past (s.toList ++ [ch])) ∨
      c.leapFetch s p = .error .countOverflow := by
  obtain ⟨hpre, hdec⟩ := spelled_ahead h
  unfold leapFetch
  simp only [hpre, hdec, hp, if_true]
  rcases Position.advanceText_ok_or_overflow c.position s with hq | hq <;> rw [hq]
  · rcases Position.advance_ok_or_overflow (c.position.along s.toList) ch with hq' | hq'
    · left
      simp only [bind, Except.bind, hq', pure, Except.pure]
      simp [past, encode_eq_encodeAll, Nat.add_assoc]
    · right
      simp only [bind, Except.bind, hq']
  · exact .inr rfl

/-- `leapFetch s p` reads the text `s` and a scalar after it as one step. It takes the scalar `ch`
only where the bytes ahead are `s` and then the encoding of `ch`, and `p` accepts `ch`. There it
does what `leap s` and then `fetch p` do: it takes `ch` and moves past both, to the position they
lead to, with the fault kept as it was, or it halts on a count overflow, which cannot happen
where the counts fit. Anywhere else, the end of the bytes and an invalid span after `s` included
under either policy, it takes nothing and leaves the cursor, its fault too, exactly as it was. -/
theorem leapFetch_is_leap_then_fetch (c : Cursor) (s : String) (p : Char → Bool) :
    (∀ ch c', c.leapFetch s p = .ok (some ch, c') →
      encode s ++ String.utf8EncodeChar ch <+: c.rest ∧ p ch = true) ∧
    (∀ ch, encode s ++ String.utf8EncodeChar ch <+: c.rest → p ch = true →
      c.leapFetch s p = (c.leap s >>= fun r => r.2.fetch p) ∧
      (c.leapFetch s p = .ok (some ch, c.past (s.toList ++ [ch])) ∨
        c.leapFetch s p = .error .countOverflow) ∧
      (c.position.Fits (s.toList ++ [ch]) →
        c.leapFetch s p = .ok (some ch, c.past (s.toList ++ [ch])))) ∧
    ((¬ ∃ ch, p ch = true ∧ encode s ++ String.utf8EncodeChar ch <+: c.rest) →
      c.leapFetch s p = .ok (none, c)) := by
  refine ⟨fun ch c' h => leapFetch_some h, fun ch h hp => ?_, leapFetch_absent⟩
  obtain ⟨t, ht⟩ := h
  exact ⟨leapFetch_eq_leap_bind_fetch ⟨t, ht⟩ hp, leapFetch_spelled_or_overflow ⟨t, ht⟩ hp,
    leapFetch_spelled (by rw [← ht, List.append_assoc]) hp⟩

/-- The lead `0x` and a hexadecimal digit are read together; after `0x`, an invalid byte is read
as nothing, even by a predicate that accepts every scalar. -/
theorem hex_digit_read_with_its_lead :
    (encode "0x" ++ String.utf8EncodeChar 'f' <+: (init [0x30, 0x78, 0x66] .strict .start).rest ∧
      'f'.isHexDigit = true ∧
      (init [0x30, 0x78, 0x66] .strict .start).leapFetch "0x" Char.isHexDigit =
        ((init [0x30, 0x78, 0x66] .strict .start).leap "0x" >>= fun r =>
          r.2.fetch Char.isHexDigit)) ∧
    ((¬ ∃ ch, (fun _ => true) ch = true ∧ encode "0x" ++ String.utf8EncodeChar ch <+:
        (init [0x30, 0x78, 0xFF] .strict .start).rest) ∧
      (init [0x30, 0x78, 0xFF] .strict .start).leapFetch "0x" (fun _ => true) =
        .ok (none, init [0x30, 0x78, 0xFF] .strict .start)) := by
  have hf : encode "0x" ++ String.utf8EncodeChar 'f' <+:
      (init [0x30, 0x78, 0x66] .strict .start).rest := ⟨[], rfl⟩
  have hno : ¬ ∃ ch, (fun _ => true) ch = true ∧ encode "0x" ++ String.utf8EncodeChar ch <+:
      (init [0x30, 0x78, 0xFF] .strict .start).rest := by
    rintro ⟨ch, -, hpre⟩
    have hrest : (init [0x30, 0x78, 0xFF] .strict .start).rest = encode "0x" ++ [0xFF] := rfl
    rw [hrest, List.prefix_append_right_inj] at hpre
    have hinv : decode [0xFF] = .invalid 1 := by decide
    exact (decode_eq_invalid_iff.1 hinv).2.1 ch hpre
  exact ⟨⟨hf, rfl, ((leapFetch_is_leap_then_fetch _ "0x" Char.isHexDigit).2.1 'f' hf rfl).1⟩,
    hno, (leapFetch_is_leap_then_fetch _ "0x" fun _ => true).2.2 hno⟩

/-- From the last column, the text `b` and a line feed after it stand ahead and the predicate
accepts the line feed, yet `leapFetch` takes nothing: the column passes `maxCount` over `b`
before the line feed would open a new line. -/
theorem leapFetch_overflows_before_line_feed :
    encode "b" ++ String.utf8EncodeChar '\n' <+:
        (init [0x62, 0x0A] .lenient ⟨0, maxCount⟩).rest ∧
      (init [0x62, 0x0A] .lenient ⟨0, maxCount⟩).leapFetch "b" (fun _ => true) =
        .error .countOverflow :=
  ⟨⟨[], rfl⟩, rfl⟩

end Lexer.Cursor
