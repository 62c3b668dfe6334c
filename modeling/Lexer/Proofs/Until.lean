import Mathlib
import Lexer.Proofs.UnitLoop
import Lexer.Proofs.Termination
/-! # Reading up to a terminator

`Term.untilText opener s` reads the opener, then every unit up to the first place where the bytes
of `s` stand, or with `s` empty up to the end of the line. Both loops find the first occurrence of
their terminator (`until_reads_to_first_terminator`), unless a count overflows on the way.
-/

namespace Lexer

open Utf8 Cursor

/-! ## The loops, step by step -/

section Steps

variable {d : Cursor}

theorem readToStop_reads {stop : Step} (hs : stop d = .ok (.failed .unmatched d .empty))
    (hne : d.rest ≠ []) (hr : d.policy.Reads (decode d.rest)) :
    readToStop stop d = d.consume (decode d.rest).reading (decode d.rest).width >>= fun d' =>
      readToStop stop d' >>= fun b => pure (b.after (.ofChar (decode d.rest).reading)) := by
  rw [readToStop, hs]
  change (d.fetchAny >>= _) = _
  rw [fetchAny_reads hne hr, bind_assoc]
  refine bind_congr_of_ok fun d' hd' => ?_
  change (if d'.rest.length < d.rest.length then _ else _) = _
  rw [if_pos (consume_rest_lt hne hd')]

theorem readToStop_unread {stop : Step} (hs : stop d = .ok (.failed .unmatched d .empty))
    (h : d.rest = [] ∨ ¬ d.policy.Reads (decode d.rest)) :
    ∃ d', readToStop stop d = .ok (.failed .unterminated d' .empty) := by
  obtain ⟨d', hd'⟩ := fetchAny_unread h
  refine ⟨d', ?_⟩
  rw [readToStop, hs]
  change (d.fetchAny >>= _) = _
  rw [hd']
  rfl

theorem literal_absent {s : String} (h : ¬ encode s <+: d.rest) :
    (Term.literal s).attempt d = .ok (.failed .unmatched d .empty) := by
  simp only [Term.attempt]
  rw [leap_absent h]
  rfl

/-- Where the literal stands, the loop up to it moves past it and writes nothing more. -/
theorem readToStop_literal {s : String} (h : encode s <+: d.rest) :
    readToStop (Term.literal s).attempt d = d.position.advanceText s >>= fun _ =>
      pure (.matched (d.across (encode s).length s.toList) .empty) := by
  rw [readToStop]
  simp only [Term.attempt, leap, if_pos (List.isPrefixOf_iff_prefix.2 h), bind_assoc]
  refine bind_congr_of_ok fun p hp => ?_
  rw [Position.advanceText_eq_ok hp]
  rfl

/-- The bytes ahead begin with the end of a line: they are the end of the input, or begin with a
line feed, or with a carriage return and a line feed. -/
def LineEndAhead (bytes : List UInt8) : Prop := bytes = [] ∨ [10] <+: bytes ∨ [13, 10] <+: bytes

theorem reading_ne_lf (hs : ¬ LineEndAhead d.rest) : (decode d.rest).reading ≠ '\n' := by
  intro h
  cases hd : decode d.rest with
  | scalar ch w =>
    rw [hd, reading_scalar] at h
    subst h
    have he : String.utf8EncodeChar '\n' = [10] := by decide
    exact hs (.inr (.inl (he ▸ (decode_eq_scalar_iff.1 hd).1)))
  | invalid n =>
    rw [hd, reading_invalid] at h
    exact absurd h (by decide)
  | empty =>
    rw [hd] at h
    exact absurd h (by decide)

theorem hop_other {ch : Char} (hne : d.rest ≠ []) (hr : d.policy.Reads (decode d.rest))
    (hch : (decode d.rest).reading ≠ ch) : d.hop ch = .ok (false, d) := by
  unfold hop scan
  obtain ⟨b, t, hbt⟩ := List.exists_cons_of_ne_nil hne
  rcases decode_cons_cases b t with ⟨c, w, hd⟩ | hd <;> rw [← hbt] at hd <;> rw [hd] at hch ⊢
  · exact if_neg hch
  · rcases hr with hl | hs
    · rw [hl]
      exact if_neg hch
    · rw [hd] at hs
      cases hs

theorem hop_unread {ch : Char} (hne : d.rest ≠ []) (hr : ¬ d.policy.Reads (decode d.rest)) :
    ∃ d₁, d.hop ch = .ok (false, d₁) ∧ d₁.rest = d.rest ∧ d₁.policy = d.policy := by
  unfold hop scan
  cases hd : decode d.rest with
  | scalar c w =>
    rw [hd] at hr
    exact absurd (.inr rfl) hr
  | empty => exact absurd (decode_eq_empty_iff.1 hd) hne
  | invalid n =>
    cases hp : d.policy with
    | lenient => exact absurd (.inl hp) hr
    | strict => exact ⟨d.noteFault n, rfl, noteFault_rest d n, (noteFault_policy d n).trans hp⟩

theorem encode_crlf : encode "\r\n" = [13, 10] := by decide

theorem readToLineEnd_reads (hs : ¬ LineEndAhead d.rest) (hne : d.rest ≠ [])
    (hr : d.policy.Reads (decode d.rest)) :
    readToLineEnd d = d.consume (decode d.rest).reading (decode d.rest).width >>= fun d' =>
      readToLineEnd d' >>= fun b => pure (b.after (.ofChar (decode d.rest).reading)) := by
  have hdone : d.done = false := by simpa [Cursor.done] using hne
  have hcrlf : ¬ encode "\r\n" <+: d.rest := fun h => hs (.inr (.inr (encode_crlf ▸ h)))
  rw [readToLineEnd, if_neg (by simp [hdone]), hop_other hne hr (reading_ne_lf hs), ok_bind]
  change (d.leap "\r\n" >>= _) = _
  rw [leap_absent hcrlf, ok_bind]
  change (d.fetchAny >>= _) = _
  rw [fetchAny_reads hne hr, bind_assoc]
  refine bind_congr_of_ok fun d' hd' => ?_
  change (if d'.rest.length < d.rest.length then _ else _) = _
  rw [if_pos (consume_rest_lt hne hd')]

theorem readToLineEnd_unread (hs : ¬ LineEndAhead d.rest)
    (h : d.rest = [] ∨ ¬ d.policy.Reads (decode d.rest)) :
    ∃ d', readToLineEnd d = .ok (.failed .unterminated d' .empty) := by
  have hne : d.rest ≠ [] := fun h => hs (.inl h)
  have hr : ¬ d.policy.Reads (decode d.rest) := h.resolve_left hne
  have hdone : d.done = false := by simpa [Cursor.done] using hne
  obtain ⟨d₁, hh, hrest, hpol⟩ : ∃ d₁, d.hop '\n' = .ok (false, d₁) ∧ d₁.rest = d.rest ∧
      d₁.policy = d.policy := hop_unread hne hr
  have hcrlf : ¬ encode "\r\n" <+: d₁.rest := fun h => hs (.inr (.inr (hrest ▸ encode_crlf ▸ h)))
  obtain ⟨d', hd'⟩ := fetchAny_unread (d := d₁) (.inr (by rw [hrest, hpol]; exact hr))
  refine ⟨d', ?_⟩
  rw [readToLineEnd, if_neg (by simp [hdone]), hh, ok_bind]
  change (d₁.leap "\r\n" >>= _) = _
  rw [leap_absent hcrlf, ok_bind]
  change (d₁.fetchAny >>= _) = _
  rw [hd']
  rfl

theorem readToLineEnd_nil (h : d.rest = []) : readToLineEnd d = .ok (.matched d .empty) := by
  rw [readToLineEnd, if_pos (by simp [Cursor.done, h])]
  rfl

theorem decode_lf (t : List UInt8) : decode (10 :: t) = .scalar '\n' 1 := by
  rw [decode_of_lt _ _ (by decide)]
  rfl

theorem decode_cr (t : List UInt8) : decode (13 :: t) = .scalar '\r' 1 := by
  rw [decode_of_lt _ _ (by decide)]
  rfl

theorem readToLineEnd_lf {t : List UInt8} (h : d.rest = 10 :: t) :
    readToLineEnd d = d.position.advance '\n' >>= fun _ =>
      pure (.matched (d.across 1 ['\n']) .empty) := by
  have hdone : d.done = false := by simp [Cursor.done, h]
  have hd : decode d.rest = .scalar '\n' 1 := by rw [h, decode_lf]
  rw [readToLineEnd, if_neg (by simp [hdone])]
  simp only [hop, scan, hd, if_true, consume, bind_assoc]
  refine bind_congr_of_ok fun p hp => ?_
  rw [Position.advance_eq_ok hp]
  rfl

/-- At a carriage return and a line feed, the loop up to the end of the line moves past both. -/
theorem readToLineEnd_crlf {t : List UInt8} (h : d.rest = 13 :: 10 :: t) :
    readToLineEnd d = d.position.advanceText "\r\n" >>= fun _ =>
      pure (.matched (d.across 2 ['\r', '\n']) .empty) := by
  have hdone : d.done = false := by simp [Cursor.done, h]
  have hd : decode d.rest = .scalar '\r' 1 := by rw [h, decode_cr]
  have hcrlf : encode "\r\n" <+: d.rest := by rw [h, encode_crlf]; exact ⟨t, rfl⟩
  rw [readToLineEnd, if_neg (by simp [hdone])]
  simp only [hop, scan, hd, show ('\r' = '\n') = False by decide, if_false]
  change (d.leap "\r\n" >>= _) = _
  simp only [leap, if_pos (List.isPrefixOf_iff_prefix.2 hcrlf), bind_assoc]
  refine bind_congr_of_ok fun p hp => ?_
  rw [Position.advanceText_eq_ok hp, encode_crlf]
  rfl

end Steps

/-! ## Up to a text -/

/-- A text that is not empty stands only where a unit can begin. -/
theorem aligned_encode {s : String} (hs : s ≠ "") : Aligned (encode s <+: ·) := by
  intro x t h
  obtain ⟨b, u, he⟩ := List.exists_cons_of_ne_nil (mt encode_eq_nil.1 (by simpa using hs))
  rw [he, List.cons_prefix_cons] at h
  rw [← h.1]
  exact encode_head_not_continuation he

theorem readToStop_unitLoop (s : String) :
    UnitLoop (encode s <+: ·) (readToStop (Term.literal s).attempt) where
  read _ hs hne hr := readToStop_reads (literal_absent hs) hne hr
  unread _ hs h := readToStop_unread (literal_absent hs) h

/-- What reading from `d` up to the bytes of `s` gives, when it ends without a count overflow: it
matches exactly where `s` stands somewhere ahead after units the cursor reads, and then it has
moved past the first place where `s` stands and written the units before it, each invalid span
as U+FFFD; otherwise it is `unterminated`. -/
structure ReadsToText (s : String) (d : Cursor) (b : Attempt) : Prop where
  matched_iff : b.outcome = .matched ↔
    ∃ k, encode s <+: d.rest.drop k ∧ ∀ u ∈ unitsBefore d.rest k, d.policy.Reads u
  matched : b.outcome = .matched → ∃ k, FirstAt (encode s <+: ·) d.rest k ∧
    b.cursor = d.across (k + (encode s).length)
      ((unitsBefore d.rest k).map Decoded.reading ++ s.toList) ∧
    b.written = .ofChars ((unitsBefore d.rest k).map Decoded.reading)
  unterminated : b.outcome ≠ .matched → b.outcome = .failed .unterminated

/-- The loop up to a text that is not empty reads up to its first occurrence. -/
theorem readToStop_literal_result {s : String} (hs : s ≠ "") {d : Cursor} {b : Attempt}
    (h : readToStop (Term.literal s).attempt d = .ok b) : ReadsToText s d b := by
  rcases (readToStop_unitLoop s).result (aligned_encode hs) h with
    ⟨k, hk, -, hr, b', hb', rfl⟩ | ⟨hu, hno⟩
  · rw [readToStop_literal (by simpa using hk.1)] at hb'
    obtain ⟨p, -, hb'⟩ := bind_eq_ok.1 hb'
    rw [pure_eq_ok] at hb'
    subst hb'
    exact ⟨iff_of_true rfl ⟨k, hk.1, hr⟩,
      fun _ => ⟨k, hk, by simp [across_across], by simp⟩, fun h => absurd rfl h⟩
  · refine ⟨iff_of_false (by simp [hu]) hno, fun h => ?_, fun _ => hu⟩
    rw [hu] at h
    cases h

theorem readToStop_literal_ok (s : String) {d : Cursor}
    (hfit : d.position.Fits ((units d.rest).map Decoded.reading)) :
    ∃ b, readToStop (Term.literal s).attempt d = .ok b := by
  refine (readToStop_unitLoop s).ok_of_fits (fun d hs hfit => ?_) d hfit
  obtain ⟨t, ht⟩ := hs
  rw [← ht, units_encode_append, List.map_append, List.map_map] at hfit
  have hfit' := (Position.Fits.append hfit).1
  rw [show Decoded.reading ∘ scalarUnit = id from rfl, List.map_id] at hfit'
  rw [readToStop_literal ⟨t, ht⟩, hfit'.advanceText]
  exact ⟨_, rfl⟩

/-! ## Up to the end of a line -/

theorem aligned_lineEndAhead : Aligned LineEndAhead := by
  rintro x t (h | h | h)
  · cases h
  · rw [List.cons_prefix_cons] at h
    rw [← h.1]
    decide
  · rw [List.cons_prefix_cons] at h
    rw [← h.1]
    decide

theorem readToLineEnd_unitLoop : UnitLoop LineEndAhead readToLineEnd where
  read _ hs hne hr := readToLineEnd_reads hs hne hr
  unread _ hs h := readToLineEnd_unread hs h

/-- Where the text of a line ends: at its line feed, or at a carriage return right before it; at
the end of the bytes when no line feed comes. -/
def lineBodyEnd (bytes : List UInt8) : Nat :=
  if 10 ∈ bytes ∧ 0 < bytes.idxOf 10 ∧ bytes[bytes.idxOf 10 - 1]? = some 13 then bytes.idxOf 10 - 1
  else bytes.idxOf 10

section LineEnd

variable {bs : List UInt8} {j : Nat}

theorem idxOf_lf_of_drop {t : List UInt8} (hd : bs.drop j = 10 :: t)
    (hn : ∀ i < j, bs[i]? ≠ some 10) : bs.idxOf 10 = j := by
  have hlen : j < bs.length := by
    by_contra hge
    rw [List.drop_eq_nil_iff.2 (by omega)] at hd
    cases hd
  have hm : 10 ∉ bs.take j := by
    intro hm
    obtain ⟨i, hi, hx⟩ := List.mem_take_iff_getElem.1 hm
    exact hn i (by omega) (by rw [List.getElem?_eq_getElem (by omega), hx])
  rw [← List.take_append_drop j bs, hd, List.idxOf_append_of_notMem hm, List.idxOf_cons_self,
    List.length_take, min_eq_left hlen.le, Nat.add_zero]

theorem Utf8.FirstAt.lf_not_before (hj : FirstAt LineEndAhead bs j) :
    ∀ i < j, bs[i]? ≠ some 10 := by
  intro i hi hx
  obtain ⟨hlt, hx⟩ := List.getElem?_eq_some_iff.1 hx
  exact hj.2 i hi (.inr (.inl ⟨bs.drop (i + 1), by rw [List.drop_eq_getElem_cons hlt, hx]; rfl⟩))

theorem Utf8.FirstAt.of_drop_nil (hj : FirstAt LineEndAhead bs j) (h : bs.drop j = []) :
    j = bs.length ∧ bs.idxOf 10 = bs.length ∧ lineBodyEnd bs = bs.length := by
  have hle := List.drop_eq_nil_iff.1 h
  have hj' : j = bs.length := by
    by_contra hne
    exact hj.2 bs.length (by omega) (.inl (List.drop_length ..))
  have hm : 10 ∉ bs := by
    intro hm
    obtain ⟨i, hi, hx⟩ := List.getElem_of_mem hm
    exact hj.lf_not_before i (by omega) (by rw [List.getElem?_eq_getElem hi, hx])
  refine ⟨hj', List.idxOf_eq_length hm, ?_⟩
  rw [lineBodyEnd, if_neg (fun h => hm h.1), List.idxOf_eq_length hm]

theorem Utf8.FirstAt.of_drop_lf {t : List UInt8} (hj : FirstAt LineEndAhead bs j)
    (h : bs.drop j = 10 :: t) : bs.idxOf 10 = j ∧ lineBodyEnd bs = j := by
  have hidx := idxOf_lf_of_drop h hj.lf_not_before
  refine ⟨hidx, ?_⟩
  rw [lineBodyEnd, hidx, if_neg]
  rintro ⟨-, hpos, hcr⟩
  obtain ⟨hlt, hcr⟩ := List.getElem?_eq_some_iff.1 hcr
  refine hj.2 (j - 1) (by omega) (.inr (.inr ⟨t, ?_⟩))
  rw [List.drop_eq_getElem_cons hlt, hcr, Nat.sub_add_cancel hpos, h]
  rfl

theorem Utf8.FirstAt.of_drop_crlf {t : List UInt8} (hj : FirstAt LineEndAhead bs j)
    (h : bs.drop j = 13 :: 10 :: t) : bs.idxOf 10 = j + 1 ∧ lineBodyEnd bs = j := by
  have hcr : bs[j]? = some 13 := by rw [← List.head?_drop, h]; rfl
  have hlf : bs.drop (j + 1) = 10 :: t := by rw [← List.drop_drop, h]; rfl
  have hidx : bs.idxOf 10 = j + 1 := by
    refine idxOf_lf_of_drop hlf fun i hi hx => ?_
    rcases Nat.lt_succ_iff_lt_or_eq.1 hi with hi | rfl
    · exact hj.lf_not_before i hi hx
    · rw [hcr] at hx
      cases hx
  have hm : 10 ∈ bs := List.idxOf_lt_length_iff.1 (by
    rw [hidx]
    have := congrArg List.length hlf
    simp only [List.length_drop, List.length_cons] at this
    omega)
  refine ⟨hidx, ?_⟩
  rw [lineBodyEnd, hidx, if_pos ⟨hm, Nat.succ_pos j, by simpa using hcr⟩, Nat.add_sub_cancel]

theorem length_of_drop_eq {l : List UInt8} (h : bs.drop j = l) (hl : l ≠ []) :
    bs.length = j + l.length := by
  have hlen := congrArg List.length h
  rw [List.length_drop] at hlen
  have : l.length ≠ 0 := by simpa using hl
  omega

theorem unitsBefore_lf {t : List UInt8} (hb : IsBoundary bs j) (h : bs.drop j = 10 :: t) :
    unitsBefore bs (j + 1) = unitsBefore bs j ++ [.scalar '\n' 1] ∧ IsBoundary bs (j + 1) := by
  have hnext := unitsBefore_next hb (by simp [h])
  rw [h, decode_lf] at hnext
  exact hnext

theorem unitsBefore_crlf {t : List UInt8} (hb : IsBoundary bs j) (h : bs.drop j = 13 :: 10 :: t) :
    unitsBefore bs (j + 1) = unitsBefore bs j ++ [.scalar '\r' 1] ∧
      unitsBefore bs (j + 1 + 1) = unitsBefore bs j ++ [.scalar '\r' 1, .scalar '\n' 1] := by
  have hcr := unitsBefore_next hb (by simp [h])
  rw [h, decode_cr] at hcr
  simp only [Decoded.width] at hcr
  have hlf := unitsBefore_lf hcr.2 (show bs.drop (j + 1) = 10 :: t by rw [← List.drop_drop, h]; rfl)
  refine ⟨hcr.1, ?_⟩
  rw [hlf.1, hcr.1, List.append_assoc]
  rfl

end LineEnd

theorem lineEndAhead_idxOf (bs : List UInt8) : LineEndAhead (bs.drop (bs.idxOf 10)) := by
  by_cases hm : 10 ∈ bs
  · have hlt := List.idxOf_lt_length_iff.2 hm
    refine .inr (.inl ⟨bs.drop (bs.idxOf 10 + 1), ?_⟩)
    rw [List.drop_eq_getElem_cons hlt, List.getElem_idxOf hlt]
    rfl
  · rw [List.idxOf_eq_length hm, List.drop_length]
    exact .inl rfl

/-- What reading from `d` up to the end of the line gives, when it ends without a count overflow:
it matches exactly where the cursor reads every unit before the first line feed, or every unit
when none comes; then it has moved past the line feed, or to the end, and written the units
before the line feed but a carriage return right before it. Otherwise it is `unterminated`. -/
structure ReadsToLineEnd (d : Cursor) (b : Attempt) : Prop where
  matched_iff : b.outcome = .matched ↔
    ∀ u ∈ unitsBefore d.rest (d.rest.idxOf 10), d.policy.Reads u
  matched : b.outcome = .matched →
    b.cursor = d.across (min (d.rest.idxOf 10 + 1) d.rest.length)
      ((unitsBefore d.rest (d.rest.idxOf 10 + 1)).map Decoded.reading) ∧
    b.written = .ofChars ((unitsBefore d.rest (lineBodyEnd d.rest)).map Decoded.reading)
  unterminated : b.outcome ≠ .matched → b.outcome = .failed .unterminated

/-- Where the loop up to the end of a line reaches the first line end `j` after units the cursor
reads, it ends there with a match: past the line feed, or at the end. -/
theorem readToLineEnd_at_first {d : Cursor} {j : Nat} {b : Attempt}
    (hj : FirstAt LineEndAhead d.rest j) (hb : IsBoundary d.rest j)
    (hr : ∀ u ∈ unitsBefore d.rest j, d.policy.Reads u)
    (h : readToLineEnd (d.across j ((unitsBefore d.rest j).map Decoded.reading)) = .ok b) :
    b.outcome = .matched ∧ b.written = .empty ∧
      b.cursor = d.across (min (d.rest.idxOf 10 + 1) d.rest.length)
        ((unitsBefore d.rest (d.rest.idxOf 10 + 1)).map Decoded.reading) ∧
      (∀ u ∈ unitsBefore d.rest (d.rest.idxOf 10), d.policy.Reads u) ∧
      lineBodyEnd d.rest = j := by
  rcases hj.1 with h0 | ⟨t, ht⟩ | ⟨t, ht⟩
  · obtain ⟨rfl, hidx, hbody⟩ := hj.of_drop_nil h0
    rw [readToLineEnd_nil (by simp), Except.ok.injEq] at h
    subst h
    refine ⟨rfl, rfl, ?_, hidx ▸ hr, hbody⟩
    rw [hidx, min_eq_right (Nat.le_succ _), unitsBefore_of_length_le (Nat.le_succ _),
      unitsBefore_of_length_le le_rfl]
    rfl
  · have h1 : d.rest.drop j = 10 :: t := ht.symm
    obtain ⟨hidx, hbody⟩ := hj.of_drop_lf h1
    rw [readToLineEnd_lf (by simpa using h1)] at h
    obtain ⟨p, -, h⟩ := bind_eq_ok.1 h
    rw [pure_eq_ok] at h
    subst h
    have hlen := length_of_drop_eq h1 (List.cons_ne_nil _ _)
    refine ⟨rfl, rfl, ?_, hidx ▸ hr, hbody⟩
    rw [hidx, min_eq_left (by simp [hlen]), (unitsBefore_lf hb h1).1, Attempt.matched,
      across_across]
    simp
  · have h2 : d.rest.drop j = 13 :: 10 :: t := ht.symm
    obtain ⟨hidx, hbody⟩ := hj.of_drop_crlf h2
    rw [readToLineEnd_crlf (by simpa using h2)] at h
    obtain ⟨p, -, h⟩ := bind_eq_ok.1 h
    rw [pure_eq_ok] at h
    subst h
    obtain ⟨hcr, hlf⟩ := unitsBefore_crlf hb h2
    have hlen := length_of_drop_eq h2 (List.cons_ne_nil _ _)
    refine ⟨rfl, rfl, ?_, ?_, hbody⟩
    · rw [hidx, min_eq_left (by simp [hlen]), hlf, Attempt.matched, across_across]
      simp
    · rw [hidx, hcr]
      rintro u hu
      rcases List.mem_append.1 hu with hu | hu
      · exact hr u hu
      · rw [List.mem_singleton.1 hu]
        exact .inr rfl

/-- The loop up to the end of a line reads up to the first line feed, or to the end. -/
theorem readToLineEnd_result {d : Cursor} {b : Attempt} (h : readToLineEnd d = .ok b) :
    ReadsToLineEnd d b := by
  rcases readToLineEnd_unitLoop.result aligned_lineEndAhead h with
    ⟨j, hj, hb, hr, b', hb', rfl⟩ | ⟨hu, hno⟩
  · obtain ⟨hm, hw, hc, hreads, hbody⟩ := readToLineEnd_at_first hj hb hr hb'
    refine ⟨iff_of_true hm hreads, fun _ => ⟨hc, ?_⟩, fun h => absurd hm h⟩
    rw [Attempt.after_written, hw, Capture.append_empty, hbody]
  · refine ⟨iff_of_false (by simp [hu]) fun hall => hno ⟨_, lineEndAhead_idxOf d.rest, hall⟩,
      fun h => ?_, fun _ => hu⟩
    rw [hu] at h
    cases h

theorem readToLineEnd_ok {d : Cursor}
    (hfit : d.position.Fits ((units d.rest).map Decoded.reading)) :
    ∃ b, readToLineEnd d = .ok b := by
  refine readToLineEnd_unitLoop.ok_of_fits (fun d hs hfit => ?_) d hfit
  rcases hs with h0 | ⟨t, ht⟩ | ⟨t, ht⟩
  · exact ⟨_, readToLineEnd_nil h0⟩
  · have h1 : d.rest = 10 :: t := ht.symm
    rw [h1, units_eq_cons (List.cons_ne_nil _ _), decode_lf] at hfit
    have hf := (Position.Fits.append (show d.position.Fits (['\n'] ++ _) from hfit)).1
    rw [readToLineEnd_lf h1, hf.advance]
    exact ⟨_, rfl⟩
  · have h2 : d.rest = 13 :: 10 :: t := ht.symm
    rw [h2, units_eq_cons (List.cons_ne_nil _ _), decode_cr] at hfit
    simp only [Decoded.width, List.drop_succ_cons, List.drop_zero] at hfit
    rw [units_eq_cons (List.cons_ne_nil _ _), decode_lf] at hfit
    have hf := (Position.Fits.append (show d.position.Fits (['\r', '\n'] ++ _) from hfit)).1
    rw [readToLineEnd_crlf h2, Position.Fits.advanceText (s := "\r\n") hf]
    exact ⟨_, rfl⟩

/-! ## Up to a terminator -/

/-- Once its opener matches, an until term is the loop up to its text, or up to the end of the
line when the text is empty. -/
theorem untilText_attempt {P : Term} {s : String} {c : Cursor} {a : Attempt}
    (hP : P.attempt c = .ok a) (hm : a.outcome = .matched) :
    (Term.untilText P s).attempt c =
      if s = "" then readToLineEnd a.cursor else readToStop (Term.literal s).attempt a.cursor := by
  unfold Term.untilText
  by_cases hs : s = ""
  · rw [if_pos (by simp [hs]), if_pos hs]
    simp only [Term.attempt, hP, ok_bind, hm]
  · rw [if_neg (by simpa using hs), if_neg hs]
    simp only [Term.attempt, hP, ok_bind, hm]

/-- An until term whose opener matches reads up to the first place where its text stands, or up
to the end of the line when the text is empty. It halts only when a line or column count
overflows, which cannot happen where the counts of the units after the opener fit; when it
returns, reading up to a text matches exactly where the text stands after units the cursor reads,
moves past its first occurrence and writes the units before it (`ReadsToText`), and reading up
to the end of the line matches exactly where the cursor reads the units before the first line
feed, moves past it and writes the units before it but a carriage return right before it
(`ReadsToLineEnd`). Otherwise it is `unterminated`. -/
theorem until_reads_to_first_terminator (P : Term) (s : String) (c : Cursor) (a : Attempt)
    (hP : P.attempt c = .ok a) (hm : a.outcome = .matched) :
    (∀ e, (Term.untilText P s).attempt c = .error e → e = .countOverflow) ∧
    (a.cursor.position.Fits ((units a.cursor.rest).map Decoded.reading) →
      ∃ b, (Term.untilText P s).attempt c = .ok b) ∧
    ∀ b, (Term.untilText P s).attempt c = .ok b →
      (s ≠ "" → ReadsToText s a.cursor b) ∧ (s = "" → ReadsToLineEnd a.cursor b) := by
  rw [untilText_attempt hP hm]
  by_cases hs : s = ""
  · rw [if_pos hs]
    refine ⟨fun e he => ?_, readToLineEnd_ok, fun b hb => ⟨fun h => absurd hs h,
      fun _ => readToLineEnd_result hb⟩⟩
    cases e
    · rfl
    · exact absurd he (readToLineEnd_ne_endless _)
  · rw [if_neg hs]
    refine ⟨fun e he => ?_, readToStop_literal_ok s, fun b hb =>
      ⟨fun _ => readToStop_literal_result hs hb, fun h => absurd h hs⟩⟩
    cases e
    · rfl
    · exact absurd he (readToStop_ne_endless
        (attempt_ne_endless (.literal s) fun e he => by simp [Term.escapes] at he) _)

/-- A block comment reads to its close: after the opener, it writes `ab` and stops past the first
close. -/
theorem block_comment_reads_to_close :
    ReadsToText "*/" ⟨encode "ab*/x", 2, ⟨0, 2⟩, .lenient, none⟩
      (.matched ⟨[0x78], 6, ⟨0, 6⟩, .lenient, none⟩ (.ofChars ['a', 'b'])) :=
  ((until_reads_to_first_terminator (.literal "/*") "*/"
    (Cursor.init (encode "/*ab*/x") .lenient .start)
    (.matched ⟨encode "ab*/x", 2, ⟨0, 2⟩, .lenient, none⟩ (.ofText "/*")) (by cbv) rfl).2.2 _
    (by cbv)).1 (by decide)

/-- Two columns short of the last, the opener fills the line up to the last column, and reading
the next scalar overflows it: the call halts although its terminator stands ahead. -/
theorem until_overflows_before_terminator :
    (Term.literal "/*").attempt (Cursor.init (encode "/*ab\n*/") .lenient ⟨0, maxCount - 2⟩) =
        .ok (.matched ⟨encode "ab\n*/", 2, ⟨0, maxCount⟩, .lenient, none⟩ (.ofText "/*")) ∧
      encode "\n*/" <+: (encode "ab\n*/").drop 2 ∧
      (Term.untilText (.literal "/*") "\n*/").attempt
        (Cursor.init (encode "/*ab\n*/") .lenient ⟨0, maxCount - 2⟩) = .error .countOverflow :=
  ⟨by cbv, by decide, by cbv⟩

end Lexer
