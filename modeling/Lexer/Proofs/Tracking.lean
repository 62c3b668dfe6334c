import Mathlib
import Lexer.CursorOp
import Lexer.Proofs.Cursor
/-! # A cursor knows where it stands

Every cursor over a buffer stands on a boundary of the units a lenient reader sees, and its
position is the origin advanced over the units before it (`Position.atOffset`). The invariant,
`Cursor.HasRead`, is kept by every basic read, so it holds after any run of operations.
-/

namespace Lexer

open Utf8

/-! ## The units of a buffer -/

namespace Utf8

theorem width_pos_of_mem_units {bs : List UInt8} {u : Decoded} (h : u ∈ units bs) :
    0 < u.width := by
  induction bs using units.induct with
  | case1 => simp [units] at h
  | case2 b rest ih =>
    rw [units, List.mem_cons] at h
    rcases h with rfl | h
    · exact decode_width_pos b rest
    · exact ih h

/-- The units of a buffer span all of it. -/
theorem sum_width_units (bs : List UInt8) : ((units bs).map Decoded.width).sum = bs.length := by
  induction bs using units.induct with
  | case1 => simp [units]
  | case2 b rest ih =>
    rw [units, List.map_cons, List.sum_cons, ih, List.length_drop]
    have := decode_width_le (b :: rest)
    omega

def takeUnits : Nat → List Decoded → List Decoded
  | _, [] => []
  | n, u :: us => if u.width ≤ n then u :: takeUnits (n - u.width) us else []

theorem takeUnits_append {us rest : List Decoded} {n : Nat}
    (hn : (us.map Decoded.width).sum = n) (hpos : ∀ u ∈ rest, 0 < u.width) :
    takeUnits n (us ++ rest) = us := by
  induction us generalizing n with
  | nil =>
    subst hn
    cases rest with
    | nil => rfl
    | cons u rest => simp [takeUnits, Nat.pos_iff_ne_zero.1 (hpos u (by simp))]
  | cons u us ih =>
    simp only [List.map_cons, List.sum_cons] at hn
    simp only [List.cons_append, takeUnits, show u.width ≤ n by omega, if_true]
    rw [ih (by omega)]

/-- The units of `bytes` that end within its first `n` bytes. -/
def unitsBefore (bytes : List UInt8) (n : Nat) : List Decoded := takeUnits n (units bytes)

/-- Whether `n` is where a unit of `bytes` ends, or `0`. -/
def IsBoundary (bytes : List UInt8) (n : Nat) : Prop :=
  ((unitsBefore bytes n).map Decoded.width).sum = n

instance (bytes : List UInt8) (n : Nat) : Decidable (IsBoundary bytes n) :=
  inferInstanceAs (Decidable (_ = n))

example : IsBoundary [0x61, 0xC3, 0xA9, 0x62] 3 ∧ ¬ IsBoundary [0x61, 0xC3, 0xA9, 0x62] 2 := by
  cbv

theorem sum_width_scalarUnits (s : String) :
    ((s.toList.map scalarUnit).map Decoded.width).sum = (encode s).length := by
  simp [encode, List.length_flatMap, Function.comp_def, scalarUnit, Decoded.width]

/-! ## Line feeds -/

theorem leastScalar_ge (w : Nat) : 0x80 ≤ leastScalar w := by
  unfold leastScalar
  split <;> omega

theorem scalarOf?_eq_some_spec {lead : UInt8} {fs : List UInt8} {ch : Char}
    (h : scalarOf? lead fs = some ch) : fs.all isContinuation = true ∧ 0x80 ≤ ch.toNat := by
  obtain ⟨hall, hleast, -⟩ := scalarOf?_spec h
  exact ⟨hall, Nat.le_trans (leastScalar_ge _) hleast⟩

theorem decode_of_not_lt {b : UInt8} {rest : List UInt8} (hb : ¬ b < 0x80) :
    (decode (b :: rest)).reading ≠ '\n' ∧
      ∀ x ∈ rest.take ((decode (b :: rest)).width - 1), isContinuation x = true := by
  have hinvalid : ∀ x ∈ rest.take (invalidLength rest - 1), isContinuation x = true := by
    intro x hx
    rw [invalidLength, Nat.add_sub_cancel,
      ← List.prefix_iff_eq_take.1 (List.takeWhile_prefix isContinuation)] at hx
    exact List.mem_takeWhile_imp hx
  simp only [decode, if_neg hb]
  split
  · next hw =>
    split
    · next ch hs =>
      obtain ⟨hall, hge⟩ := scalarOf?_eq_some_spec hs
      refine ⟨fun h => ?_, fun x hx => List.all_eq_true.1 hall x hx⟩
      rw [reading_scalar] at h
      subst h
      exact absurd hge (by decide)
    · exact ⟨by rw [reading_invalid]; decide, hinvalid⟩
  · exact ⟨by rw [reading_invalid]; decide, hinvalid⟩

theorem ofUInt8_eq_lf (b : UInt8) : Char.ofUInt8 b = '\n' ↔ b = 10 := by
  have bytes : ∀ n < 256, Char.ofUInt8 (UInt8.ofNat n) = '\n' ↔ UInt8.ofNat n = 10 := by
    decide +kernel
  simpa using bytes b.toNat b.toNat_lt

theorem count_lf_take_width (b : UInt8) (rest : List UInt8) :
    ((b :: rest).take (decode (b :: rest)).width).count 10 =
      [(decode (b :: rest)).reading].count '\n' := by
  by_cases hb : b < 0x80
  · rw [decode_of_lt b rest hb]
    by_cases h10 : b = 10
    · have hlf : Char.ofUInt8 10 = '\n' := (ofUInt8_eq_lf 10).2 rfl
      simp [Decoded.width, h10, hlf]
    · simp [Decoded.width, h10, (ofUInt8_eq_lf b).not.2 h10]
  · obtain ⟨hread, hcont⟩ := @decode_of_not_lt b rest hb
    obtain ⟨w, hw⟩ : ∃ w, (decode (b :: rest)).width = w + 1 :=
      ⟨_, (Nat.succ_pred_eq_of_pos (decode_width_pos b rest)).symm⟩
    rw [hw, List.take_succ_cons, List.count_cons]
    rw [hw, Nat.add_sub_cancel] at hcont
    have hb10 : (b == 10) = false := by
      simp only [beq_eq_false_iff_ne]
      rintro rfl
      exact hb (by decide)
    have hrest : (rest.take w).count 10 = 0 := by
      refine List.count_eq_zero.2 fun h => ?_
      have := (isContinuation_iff 10).1 (hcont 10 h)
      simp at this
    simp [hb10, hrest, hread]

/-- The units that make up the first `n` bytes read as many line feeds as those bytes hold. -/
theorem count_lf_units {bytes : List UInt8} {us : List Decoded} {n : Nat}
    (hunits : units bytes = us ++ units (bytes.drop n)) (hn : (us.map Decoded.width).sum = n) :
    (us.map Decoded.reading).count '\n' = (bytes.take n).count 10 := by
  induction us generalizing bytes n with
  | nil =>
    subst hn
    simp
  | cons u us ih =>
    obtain ⟨b, rest, rfl⟩ : ∃ b rest, bytes = b :: rest := by
      cases bytes with
      | nil => simp [units] at hunits
      | cons b rest => exact ⟨b, rest, rfl⟩
    rw [units, List.cons_append, List.cons.injEq] at hunits
    obtain ⟨rfl, hunits⟩ := hunits
    simp only [List.map_cons, List.sum_cons] at hn
    set w := (decode (b :: rest)).width
    have hdrop : (b :: rest).drop n = ((b :: rest).drop w).drop (n - w) := by
      rw [List.drop_drop]
      congr 1
      omega
    rw [hdrop] at hunits
    have htake : (b :: rest).take n = (b :: rest).take w ++ ((b :: rest).drop w).take (n - w) := by
      rw [← List.take_add]
      congr 1
      omega
    rw [htake, List.count_append, ← ih hunits (by omega), count_lf_take_width, List.map_cons,
      List.count_cons]
    simp [List.count_singleton, Nat.add_comm]

/-- At a boundary, the units before it and the units of the bytes after it make up the buffer. -/
theorem units_eq_unitsBefore_append {bytes : List UInt8} {n : Nat} (hb : IsBoundary bytes n) :
    units bytes = unitsBefore bytes n ++ units (bytes.drop n) := by
  unfold IsBoundary unitsBefore at hb
  unfold unitsBefore
  induction bytes using units.induct generalizing n with
  | case1 => simp_all [units, takeUnits]
  | case2 b rest ih =>
    rw [units] at hb ⊢
    simp only [takeUnits] at hb ⊢
    split at hb
    · next hw =>
      simp only [List.map_cons, List.sum_cons] at hb
      have hrest := @ih (n - (decode (b :: rest)).width) (by omega)
      rw [if_pos hw, List.cons_append, List.cons.injEq]
      refine ⟨rfl, hrest.trans ?_⟩
      rw [List.drop_drop, Nat.add_sub_cancel' hw]
    · simp only [List.map_nil, List.sum_nil] at hb
      subst hb
      simp [units, Nat.pos_iff_ne_zero.1 (decode_width_pos b rest)]

end Utf8

/-! ## Positions of offsets -/

/-- The position of byte offset `n` of `bytes` whose first byte stands at `origin`: the origin
advanced over the units before `n`, an invalid span counting as one U+FFFD. -/
def Position.atOffset (origin : Position) (bytes : List UInt8) (n : Nat) : Position :=
  origin.along ((unitsBefore bytes n).map Decoded.reading)

example : (Position.start.atOffset [0x61, 0x0A, 0xFF, 0x80, 0x62] 4) = ⟨1, 1⟩ := by cbv

namespace Cursor

/-- What a cursor over `bytes`, whose first byte stood at `origin`, knows of where it stands: on a
boundary of the units of `bytes`, at the position of its offset, whose line counts the line feeds
before it and whose column counts the units since the last of them. -/
structure Tracks (bytes : List UInt8) (origin : Position) (c : Cursor) : Prop where
  offset_le : c.offset ≤ bytes.length
  rest_eq : c.rest = bytes.drop c.offset
  boundary : IsBoundary bytes c.offset
  position_eq : c.position = origin.atOffset bytes c.offset
  line_eq : c.position.line = origin.line + (bytes.take c.offset).count 10
  column_eq : c.position.column =
    if (bytes.take c.offset).count 10 = 0 then origin.column + (unitsBefore bytes c.offset).length
    else (((unitsBefore bytes c.offset).map Decoded.reading).reverse.takeWhile (· ≠ '\n')).length

/-- `c` has read the units `us` of `bytes` from `origin`: they and the units of the bytes left
make up `bytes`, they span the bytes before `c`, and they bring `origin` to `c`'s position. -/
structure HasRead (bytes : List UInt8) (origin : Position) (us : List Decoded) (c : Cursor) :
    Prop where
  units_eq : units bytes = us ++ units c.rest
  rest_eq : c.rest = bytes.drop c.offset
  offset_eq : (us.map Decoded.width).sum = c.offset
  position_eq : c.position = origin.along (us.map Decoded.reading)

/-- `c` reads `bytes` from `origin`, unit by unit. -/
def Reads (bytes : List UInt8) (origin : Position) (c : Cursor) : Prop :=
  ∃ us, c.HasRead bytes origin us

variable {bytes : List UInt8} {origin : Position} {us : List Decoded} {c c' : Cursor}

namespace HasRead

theorem unitsBefore_eq (h : c.HasRead bytes origin us) : unitsBefore bytes c.offset = us := by
  rw [unitsBefore, h.units_eq]
  exact takeUnits_append h.offset_eq fun _ hu => width_pos_of_mem_units hu

theorem offset_le (h : c.HasRead bytes origin us) : c.offset ≤ bytes.length := by
  have hsum := congrArg (fun l => (l.map Decoded.width).sum) h.units_eq
  simp only [sum_width_units, List.map_append, List.sum_append, h.offset_eq] at hsum
  omega

theorem tracks (h : c.HasRead bytes origin us) : c.Tracks bytes origin := by
  have hbefore := h.unitsBefore_eq
  have hcount : (us.map Decoded.reading).count '\n' = (bytes.take c.offset).count 10 :=
    count_lf_units (h.rest_eq ▸ h.units_eq) h.offset_eq
  have hpos := h.position_eq
  rw [Position.along_eq] at hpos
  refine ⟨h.offset_le, h.rest_eq, by simp [IsBoundary, hbefore, h.offset_eq], ?_, ?_, ?_⟩
  · rw [Position.atOffset, hbefore, h.position_eq]
  · rw [hpos, ← hcount]
    split <;> simp_all
  · rw [hpos, ← hcount, hbefore]
    split <;> simp_all

theorem of_eq (h : c.HasRead bytes origin us) (hr : c'.rest = c.rest) (ho : c'.offset = c.offset)
    (hp : c'.position = c.position) : c'.HasRead bytes origin us :=
  ⟨hr ▸ h.units_eq, by rw [hr, ho, h.rest_eq], ho ▸ h.offset_eq, hp ▸ h.position_eq⟩

theorem scan (h : c.HasRead bytes origin us) : c.scan.2.HasRead bytes origin us := by
  rcases scan_snd c with hs | ⟨-, n, hs⟩ <;> rw [hs]
  · exact h
  · exact h.of_eq (by simp) (by simp) (by simp)

theorem consume {ch : Char} {w : Nat} (h : c.HasRead bytes origin us)
    (hs : c.scan = (some (ch, w), c)) (hc : c.consume ch w = .ok c') :
    c'.HasRead bytes origin (us ++ [decode c.rest]) := by
  obtain ⟨-, hd⟩ := scan_eq_some hs
  have hw : (decode c.rest).width = w ∧ (decode c.rest).reading = ch := by
    rcases hd with hd | ⟨hd, -, rfl⟩ <;> simp [hd, Decoded.width]
  have hne : c.rest ≠ [] := fun h0 => by simp [h0] at hd
  obtain ⟨p, hp, rfl⟩ := consume_eq_ok.1 hc
  refine ⟨?_, ?_, ?_, ?_⟩
  · rw [h.units_eq, units_eq_cons hne, hw.1]
    simp
  · simp [h.rest_eq, List.drop_drop]
  · simp [h.offset_eq, hw.1]
  · simp [Position.advance_eq_ok hp, h.position_eq, hw.2, Position.along_append]

/-- A literal stands at a boundary as whole units, so `leap` reads them. -/
theorem leap {s : String} {b : Bool} (h : c.HasRead bytes origin us)
    (hl : c.leap s = .ok (b, c')) :
    c'.HasRead bytes origin (us ++ if b then s.toList.map scalarUnit else []) := by
  rcases leap_eq_ok hl with ⟨rfl, ⟨t, ht⟩, p, hp, rfl⟩ | ⟨rfl, -, rfl⟩
  · rw [if_pos rfl]
    refine ⟨?_, ?_, ?_, ?_⟩
    · simp [h.units_eq, ← ht, units_encode_append]
    · simp [h.rest_eq, List.drop_drop]
    · simp only [List.map_append, List.sum_append, h.offset_eq, sum_width_scalarUnits]
    · simp [Position.advanceText_eq_ok hp, h.position_eq, Function.comp_def]
  · simpa using h

theorem leapFetch {s : String} {p : Char → Bool} {r : Option Char}
    (h : c.HasRead bytes origin us) (hl : c.leapFetch s p = .ok (r, c')) :
    (∃ ch w, r = some ch ∧
      c'.HasRead bytes origin (us ++ s.toList.map scalarUnit ++ [.scalar ch w])) ∨
    (r = none ∧ c'.HasRead bytes origin us) := by
  rcases leapFetch_eq_ok hl with ⟨ch, w, q₁, q, rfl, ⟨t, ht⟩, hd, -, hq₁, hq, rfl⟩ | ⟨rfl, rfl⟩
  · have htd : c.rest.drop (encode s).length = t := by simp [← ht]
    rw [htd] at hd
    have hne : t ≠ [] := fun h0 => by simp [h0] at hd
    refine .inl ⟨ch, w, rfl, ?_, ?_, ?_, ?_⟩
    · rw [h.units_eq, ← ht, units_encode_append, units_eq_cons hne, hd]
      simp [Decoded.width]
    · simp [h.rest_eq, List.drop_drop, Nat.add_assoc]
    · simp only [List.map_append, List.sum_append, h.offset_eq, sum_width_scalarUnits]
      simp [Decoded.width, Nat.add_assoc]
    · simp [Position.advance_eq_ok hq, Position.advanceText_eq_ok hq₁, h.position_eq,
        Function.comp_def]
  · exact .inr ⟨rfl, h⟩

end HasRead

theorem init_hasRead (bytes : List UInt8) (policy : Utf8Policy) (origin : Position) :
    (init bytes policy origin).HasRead bytes origin [] :=
  ⟨by simp [init], by simp [init], rfl, rfl⟩

/-- Every read keeps a cursor reading its buffer unit by unit. -/
theorem readClosed_reads (bytes : List UInt8) (origin : Position) :
    ReadClosed fun c c' => c.Reads bytes origin → c'.Reads bytes origin where
  refl _ := id
  trans h₁ h₂ := h₂ ∘ h₁
  scan _ := fun ⟨us, h⟩ => ⟨us, h.scan⟩
  consume hs hc := fun ⟨_, h⟩ => ⟨_, h.consume hs hc⟩
  leap hl := fun ⟨_, h⟩ => ⟨_, h.leap hl⟩
  leapFetch hl := fun ⟨_, h⟩ => by
    rcases h.leapFetch hl with ⟨_, _, -, h'⟩ | ⟨-, h'⟩
    · exact ⟨_, h'⟩
    · exact ⟨_, h'⟩

theorem Reads.tracks (h : c.Reads bytes origin) : c.Tracks bytes origin :=
  h.elim fun _ h => h.tracks

theorem ReadClosed.perform {R : Cursor → Cursor → Prop} (hR : ReadClosed R) {op : CursorOp}
    {r : CursorReply} (h : c.perform op = .ok (r, c')) : R c c' := by
  cases op with
  | peek =>
    simp only [Cursor.perform, pure_eq_ok, Prod.mk.injEq] at h
    exact h.2 ▸ hR.peek c
  | hop ch =>
    obtain ⟨⟨b, c₁⟩, hh, h⟩ := bind_eq_ok.1 h
    simp only [pure_eq_ok, Prod.mk.injEq] at h
    exact h.2 ▸ hR.hop hh
  | leap s =>
    obtain ⟨⟨b, c₁⟩, hl, h⟩ := bind_eq_ok.1 h
    simp only [pure_eq_ok, Prod.mk.injEq] at h
    exact h.2 ▸ hR.leap hl
  | fetch k =>
    obtain ⟨⟨x, c₁⟩, hf, h⟩ := bind_eq_ok.1 h
    simp only [pure_eq_ok, Prod.mk.injEq] at h
    exact h.2 ▸ hR.fetch hf
  | fetchAny =>
    obtain ⟨⟨x, c₁⟩, hf, h⟩ := bind_eq_ok.1 h
    simp only [pure_eq_ok, Prod.mk.injEq] at h
    exact h.2 ▸ hR.fetchAny hf
  | skip k =>
    obtain ⟨⟨⟨n, stop⟩, c₁⟩, hs, h⟩ := bind_eq_ok.1 h
    simp only [pure_eq_ok, Prod.mk.injEq] at h
    exact h.2 ▸ hR.skip hs
  | leapFetch s k =>
    obtain ⟨⟨x, c₁⟩, hl, h⟩ := bind_eq_ok.1 h
    simp only [pure_eq_ok, Prod.mk.injEq] at h
    exact h.2 ▸ hR.leapFetch hl
  | done | rest =>
    simp only [Cursor.perform, pure_eq_ok, Prod.mk.injEq] at h
    exact h.2 ▸ hR.refl c

theorem performAll_reads {ops : List CursorOp} {replies : List (CursorReply × Cursor)}
    (hc : c.Reads bytes origin) (h : c.performAll ops = .ok replies) :
    (c.offset :: replies.map fun r => r.2.offset).IsChain (· ≤ ·) ∧
      ∀ r ∈ replies, r.2.Reads bytes origin := by
  induction ops generalizing c replies with
  | nil =>
    simp only [performAll, pure_eq_ok] at h
    subst h
    simp
  | cons op ops ih =>
    simp only [performAll] at h
    obtain ⟨⟨r, c₁⟩, hp, h⟩ := bind_eq_ok.1 h
    obtain ⟨rest, hrest, h⟩ := bind_eq_ok.1 h
    simp only [pure_eq_ok] at h
    subst h
    have h₁ : c₁.Reads bytes origin := (readClosed_reads bytes origin).perform hp hc
    obtain ⟨hchain, hall⟩ := ih h₁ hrest
    refine ⟨List.isChain_cons_cons.2 ⟨(readClosed_forward.perform hp).offset_le, hchain⟩, ?_⟩
    simpa [h₁] using hall

end Cursor

/-- Along any run of operations on a fresh cursor, the offset never goes back, and every cursor
stands on a boundary of the units of the buffer, at the position of its offset: its line is the
origin's plus the line feeds it has passed, its column counts the units since the last of them. -/
theorem performAll_tracks_position {bytes : List UInt8} {policy : Utf8Policy} {origin : Position}
    {ops : List CursorOp} {replies : List (CursorReply × Cursor)}
    (h : (Cursor.init bytes policy origin).performAll ops = .ok replies) :
    (0 :: replies.map fun r => r.2.offset).IsChain (· ≤ ·) ∧
      ∀ r ∈ replies, r.2.Tracks bytes origin := by
  obtain ⟨hchain, hall⟩ := Cursor.performAll_reads ⟨[], Cursor.init_hasRead bytes policy origin⟩ h
  exact ⟨hchain, fun r hr => (hall r hr).tracks⟩

/-- A literal across a line feed, then an invalid span read as one scalar: the line counts the
line feed byte, and the span counts as one column. -/
theorem leap_then_fetch_tracks_position :
    (Cursor.init [0x61, 0x0A, 0xFF, 0x80, 0x62] .lenient Position.start).performAll
        [.leap "a\n", .fetchAny] =
      .ok [(.flag true, ⟨[0xFF, 0x80, 0x62], 2, ⟨1, 0⟩, .lenient, none⟩),
        (.scalar (some '�'), ⟨[0x62], 4, ⟨1, 1⟩, .lenient, none⟩)] ∧
    [0, 2, 4].IsChain (· ≤ ·) ∧
    Cursor.Tracks [0x61, 0x0A, 0xFF, 0x80, 0x62] Position.start
      ⟨[0xFF, 0x80, 0x62], 2, ⟨1, 0⟩, .lenient, none⟩ ∧
    Cursor.Tracks [0x61, 0x0A, 0xFF, 0x80, 0x62] Position.start
      ⟨[0x62], 4, ⟨1, 1⟩, .lenient, none⟩ :=
  have h : (Cursor.init [0x61, 0x0A, 0xFF, 0x80, 0x62] .lenient Position.start).performAll
        [.leap "a\n", .fetchAny] =
      .ok [(.flag true, ⟨[0xFF, 0x80, 0x62], 2, ⟨1, 0⟩, .lenient, none⟩),
        (.scalar (some '�'), ⟨[0x62], 4, ⟨1, 1⟩, .lenient, none⟩)] := by rfl
  ⟨h, (performAll_tracks_position h).1, (performAll_tracks_position h).2 _ List.mem_cons_self,
    (performAll_tracks_position h).2 _ (List.mem_cons_of_mem _ List.mem_cons_self)⟩

end Lexer
