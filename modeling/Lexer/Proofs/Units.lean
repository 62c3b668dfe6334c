import Mathlib
import Lexer.Proofs.Tracking
/-! # The grammar `decode` reads

`Utf8.decode` reads a scalar exactly where the bytes begin with its encoding
(`decode_reads_exactly_utf8`). No encoding begins with a continuation byte, so cutting bytes into
units is compositional where the second part begins with a byte that continues nothing
(`units_compose_before_fresh_bytes`).
-/

namespace Lexer.Utf8

theorem decode_cons_cases (b : UInt8) (rest : List UInt8) :
    (∃ c w, decode (b :: rest) = .scalar c w) ∨ decode (b :: rest) = .invalid (invalidLength rest) := by
  simp only [decode]
  split
  · exact .inl ⟨_, _, rfl⟩
  · split
    · split
      · exact .inl ⟨_, _, rfl⟩
      · exact .inr rfl
    · exact .inr rfl

theorem decode_eq_empty_iff {bs : List UInt8} : decode bs = .empty ↔ bs = [] := by
  cases bs with
  | nil => simp
  | cons b rest => simp [decode_cons_ne_empty]

/-- `decode` reads the scalar `c` exactly where the bytes begin with its encoding. -/
theorem decode_eq_scalar_iff {bs : List UInt8} {c : Char} {w : Nat} :
    decode bs = .scalar c w ↔
      String.utf8EncodeChar c <+: bs ∧ w = (String.utf8EncodeChar c).length := by
  constructor
  · intro h
    have ht := take_eq_of_decode_eq_scalar h
    have hw : w ≤ bs.length := by simpa [h, Decoded.width] using decode_width_le bs
    refine ⟨ht ▸ List.take_prefix w bs, ?_⟩
    rw [← ht, List.length_take]
    omega
  · rintro ⟨⟨t, rfl⟩, rfl⟩
    exact decode_encodeChar_append c t

theorem decode_eq_invalid_iff {bs : List UInt8} {n : Nat} :
    decode bs = .invalid n ↔ bs ≠ [] ∧ (∀ c, ¬ String.utf8EncodeChar c <+: bs) ∧
      n = (bs.tail.takeWhile isContinuation).length + 1 := by
  constructor
  · intro h
    obtain ⟨b, rest, rfl⟩ : ∃ b rest, bs = b :: rest := by
      cases bs with
      | nil => simp at h
      | cons b rest => exact ⟨b, rest, rfl⟩
    refine ⟨List.cons_ne_nil b rest, fun c hc => ?_, ?_⟩
    · rw [(decode_eq_scalar_iff.2 ⟨hc, rfl⟩)] at h
      cases h
    · rcases decode_cons_cases b rest with ⟨c, w, hs⟩ | hi
      · rw [hs] at h
        cases h
      · rw [hi, Decoded.invalid.injEq] at h
        rw [← h, invalidLength, List.tail_cons]
  · rintro ⟨hne, hno, rfl⟩
    obtain ⟨b, rest, rfl⟩ := List.exists_cons_of_ne_nil hne
    rcases decode_cons_cases b rest with ⟨c, w, hs⟩ | hi
    · exact absurd (decode_eq_scalar_iff.1 hs).1 (hno c)
    · rw [hi, invalidLength, List.tail_cons]

/-- `decode` reads exactly the grammar of UTF-8: nothing at the end; the scalar `c`, with the
length of its encoding, exactly where the bytes begin with the encoding of `c`, so never an
overlong form, a surrogate or a value above U+10FFFF; and anywhere else an invalid span made of
the first byte and the continuation bytes right after it, which lies within the bytes. In
particular it reads back every scalar from its encoding, whatever follows. -/
theorem decode_reads_exactly_utf8 (bs : List UInt8) :
    (decode bs = .empty ↔ bs = []) ∧
    (∀ c w, decode bs = .scalar c w ↔
      String.utf8EncodeChar c <+: bs ∧ w = (String.utf8EncodeChar c).length) ∧
    (∀ n, decode bs = .invalid n ↔ bs ≠ [] ∧ (∀ c, ¬ String.utf8EncodeChar c <+: bs) ∧
      n = (bs.tail.takeWhile isContinuation).length + 1) ∧
    (∀ n, decode bs = .invalid n → 1 ≤ n ∧ n ≤ bs.length) ∧
    ∀ c t, decode (String.utf8EncodeChar c ++ t) = .scalar c (String.utf8EncodeChar c).length := by
  refine ⟨decode_eq_empty_iff, fun c w => decode_eq_scalar_iff, fun n => decode_eq_invalid_iff,
    fun n h => ?_, decode_encodeChar_append⟩
  obtain ⟨hne, -, rfl⟩ := decode_eq_invalid_iff.1 h
  obtain ⟨b, rest, rfl⟩ := List.exists_cons_of_ne_nil hne
  have := invalidLength_le rest
  simp only [List.tail_cons, List.length_cons, invalidLength] at this ⊢
  omega

/-! ## Where units begin -/

theorem decode_followers_continue (b : UInt8) (rest : List UInt8) :
    ∀ x ∈ rest.take ((decode (b :: rest)).width - 1), isContinuation x = true := by
  by_cases hb : b < 0x80
  · simp [decode_of_lt b rest hb, Decoded.width]
  · exact (decode_of_not_lt hb).2

theorem decode_of_isContinuation {b : UInt8} (hb : isContinuation b = true) (rest : List UInt8) :
    decode (b :: rest) = .invalid (invalidLength rest) := by
  have hrange := (isContinuation_iff b).1 hb
  have hw : leadWidth b = 1 := by
    rw [leadWidth_toNat]
    split_ifs <;> omega
  have hlt : ¬ b < 0x80 := by
    rw [UInt8.lt_iff_toNat_lt]
    simp only [UInt8.toNat_ofNat]
    omega
  simp [decode, hlt, hw]

theorem encodeChar_head_not_continuation {c : Char} {b : UInt8} {t : List UInt8}
    (h : String.utf8EncodeChar c = b :: t) : isContinuation b = false := by
  by_contra hb
  have hs := decode_encodeChar_append c []
  rw [List.append_nil, h, decode_of_isContinuation (Bool.not_eq_false _ ▸ hb)] at hs
  cases hs

/-- No encoding of a text begins with a continuation byte. -/
theorem encode_head_not_continuation {s : String} {b : UInt8} {t : List UInt8}
    (h : encode s = b :: t) : isContinuation b = false := by
  unfold encode at h
  cases hs : s.toList with
  | nil => simp [hs] at h
  | cons c cs =>
    rw [hs, List.flatMap_cons] at h
    obtain ⟨b', t', he⟩ := List.exists_cons_of_ne_nil (String.utf8EncodeChar_ne_nil (c := c))
    rw [he, List.cons_append, List.cons.injEq] at h
    rw [← h.1]
    exact encodeChar_head_not_continuation he

/-- Past the first byte of a unit and before its end stand continuation bytes only. -/
theorem drop_inside_unit {bs : List UInt8} {j : Nat} (hj : 0 < j)
    (hw : j < (decode bs).width) : ∃ x t, bs.drop j = x :: t ∧ isContinuation x = true := by
  cases bs with
  | nil => simp [Decoded.width] at hw
  | cons b rest =>
    obtain ⟨i, rfl⟩ : ∃ i, j = i + 1 := ⟨j - 1, by omega⟩
    have hle := decode_width_le (b :: rest)
    simp only [List.length_cons] at hle
    have hi : i < rest.length := by omega
    have hin : rest[i] ∈ rest.take ((decode (b :: rest)).width - 1) :=
      List.mem_take_iff_getElem.2 ⟨i, by omega, rfl⟩
    refine ⟨rest[i], rest.drop (i + 1), ?_, decode_followers_continue b rest _ hin⟩
    rw [List.drop_succ_cons, List.drop_eq_getElem_cons hi]

@[simp] theorem unitsBefore_zero (bs : List UInt8) : unitsBefore bs 0 = [] := by
  unfold unitsBefore
  cases hu : units bs with
  | nil => rfl
  | cons u us =>
    have := width_pos_of_mem_units (hu ▸ List.mem_cons_self : u ∈ units bs)
    simp [takeUnits, Nat.pos_iff_ne_zero.1 this]

theorem unitsBefore_of_width_le {bs : List UInt8} {k : Nat} (hne : bs ≠ [])
    (hk : (decode bs).width ≤ k) :
    unitsBefore bs k = decode bs :: unitsBefore (bs.drop (decode bs).width) (k - (decode bs).width) := by
  unfold unitsBefore
  rw [units_eq_cons hne, takeUnits, if_pos hk]

/-! ## Composing units -/

@[simp] theorem units_nil : units [] = [] := by
  rw [units]

theorem takeWhile_isContinuation_append {a b : List UInt8}
    (hb : ∀ x ∈ b.head?, isContinuation x = false) :
    (a ++ b).takeWhile isContinuation = a.takeWhile isContinuation := by
  rw [List.takeWhile_append]
  split
  · next hall =>
    have hstop : b.takeWhile isContinuation = [] := by
      cases b with
      | nil => rfl
      | cons x t => exact List.takeWhile_cons_of_neg (by simp [hb x rfl])
    rw [hstop, List.append_nil, (List.takeWhile_prefix isContinuation).eq_of_length hall]
  · rfl

theorem scalarOf?_eq_none_of_mem {lead y : UInt8} {fs : List UInt8} (hy : y ∈ fs)
    (hc : isContinuation y = false) : scalarOf? lead fs = none := by
  cases hs : scalarOf? lead fs with
  | none => rfl
  | some ch =>
    have := List.all_eq_true.1 (scalarOf?_spec hs).1 y hy
    rw [hc] at this
    cases this

/-- A unit never reaches into bytes that begin with no continuation byte: what `decode` reads at
the front of `a` it reads at the front of `a ++ b`. -/
theorem decode_append {a b : List UInt8} (ha : a ≠ [])
    (hb : ∀ x ∈ b.head?, isContinuation x = false) : decode (a ++ b) = decode a := by
  obtain ⟨x, rest, rfl⟩ := List.exists_cons_of_ne_nil ha
  by_cases hx : x < 0x80
  · rw [List.cons_append, decode_of_lt x _ hx, decode_of_lt x _ hx]
  have hlen : invalidLength (rest ++ b) = invalidLength rest := by
    rw [invalidLength, invalidLength, takeWhile_isContinuation_append hb]
  simp only [List.cons_append, decode, if_neg hx, hlen]
  by_cases hw : leadWidth x - 1 ≤ rest.length
  · rw [List.take_append_of_le_length hw]
  have hshort : ¬ (rest.take (leadWidth x - 1)).length = leadWidth x - 1 := by
    rw [List.length_take]
    omega
  simp only [hshort, and_false, if_false]
  split
  · next h =>
    cases b with
    | nil =>
      rw [List.append_nil, List.length_take] at h
      omega
    | cons y t =>
      have hy : y ∈ (rest ++ y :: t).take (leadWidth x - 1) := by
        rw [List.take_append]
        refine List.mem_append_right _ (List.mem_take_iff_getElem.2 ⟨0, ?_, rfl⟩)
        simp only [List.length_cons]
        omega
      rw [scalarOf?_eq_none_of_mem hy (hb y rfl)]
  · rfl

theorem units_append (a : List UInt8) {b : List UInt8}
    (hb : ∀ x ∈ b.head?, isContinuation x = false) : units (a ++ b) = units a ++ units b := by
  induction a using units.induct with
  | case1 => rw [List.nil_append, units_nil, List.nil_append]
  | case2 x rest ih =>
    have hne : x :: rest ≠ [] := List.cons_ne_nil x rest
    have hd := decode_append hne hb
    have hle := decode_width_le (x :: rest)
    rw [units_eq_cons (by simp), hd, List.drop_append_of_le_length hle, ih, units_eq_cons hne]
    rfl

theorem units_split_at {bs : List UInt8} {i : Nat} {x : UInt8} (hx : bs[i]? = some x)
    (hc : isContinuation x = false) : units bs = units (bs.take i) ++ units (bs.drop i) := by
  conv_lhs => rw [← List.take_append_drop i bs]
  refine units_append _ fun y hy => ?_
  rw [List.head?_drop, hx, Option.mem_some_iff] at hy
  exact hy ▸ hc

theorem isBoundary_of_units_split {bs : List UInt8} {i : Nat} (hi : i ≤ bs.length)
    (h : units bs = units (bs.take i) ++ units (bs.drop i)) : IsBoundary bs i := by
  have hsum : ((units (bs.take i)).map Decoded.width).sum = i := by
    rw [sum_width_units, List.length_take]
    omega
  unfold IsBoundary unitsBefore
  rw [h, takeUnits_append hsum fun _ hu => width_pos_of_mem_units hu, hsum]

/-- Wherever the encoding of a scalar stands in a buffer, a unit begins there and reads that
scalar, whatever stands before it. -/
theorem units_at_encodeChar {bs : List UInt8} {i : Nat} {c : Char}
    (h : String.utf8EncodeChar c <+: bs.drop i) :
    units bs = units (bs.take i) ++
      scalarUnit c :: units (bs.drop (i + (String.utf8EncodeChar c).length)) := by
  obtain ⟨t, ht⟩ := h
  obtain ⟨y, u, hy⟩ := List.exists_cons_of_ne_nil (String.utf8EncodeChar_ne_nil (c := c))
  have hi : bs[i]? = some y := by
    rw [← List.head?_drop, ← ht, hy]
    rfl
  rw [units_split_at hi (encodeChar_head_not_continuation hy), ← ht, units_encodeChar_append,
    ← List.drop_drop, ← ht, List.drop_left]

/-- Cutting bytes into units is compositional: the units of `a ++ b` are those of `a` and then
those of `b` wherever `b` is empty or begins with a byte that is not a continuation byte. So each
such byte of a buffer begins a unit, and wherever a scalar is encoded in a buffer the units read
it there: an invalid span before it never takes in its first byte. -/
theorem units_compose_before_fresh_bytes :
    (∀ a b : List UInt8, (∀ x ∈ b.head?, isContinuation x = false) →
      units (a ++ b) = units a ++ units b) ∧
    (∀ (bs : List UInt8) (i : Nat) (x : UInt8), bs[i]? = some x → isContinuation x = false →
      IsBoundary bs i ∧ units bs = units (bs.take i) ++ units (bs.drop i)) ∧
    (∀ (bs : List UInt8) (i : Nat) (c : Char), String.utf8EncodeChar c <+: bs.drop i →
      units bs = units (bs.take i) ++
        scalarUnit c :: units (bs.drop (i + (String.utf8EncodeChar c).length))) := by
  refine ⟨fun a b hb => units_append a hb, fun bs i x hx hc => ?_,
    fun bs i c h => units_at_encodeChar h⟩
  have hi : i < bs.length := (List.getElem?_eq_some_iff.1 hx).1
  have hsplit := units_split_at hx hc
  exact ⟨isBoundary_of_units_split hi.le hsplit, hsplit⟩

/-- A lead byte cut short by a letter: the letter begins a unit of its own. And the encoding of
`é` after a lead byte that announces two bytes: the lead byte is an invalid span by itself. -/
theorem truncated_lead_ends_before_letter :
    isContinuation 0x41 = false ∧
      units ([0xE2, 0x82] ++ [0x41]) = units [0xE2, 0x82] ++ units [0x41] ∧
      IsBoundary [0xE2, 0x82, 0x41] 2 ∧
      String.utf8EncodeChar 'é' <+: ([0xC3, 0xC3, 0xA9] : List UInt8).drop 1 ∧
      units [0xC3, 0xC3, 0xA9] = units ([0xC3, 0xC3, 0xA9].take 1) ++
        scalarUnit 'é' ::
          units ([0xC3, 0xC3, 0xA9].drop (1 + (String.utf8EncodeChar 'é').length)) :=
  have hc : isContinuation 0x41 = false := by decide
  have he : String.utf8EncodeChar 'é' <+: ([0xC3, 0xC3, 0xA9] : List UInt8).drop 1 := by decide
  ⟨hc, units_compose_before_fresh_bytes.1 _ _ (by simpa using hc),
    (units_compose_before_fresh_bytes.2.1 _ 2 0x41 rfl hc).1, he,
    units_compose_before_fresh_bytes.2.2 _ 1 'é' he⟩

/-! ## The units of a part of the bytes -/

theorem decode_take {bs : List UInt8} {n : Nat} (hn : (decode bs).width ≤ n) :
    decode (bs.take n) = decode bs := by
  cases hd : decode bs with
  | empty => rw [decode_eq_empty_iff.1 hd, List.take_nil, decode_nil]
  | scalar c w =>
    obtain ⟨hpre, rfl⟩ := decode_eq_scalar_iff.1 hd
    rw [hd] at hn
    exact decode_eq_scalar_iff.2 ⟨List.prefix_take_iff.2 ⟨hpre, hn⟩, rfl⟩
  | invalid m =>
    obtain ⟨hne, hno, rfl⟩ := decode_eq_invalid_iff.1 hd
    rw [hd] at hn
    obtain ⟨b, rest, rfl⟩ := List.exists_cons_of_ne_nil hne
    obtain ⟨k, rfl⟩ : ∃ k, n = k + 1 := ⟨n - 1, by simp [Decoded.width] at hn; omega⟩
    refine decode_eq_invalid_iff.2
      ⟨by simp, fun c hc => hno c (hc.trans (List.take_prefix _ _)), ?_⟩
    simp only [List.take_succ_cons, List.tail_cons, ← List.take_takeWhile, List.length_take]
    simp only [Decoded.width, List.tail_cons] at hn
    omega

/-- Where the units `us` make up the first `n` bytes, the units of those bytes alone are `us`. -/
theorem units_take_of_units_eq {bs : List UInt8} {us : List Decoded} {n : Nat}
    (h : units bs = us ++ units (bs.drop n)) (hn : (us.map Decoded.width).sum = n) :
    units (bs.take n) = us := by
  induction us generalizing bs n with
  | nil =>
    simp only [List.map_nil, List.sum_nil] at hn
    subst hn
    rw [List.take_zero, units_nil]
  | cons u us ih =>
    have hne : bs ≠ [] := by
      rintro rfl
      simp at h
    rw [units_eq_cons hne, List.cons_append, List.cons.injEq] at h
    obtain ⟨rfl, hrest⟩ := h
    simp only [List.map_cons, List.sum_cons] at hn
    set w := (decode bs).width
    have hdrop : bs.drop n = (bs.drop w).drop (n - w) := by
      rw [List.drop_drop]
      congr 1
      omega
    rw [hdrop] at hrest
    have hpos : 0 < w := by
      obtain ⟨b, rest, hb⟩ := List.exists_cons_of_ne_nil hne
      have := decode_width_pos b rest
      rwa [← hb] at this
    have htake_ne : bs.take n ≠ [] := by
      simp only [ne_eq, List.take_eq_nil_iff, not_or]
      exact ⟨by omega, hne⟩
    rw [units_eq_cons htake_ne, decode_take (by omega), List.drop_take, ih hrest (by omega)]

end Lexer.Utf8
