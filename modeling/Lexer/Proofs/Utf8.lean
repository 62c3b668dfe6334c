import Lexer.Text.Utf8
/-! # Decoding what was encoded

`Utf8.decode` reads every scalar back from its encoding, whatever follows it, and reads a scalar
only from that scalar's encoding. The byte facts turn the decoder's bit masks into arithmetic on
`UInt8.toNat`, where `omega` settles them.
-/

namespace Lexer.Utf8

/-- The scalar a lenient reader takes for a unit: the scalar itself, U+FFFD for an invalid span. -/
def Decoded.reading : Decoded → Char
  | .scalar c _ => c
  | _ => '�'

@[simp] theorem reading_scalar (c : Char) (w : Nat) : (Decoded.scalar c w).reading = c := rfl

@[simp] theorem reading_invalid (n : Nat) : (Decoded.invalid n).reading = '�' := rfl

theorem toNat_ofNat_of_lt {n : Nat} (h : n < 256) : (UInt8.ofNat n).toNat = n := by
  rw [UInt8.toNat_ofNat']
  omega

theorem isContinuation_iff (b : UInt8) :
    isContinuation b = true ↔ 0x80 ≤ b.toNat ∧ b.toNat < 0xC0 := by
  have bytes : ∀ n < 256, isContinuation (UInt8.ofNat n) = true ↔ 0x80 ≤ n ∧ n < 0xC0 := by
    decide +kernel
  simpa using bytes b.toNat b.toNat_lt

theorem toNat_and_1F (b : UInt8) : (b &&& 0x1F).toNat = b.toNat % 32 := by
  rw [UInt8.toNat_and]
  exact Nat.and_two_pow_sub_one_eq_mod b.toNat 5

theorem toNat_and_0F (b : UInt8) : (b &&& 0x0F).toNat = b.toNat % 16 := by
  rw [UInt8.toNat_and]
  exact Nat.and_two_pow_sub_one_eq_mod b.toNat 4

theorem toNat_and_07 (b : UInt8) : (b &&& 0x07).toNat = b.toNat % 8 := by
  rw [UInt8.toNat_and]
  exact Nat.and_two_pow_sub_one_eq_mod b.toNat 3

theorem toNat_and_3F (b : UInt8) : (b &&& 0x3F).toNat = b.toNat % 64 := by
  rw [UInt8.toNat_and]
  exact Nat.and_two_pow_sub_one_eq_mod b.toNat 6

theorem leadWidth_toNat (b : UInt8) : leadWidth b =
    if 192 ≤ b.toNat ∧ b.toNat ≤ 223 then 2 else if 224 ≤ b.toNat ∧ b.toNat ≤ 239 then 3
    else if 240 ≤ b.toNat ∧ b.toNat ≤ 247 then 4 else 1 := by
  simp [leadWidth, UInt8.le_iff_toNat_le]

theorem scalarOf?_eq_some {lead : UInt8} {fs : List UInt8} {ch : Char}
    (hcont : ∀ b ∈ fs, isContinuation b = true)
    (hvalue : fs.foldl (fun acc b => acc * 64 + (b &&& 0x3F).toNat)
      (leadBits lead (fs.length + 1)) = ch.toNat)
    (hleast : leastScalar (fs.length + 1) ≤ ch.toNat) : scalarOf? lead fs = some ch := by
  have hall : fs.all isContinuation = true := List.all_eq_true.2 hcont
  simp only [scalarOf?, hvalue, hall, true_and]
  rw [if_pos ⟨hleast, ch.valid⟩, Char.ofNat_toNat]

theorem decode_lead_append {lead : UInt8} {fs : List UInt8} {c : Char} (t : List UInt8)
    (hlead : 0x80 ≤ lead.toNat) (hw : leadWidth lead = fs.length + 1) (hpos : fs ≠ [])
    (hs : scalarOf? lead fs = some c) : decode (lead :: (fs ++ t)) = .scalar c (fs.length + 1) := by
  have hlt : ¬ lead < 0x80 := by
    rw [UInt8.lt_iff_toNat_lt]
    simpa using hlead
  have hlen : 0 < fs.length := List.length_pos_iff.2 hpos
  simp only [decode, hlt, if_false, hw]
  simp [hlen, hs]

theorem toNat_lt_max (ch : Char) : ch.toNat < 0x110000 := by
  have h := ch.valid
  simp only [UInt32.isValidChar, Nat.isValidChar] at h
  change ch.val.toNat < 0x110000
  omega

/-! The four widths of an encoding, as `String.utf8EncodeChar` spells them. -/

theorem decode_one_append (ch : Char) (t : List UInt8) (h : ch.toNat ≤ 127) :
    decode (UInt8.ofNat ch.toNat :: t) = .scalar ch 1 := by
  have hb := toNat_ofNat_of_lt (show ch.toNat < 256 by omega)
  have hlt : UInt8.ofNat ch.toNat < 0x80 := by
    rw [UInt8.lt_iff_toNat_lt, hb]
    simpa using Nat.lt_succ_of_le h
  simp only [decode, hlt, if_true]
  congr 1
  apply Char.ext
  apply UInt32.toNat_inj.1
  show (UInt8.ofNat ch.toNat).toUInt32.toNat = ch.val.toNat
  simp [hb]

theorem decode_two_append (ch : Char) (t : List UInt8) (h1 : 127 < ch.toNat)
    (h2 : ch.toNat ≤ 2047) :
    decode (UInt8.ofNat (ch.toNat / 64 % 32 + 192) :: UInt8.ofNat (ch.toNat % 64 + 128) :: t) =
      .scalar ch 2 := by
  have hl := toNat_ofNat_of_lt (show ch.toNat / 64 % 32 + 192 < 256 by omega)
  have hb := toNat_ofNat_of_lt (show ch.toNat % 64 + 128 < 256 by omega)
  have hw : leadWidth (UInt8.ofNat (ch.toNat / 64 % 32 + 192)) =
      [UInt8.ofNat (ch.toNat % 64 + 128)].length + 1 := by
    rw [leadWidth_toNat, hl, if_pos (by omega)]
    rfl
  have hs : scalarOf? (UInt8.ofNat (ch.toNat / 64 % 32 + 192)) [UInt8.ofNat (ch.toNat % 64 + 128)] =
      some ch := by
    apply scalarOf?_eq_some
    · intro b hb'
      rw [List.mem_singleton] at hb'
      rw [hb', isContinuation_iff, hb]
      omega
    · simp only [List.length_singleton, leadBits, List.foldl_cons, List.foldl_nil, toNat_and_1F,
        toNat_and_3F, hl, hb]
      omega
    · simp only [List.length_singleton, leastScalar]
      omega
  have hlead : 0x80 ≤ (UInt8.ofNat (ch.toNat / 64 % 32 + 192)).toNat := by omega
  exact (decode_lead_append t hlead hw (List.cons_ne_nil _ _) hs :)

theorem decode_three_append (ch : Char) (t : List UInt8) (h1 : 2047 < ch.toNat)
    (h2 : ch.toNat ≤ 65535) :
    decode (UInt8.ofNat (ch.toNat / 4096 % 16 + 224) :: UInt8.ofNat (ch.toNat / 64 % 64 + 128) ::
      UInt8.ofNat (ch.toNat % 64 + 128) :: t) = .scalar ch 3 := by
  have hl := toNat_ofNat_of_lt (show ch.toNat / 4096 % 16 + 224 < 256 by omega)
  have hb1 := toNat_ofNat_of_lt (show ch.toNat / 64 % 64 + 128 < 256 by omega)
  have hb2 := toNat_ofNat_of_lt (show ch.toNat % 64 + 128 < 256 by omega)
  have hw : leadWidth (UInt8.ofNat (ch.toNat / 4096 % 16 + 224)) =
      [UInt8.ofNat (ch.toNat / 64 % 64 + 128), UInt8.ofNat (ch.toNat % 64 + 128)].length + 1 := by
    rw [leadWidth_toNat, hl, if_neg (by omega), if_pos (by omega)]
    rfl
  have hs : scalarOf? (UInt8.ofNat (ch.toNat / 4096 % 16 + 224))
      [UInt8.ofNat (ch.toNat / 64 % 64 + 128), UInt8.ofNat (ch.toNat % 64 + 128)] = some ch := by
    apply scalarOf?_eq_some
    · intro b hb'
      simp only [List.mem_cons, List.mem_nil_iff, or_false] at hb'
      rcases hb' with rfl | rfl
      · rw [isContinuation_iff, hb1]
        omega
      · rw [isContinuation_iff, hb2]
        omega
    · simp only [List.length_cons, List.length_nil, leadBits, List.foldl_cons, List.foldl_nil,
        toNat_and_0F, toNat_and_3F, hl, hb1, hb2]
      omega
    · simp only [List.length_cons, List.length_nil, leastScalar]
      omega
  have hlead : 0x80 ≤ (UInt8.ofNat (ch.toNat / 4096 % 16 + 224)).toNat := by omega
  exact (decode_lead_append t hlead hw (List.cons_ne_nil _ _) hs :)

theorem decode_four_append (ch : Char) (t : List UInt8) (h : 65535 < ch.toNat) :
    decode (UInt8.ofNat (ch.toNat / 262144 % 8 + 240) :: UInt8.ofNat (ch.toNat / 4096 % 64 + 128) ::
      UInt8.ofNat (ch.toNat / 64 % 64 + 128) :: UInt8.ofNat (ch.toNat % 64 + 128) :: t) =
      .scalar ch 4 := by
  have hmax := toNat_lt_max ch
  have hl := toNat_ofNat_of_lt (show ch.toNat / 262144 % 8 + 240 < 256 by omega)
  have hb1 := toNat_ofNat_of_lt (show ch.toNat / 4096 % 64 + 128 < 256 by omega)
  have hb2 := toNat_ofNat_of_lt (show ch.toNat / 64 % 64 + 128 < 256 by omega)
  have hb3 := toNat_ofNat_of_lt (show ch.toNat % 64 + 128 < 256 by omega)
  have hw : leadWidth (UInt8.ofNat (ch.toNat / 262144 % 8 + 240)) =
      [UInt8.ofNat (ch.toNat / 4096 % 64 + 128), UInt8.ofNat (ch.toNat / 64 % 64 + 128),
        UInt8.ofNat (ch.toNat % 64 + 128)].length + 1 := by
    rw [leadWidth_toNat, hl, if_neg (by omega), if_neg (by omega), if_pos (by omega)]
    rfl
  have hs : scalarOf? (UInt8.ofNat (ch.toNat / 262144 % 8 + 240))
      [UInt8.ofNat (ch.toNat / 4096 % 64 + 128), UInt8.ofNat (ch.toNat / 64 % 64 + 128),
        UInt8.ofNat (ch.toNat % 64 + 128)] = some ch := by
    apply scalarOf?_eq_some
    · intro b hb'
      simp only [List.mem_cons, List.mem_nil_iff, or_false] at hb'
      rcases hb' with rfl | rfl | rfl
      · rw [isContinuation_iff, hb1]
        omega
      · rw [isContinuation_iff, hb2]
        omega
      · rw [isContinuation_iff, hb3]
        omega
    · simp only [List.length_cons, List.length_nil, leadBits, List.foldl_cons, List.foldl_nil,
        toNat_and_07, toNat_and_3F, hl, hb1, hb2, hb3]
      omega
    · simp only [List.length_cons, List.length_nil, leastScalar]
      omega
  have hlead : 0x80 ≤ (UInt8.ofNat (ch.toNat / 262144 % 8 + 240)).toNat := by omega
  exact (decode_lead_append t hlead hw (List.cons_ne_nil _ _) hs :)

/-- Every scalar is read back from its encoding, whatever bytes follow it. -/
theorem decode_encodeChar_append (ch : Char) (t : List UInt8) :
    decode (String.utf8EncodeChar ch ++ t) = .scalar ch (String.utf8EncodeChar ch).length := by
  have hv : ch.val.toNat = ch.toNat := rfl
  simp only [String.utf8EncodeChar, hv]
  by_cases h1 : ch.toNat ≤ 127
  · simpa [h1] using decode_one_append ch t h1
  by_cases h2 : ch.toNat ≤ 2047
  · simpa [h1, h2] using decode_two_append ch t (by omega) h2
  by_cases h3 : ch.toNat ≤ 65535
  · simpa [h1, h2, h3] using decode_three_append ch t (by omega) h3
  · simpa [h1, h2, h3] using decode_four_append ch t (by omega)

/-! ## Only an encoding is read as a scalar -/

theorem toNat_ofNat_of_valid {n : Nat} (h : n.isValidChar) : (Char.ofNat n).toNat = n := by
  rw [Char.ofNat, dif_pos h]
  rfl

theorem scalarOf?_spec {lead : UInt8} {fs : List UInt8} {ch : Char} (h : scalarOf? lead fs = some ch) :
    fs.all isContinuation = true ∧ leastScalar (fs.length + 1) ≤ ch.toNat ∧
      ch.toNat = fs.foldl (fun acc b => acc * 64 + (b &&& 0x3F).toNat) (leadBits lead (fs.length + 1)) := by
  unfold scalarOf? at h
  dsimp only at h
  split at h
  · next hc =>
    obtain ⟨hall, hleast, hvalid⟩ := hc
    simp only [Option.some.injEq] at h
    subst h
    rw [toNat_ofNat_of_valid hvalid]
    exact ⟨hall, hleast, rfl⟩
  · simp at h

theorem ofNat_eq_of_toNat {n : Nat} {b : UInt8} (h : n = b.toNat) : UInt8.ofNat n = b := by
  apply UInt8.toNat_inj.1
  rw [toNat_ofNat_of_lt (h ▸ b.toNat_lt), h]

/-- A lead byte and the followers it announces that spell `c` are the encoding of `c`: the
width table and the overlong check leave each scalar one spelling. -/
theorem encodeChar_of_scalarOf? {lead : UInt8} {fs : List UInt8} {c : Char}
    (hw : leadWidth lead = fs.length + 1) (hs : scalarOf? lead fs = some c) :
    String.utf8EncodeChar c = lead :: fs := by
  obtain ⟨hall, hleast, hvalue⟩ := scalarOf?_spec hs
  have hcont : ∀ b ∈ fs, 0x80 ≤ b.toNat ∧ b.toNat < 0xC0 := fun b hb =>
    (isContinuation_iff b).1 (List.all_eq_true.1 hall b hb)
  have hv : c.val.toNat = c.toNat := rfl
  rw [leadWidth_toNat] at hw
  match fs, hw, hleast, hvalue, hcont with
  | [], _, hleast, hvalue, _ =>
    simp only [List.length_nil, leadBits, leastScalar, List.foldl_nil, toNat_and_07] at hleast hvalue
    omega
  | [b₁], hw, hleast, hvalue, hcont =>
    have h₁ := hcont b₁ (by simp)
    simp only [List.length_singleton, leadBits, leastScalar, List.foldl_cons, List.foldl_nil,
      toNat_and_1F, toNat_and_3F] at hleast hvalue
    have hl : 192 ≤ lead.toNat ∧ lead.toNat ≤ 223 := by
      simp only [List.length_singleton] at hw
      split at hw
      · assumption
      · split at hw <;> (try split at hw) <;> omega
    simp only [String.utf8EncodeChar, hv]
    rw [if_neg (by omega), if_pos (by omega), ofNat_eq_of_toNat (b := lead) (by omega),
      ofNat_eq_of_toNat (b := b₁) (by omega)]
  | [b₁, b₂], hw, hleast, hvalue, hcont =>
    have h₁ := hcont b₁ (by simp)
    have h₂ := hcont b₂ (by simp)
    simp only [List.length_cons, List.length_nil, leadBits, leastScalar, List.foldl_cons,
      List.foldl_nil, toNat_and_0F, toNat_and_3F] at hleast hvalue
    have hl : 224 ≤ lead.toNat ∧ lead.toNat ≤ 239 := by
      simp only [List.length_cons, List.length_nil] at hw
      split at hw
      · omega
      · split at hw
        · assumption
        · split at hw <;> omega
    simp only [String.utf8EncodeChar, hv]
    rw [if_neg (by omega), if_neg (by omega), if_pos (by omega),
      ofNat_eq_of_toNat (b := lead) (by omega), ofNat_eq_of_toNat (b := b₁) (by omega),
      ofNat_eq_of_toNat (b := b₂) (by omega)]
  | [b₁, b₂, b₃], hw, hleast, hvalue, hcont =>
    have h₁ := hcont b₁ (by simp)
    have h₂ := hcont b₂ (by simp)
    have h₃ := hcont b₃ (by simp)
    have hmax := toNat_lt_max c
    simp only [List.length_cons, List.length_nil, leadBits, leastScalar, List.foldl_cons,
      List.foldl_nil, toNat_and_07, toNat_and_3F] at hleast hvalue
    have hl : 240 ≤ lead.toNat ∧ lead.toNat ≤ 247 := by
      simp only [List.length_cons, List.length_nil] at hw
      split at hw
      · omega
      · split at hw
        · omega
        · split at hw
          · assumption
          · omega
    simp only [String.utf8EncodeChar, hv]
    rw [if_neg (by omega), if_neg (by omega), if_neg (by omega),
      ofNat_eq_of_toNat (b := lead) (by omega), ofNat_eq_of_toNat (b := b₁) (by omega),
      ofNat_eq_of_toNat (b := b₂) (by omega), ofNat_eq_of_toNat (b := b₃) (by omega)]
  | _ :: _ :: _ :: _ :: _, hw, _, _, _ =>
    simp only [List.length_cons] at hw
    split at hw <;> (try split at hw) <;> (try split at hw) <;> omega

theorem utf8EncodeChar_ofUInt8 {b : UInt8} (h : b < 0x80) :
    String.utf8EncodeChar (Char.ofUInt8 b) = [b] := by
  have hb : b.toNat < 0x80 := UInt8.lt_iff_toNat_lt.1 h
  have hv : (Char.ofUInt8 b).val.toNat = b.toNat := rfl
  simp only [String.utf8EncodeChar, hv]
  rw [if_pos (by omega), ofNat_eq_of_toNat rfl]

/-- The bytes a scalar read at the front of a byte string spans are its encoding. -/
theorem take_eq_of_decode_eq_scalar {bs : List UInt8} {ch : Char} {w : Nat}
    (h : decode bs = .scalar ch w) : bs.take w = String.utf8EncodeChar ch := by
  match bs with
  | [] => simp at h
  | lead :: rest =>
    simp only [decode] at h
    split at h
    · next hlt =>
      simp only [Decoded.scalar.injEq] at h
      obtain ⟨rfl, rfl⟩ := h
      simp [utf8EncodeChar_ofUInt8 hlt]
    · split at h
      · next hw =>
        split at h
        · next c hs =>
          simp only [Decoded.scalar.injEq] at h
          obtain ⟨rfl, rfl⟩ := h
          obtain ⟨k, hk⟩ : ∃ k, leadWidth lead = k + 1 := ⟨leadWidth lead - 1, by omega⟩
          have hw' : leadWidth lead = (rest.take k).length + 1 := by
            rw [hk] at hw ⊢
            simpa using hw.2.symm
          rw [encodeChar_of_scalarOf? hw' (by simpa [hk] using hs), hk, List.take_succ_cons]
        · simp at h
      · simp at h

@[simp] theorem encode_empty : encode "" = [] := by
  simp [encode]

theorem encode_eq_nil {s : String} : encode s = [] ↔ s.toList = [] := by
  rw [encode, List.flatMap_eq_nil_iff, List.eq_nil_iff_forall_not_mem]
  simp

theorem width_pos_of_decode_eq_scalar {bs : List UInt8} {ch : Char} {w : Nat}
    (h : decode bs = .scalar ch w) : 0 < w := by
  match bs, h with
  | b :: rest, h =>
    have := decode_width_pos b rest
    rwa [h] at this

/-! ## Units -/

theorem units_eq_cons {bs : List UInt8} (h : bs ≠ []) :
    units bs = decode bs :: units (bs.drop (decode bs).width) := by
  obtain ⟨b, rest, rfl⟩ := List.exists_cons_of_ne_nil h
  rw [units]

/-- The unit of a scalar read from its encoding. -/
def scalarUnit (ch : Char) : Decoded := .scalar ch (String.utf8EncodeChar ch).length

@[simp] theorem reading_scalarUnit (ch : Char) : (scalarUnit ch).reading = ch := rfl

theorem units_encodeChar_append (ch : Char) (t : List UInt8) :
    units (String.utf8EncodeChar ch ++ t) = scalarUnit ch :: units t := by
  have hne : String.utf8EncodeChar ch ++ t ≠ [] := by simp
  rw [units_eq_cons hne, decode_encodeChar_append]
  simp [scalarUnit, Decoded.width]

/-- The units of encoded text followed by any bytes: its scalars, then the units of the bytes. -/
theorem units_encode_append (s : String) (t : List UInt8) :
    units (encode s ++ t) = s.toList.map scalarUnit ++ units t := by
  unfold encode
  induction s.toList with
  | nil => simp
  | cons ch cs ih => simp [List.append_assoc, units_encodeChar_append, ih]

end Lexer.Utf8
