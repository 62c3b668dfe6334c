import Lexer.Proofs.Tiling
/-! # A strict cursor stops at the first invalid sequence

A strict cursor reads scalars only, so what it has read is well-formed UTF-8, and once it records
the first invalid unit as its fault nothing moves it (`Cursor.StrictReads`, `Cursor.FaultStays`).
A strict scan's tokens end at or before that unit (`strict_scan_stops_at_first_invalid`).
-/

namespace Lexer

open Cursor Utf8

/-! ## The units of well-formed bytes -/

namespace Utf8

def Decoded.isScalar : Decoded → Bool
  | .scalar _ _ => true
  | _ => false

@[simp] theorem isScalar_scalar (ch : Char) (w : Nat) : (Decoded.scalar ch w).isScalar := rfl

@[simp] theorem isScalar_invalid (n : Nat) : (Decoded.invalid n).isScalar = false := rfl

@[simp] theorem isScalar_scalarUnit (ch : Char) : (scalarUnit ch).isScalar := rfl

/-- The first invalid unit of `bytes` begins at byte `offset` and spans `length` bytes: the units
before it are scalars. -/
def FirstInvalid (bytes : List UInt8) (offset length : Nat) : Prop :=
  ∃ us rest, units bytes = us ++ .invalid length :: rest ∧ (∀ u ∈ us, u.isScalar) ∧
    (us.map Decoded.width).sum = offset

theorem take_eq_flatMap_of_units {bytes : List UInt8} {us : List Decoded} {n : Nat}
    (hunits : units bytes = us ++ units (bytes.drop n)) (hn : (us.map Decoded.width).sum = n)
    (hs : ∀ u ∈ us, u.isScalar) :
    bytes.take n = (us.map Decoded.reading).flatMap String.utf8EncodeChar := by
  induction us generalizing bytes n with
  | nil =>
    subst hn
    simp
  | cons u us ih =>
    obtain ⟨b, rest, rfl⟩ : ∃ b rest, bytes = b :: rest := by
      cases bytes with
      | nil =>
        rw [units] at hunits
        cases hunits
      | cons b rest => exact ⟨b, rest, rfl⟩
    rw [units, List.cons_append, List.cons.injEq] at hunits
    obtain ⟨rfl, hunits⟩ := hunits
    obtain ⟨ch, w, hd⟩ : ∃ ch w, decode (b :: rest) = .scalar ch w := by
      have := hs _ List.mem_cons_self
      revert this
      cases decode (b :: rest) <;> simp [Decoded.isScalar]
    simp only [List.map_cons, List.sum_cons, hd, Decoded.width] at hn
    rw [hd, Decoded.width] at hunits
    have hdrop : (b :: rest).drop n = ((b :: rest).drop w).drop (n - w) := by
      rw [List.drop_drop]
      congr 1
      omega
    rw [hdrop] at hunits
    have htake : (b :: rest).take n = (b :: rest).take w ++ ((b :: rest).drop w).take (n - w) := by
      rw [← List.take_add]
      congr 1
      omega
    rw [htake, take_eq_of_decode_eq_scalar hd, ih hunits (by omega) fun v hv => hs v
      (List.mem_cons_of_mem _ hv), hd]
    simp

theorem scalars_append_invalid_inj {us us' rest rest' : List Decoded} {n n' : Nat}
    (h : us ++ .invalid n :: rest = us' ++ .invalid n' :: rest')
    (hs : ∀ u ∈ us, u.isScalar) (hs' : ∀ u ∈ us', u.isScalar) : us = us' ∧ n = n' := by
  induction us generalizing us' with
  | nil =>
    cases us' with
    | nil =>
      simp only [List.nil_append, List.cons.injEq, Decoded.invalid.injEq] at h
      exact ⟨rfl, h.1⟩
    | cons v vs =>
      simp only [List.nil_append, List.cons_append, List.cons.injEq] at h
      have := hs' v List.mem_cons_self
      rw [← h.1] at this
      simp at this
  | cons u us ih =>
    cases us' with
    | nil =>
      simp only [List.nil_append, List.cons_append, List.cons.injEq] at h
      have := hs u List.mem_cons_self
      rw [h.1] at this
      simp at this
    | cons v vs =>
      simp only [List.cons_append, List.cons.injEq] at h
      obtain ⟨huv, h⟩ := h
      obtain ⟨rfl, rfl⟩ := ih h (fun x hx => hs x (List.mem_cons_of_mem _ hx))
        (fun x hx => hs' x (List.mem_cons_of_mem _ hx))
      exact ⟨huv ▸ rfl, rfl⟩

theorem FirstInvalid.unique {bytes : List UInt8} {F F' n n' : Nat} (h : FirstInvalid bytes F n)
    (h' : FirstInvalid bytes F' n') : F = F' ∧ n = n' := by
  obtain ⟨us, rest, hu, hs, rfl⟩ := h
  obtain ⟨us', rest', hu', hs', rfl⟩ := h'
  obtain ⟨rfl, rfl⟩ := scalars_append_invalid_inj (hu.symm.trans hu') hs hs'
  exact ⟨rfl, rfl⟩

theorem FirstInvalid.lt_length {bytes : List UInt8} {F n : Nat} (h : FirstInvalid bytes F n) :
    F < bytes.length := by
  obtain ⟨us, rest, hu, -, rfl⟩ := h
  have hsum := sum_width_units bytes
  have hpos : 0 < (Decoded.invalid n).width :=
    width_pos_of_mem_units (hu ▸ List.mem_append_right us List.mem_cons_self)
  rw [hu] at hsum
  simp only [List.map_append, List.map_cons, List.sum_append, List.sum_cons] at hsum
  omega

theorem decode_eq_scalar_of_prefix {s : String} {bs : List UInt8} (hs : s.toList ≠ [])
    (hp : encode s <+: bs) : ∃ ch w, decode bs = .scalar ch w := by
  obtain ⟨t, rfl⟩ := hp
  obtain ⟨ch, cs, hcs⟩ := List.exists_cons_of_ne_nil hs
  refine ⟨ch, (String.utf8EncodeChar ch).length, ?_⟩
  rw [encode, hcs, List.flatMap_cons, List.append_assoc]
  exact decode_encodeChar_append ch _

end Utf8

/-! ## The strict invariant -/

namespace Cursor

variable {bytes : List UInt8} {origin : Position} {c c' : Cursor}

/-- What a strict cursor over `bytes`, whose first byte stood at `origin`, keeps true: it has read
only scalars, and a fault it holds is the invalid unit it stands at. -/
structure StrictReads (bytes : List UInt8) (origin : Position) (c : Cursor) : Prop where
  policy_eq : c.policy = .strict
  reads : ∃ us, c.HasRead bytes origin us ∧ ∀ u ∈ us, u.isScalar
  fault_here : ∀ f, c.fault = some f →
    f.offset = c.offset ∧ f.position = c.position ∧ decode c.rest = .invalid f.length

/-- From `c` on to `c'` a fault that `c` holds stays, and the cursor has not moved. -/
def FaultStays (c c' : Cursor) : Prop :=
  ∀ f, c.fault = some f → c'.fault = some f ∧ c'.offset = c.offset ∧ c'.position = c.position

theorem FaultStays.refl (c : Cursor) : FaultStays c c := fun _ hf => ⟨hf, rfl, rfl⟩

theorem FaultStays.trans {c₁ c₂ c₃ : Cursor} (h₁ : FaultStays c₁ c₂) (h₂ : FaultStays c₂ c₃) :
    FaultStays c₁ c₃ := by
  intro f hf
  obtain ⟨hf₂, ho₂, hp₂⟩ := h₁ f hf
  obtain ⟨hf₃, ho₃, hp₃⟩ := h₂ f hf₂
  exact ⟨hf₃, ho₃.trans ho₂, hp₃.trans hp₂⟩

theorem init_strictReads (bytes : List UInt8) (origin : Position) :
    (init bytes .strict origin).StrictReads bytes origin :=
  ⟨rfl, ⟨[], init_hasRead bytes .strict origin, by simp⟩, by simp [init]⟩

namespace StrictReads

theorem toReads (h : c.StrictReads bytes origin) : c.Reads bytes origin := by
  obtain ⟨us, hus, -⟩ := h.reads
  exact ⟨us, hus⟩

/-- What a strict cursor has read is well-formed UTF-8. -/
theorem take_valid (h : c.StrictReads bytes origin) :
    ByteArray.IsValidUTF8 (bytes.take c.offset).toByteArray := by
  obtain ⟨us, hus, hs⟩ := h.reads
  have htake := take_eq_flatMap_of_units (hus.rest_eq ▸ hus.units_eq) hus.offset_eq hs
  exact ⟨us.map Decoded.reading, by rw [htake]; rfl⟩

/-- A fault that a strict cursor holds is the first invalid unit of its buffer. -/
theorem fault_first (h : c.StrictReads bytes origin) {f : Utf8Fault} (hf : c.fault = some f) :
    FirstInvalid bytes f.offset f.length := by
  obtain ⟨us, hus, hs⟩ := h.reads
  obtain ⟨ho, -, hd⟩ := h.fault_here f hf
  have hne : c.rest ≠ [] := fun h0 => by simp [h0] at hd
  refine ⟨us, units (c.rest.drop f.length), ?_, hs, ho ▸ hus.offset_eq⟩
  rw [hus.units_eq, units_eq_cons hne, hd]
  rfl

theorem offset_le (h : c.StrictReads bytes origin) {F n : Nat} (hF : FirstInvalid bytes F n) :
    c.offset ≤ F := by
  obtain ⟨us, hus, hs⟩ := h.reads
  obtain ⟨vs, rest, hv, hvs, rfl⟩ := hF
  have hpre₁ : us <+: units bytes := hus.units_eq ▸ List.prefix_append _ _
  have hpre₂ : vs ++ [.invalid n] <+: units bytes := hv ▸ ⟨rest, by simp⟩
  have hpre : us <+: vs := by
    rcases List.prefix_or_prefix_of_prefix hpre₁ hpre₂ with h | h
    · rcases List.prefix_concat_iff.1 h with rfl | h
      · simpa using hs _ (List.mem_append_right vs List.mem_cons_self)
      · exact h
    · simpa using hs _ (h.subset (List.mem_append_right vs List.mem_cons_self))
  obtain ⟨t, rfl⟩ := hpre
  rw [← hus.offset_eq]
  simp

/-- Where a strict cursor holds a fault, a literal stands only if it is empty. -/
theorem literal_at_fault (h : c.StrictReads bytes origin) {f : Utf8Fault} (hf : c.fault = some f)
    {s : String} (hp : encode s <+: c.rest) : s.toList = [] := by
  by_contra hs
  obtain ⟨ch, w, hd⟩ := decode_eq_scalar_of_prefix hs hp
  rw [(h.fault_here f hf).2.2] at hd
  cases hd

theorem fault_at (h : c.StrictReads bytes origin) {F n : Nat} (hF : FirstInvalid bytes F n)
    {f : Utf8Fault} (hf : c.fault = some f) :
    f.offset = F ∧ f.position = origin.atOffset bytes F := by
  have hF' := (h.fault_first hf).unique hF
  obtain ⟨ho, hp, -⟩ := h.fault_here f hf
  refine ⟨hF'.1, ?_⟩
  rw [hp, h.toReads.tracks.position_eq, ← ho, hF'.1]

/-! ### One lemma for each basic read -/

theorem scan (h : c.StrictReads bytes origin) :
    c.scan.2.StrictReads bytes origin ∧ c.FaultStays c.scan.2 := by
  unfold Cursor.scan
  split
  · exact ⟨h, .refl c⟩
  · exact ⟨h, .refl c⟩
  · next n hd =>
    rw [h.policy_eq]
    dsimp only
    unfold noteFault
    split
    · exact ⟨h, .refl c⟩
    · next hnone =>
      obtain ⟨us, hus, hs⟩ := h.reads
      refine ⟨⟨h.policy_eq, ⟨us, hus.of_eq rfl rfl rfl, hs⟩, ?_⟩, ?_⟩
      · intro f hf
        simp only [Option.some.injEq] at hf
        subst hf
        exact ⟨rfl, rfl, hd⟩
      · intro f hf
        rw [hnone] at hf
        cases hf

theorem consume {ch : Char} {w : Nat} (h : c.StrictReads bytes origin)
    (hs : c.scan = (some (ch, w), c)) (hc : c.consume ch w = .ok c') :
    c'.StrictReads bytes origin ∧ c.FaultStays c' := by
  obtain ⟨us, hus, hsc⟩ := h.reads
  have hread := hus.consume hs hc
  have hd : decode c.rest = .scalar ch w := by
    rcases (scan_eq_some hs).2 with hd | ⟨-, hp, -⟩
    · exact hd
    · rw [h.policy_eq] at hp
      cases hp
  have hnone : c.fault = none := by
    cases hf : c.fault with
    | none => rfl
    | some f =>
      have := (h.fault_here f hf).2.2
      rw [hd] at this
      cases this
  obtain ⟨p, -, rfl⟩ := consume_eq_ok.1 hc
  refine ⟨⟨h.policy_eq, ⟨_, hread, ?_⟩, ?_⟩, ?_⟩
  · intro u hu
    rcases List.mem_append.1 hu with hu | hu
    · exact hsc u hu
    · rw [List.mem_singleton.1 hu, hd]
      rfl
  · intro f hf
    simp only [hnone] at hf
    cases hf
  · intro f hf
    rw [hnone] at hf
    cases hf

theorem leap {s : String} {b : Bool} (h : c.StrictReads bytes origin)
    (hl : c.leap s = .ok (b, c')) : c'.StrictReads bytes origin ∧ c.FaultStays c' := by
  obtain ⟨us, hus, hsc⟩ := h.reads
  have hread := hus.leap hl
  have hscalars : ∀ u ∈ us ++ (if b then s.toList.map scalarUnit else []), u.isScalar := by
    intro u hu
    rcases List.mem_append.1 hu with hu | hu
    · exact hsc u hu
    · split at hu
      · obtain ⟨ch, -, rfl⟩ := List.mem_map.1 hu
        exact isScalar_scalarUnit ch
      · cases hu
  rcases leap_eq_ok hl with ⟨rfl, hpre, p, hp, rfl⟩ | ⟨rfl, -, rfl⟩
  · have hempty : ∀ f, c.fault = some f →
        (encode s).length = 0 ∧ p = c.position := by
      intro f hf
      have hs := h.literal_at_fault hf hpre
      refine ⟨by simp [encode_eq_nil.2 hs], ?_⟩
      rw [Position.advanceText_eq_ok hp, hs, Position.along_nil]
    refine ⟨⟨h.policy_eq, ⟨_, hread, hscalars⟩, ?_⟩, ?_⟩
    · intro f hf
      obtain ⟨hlen, hpos⟩ := hempty f hf
      obtain ⟨ho, hpo, hd⟩ := h.fault_here f hf
      refine ⟨by simp [ho, hlen], by simp [hpo, hpos], ?_⟩
      simpa [hlen] using hd
    · intro f hf
      obtain ⟨hlen, hpos⟩ := hempty f hf
      exact ⟨hf, by simp [hlen], hpos⟩
  · exact ⟨h, .refl _⟩

theorem leapFetch {s : String} {p : Char → Bool} {r : Option Char}
    (h : c.StrictReads bytes origin) (hl : c.leapFetch s p = .ok (r, c')) :
    c'.StrictReads bytes origin ∧ c.FaultStays c' := by
  obtain ⟨us, hus, hsc⟩ := h.reads
  have hread := hus.leapFetch hl
  rcases leapFetch_eq_ok hl with ⟨ch, w, q₁, q, rfl, hpre, hd, -, -, -, rfl⟩ | ⟨-, rfl⟩
  · obtain ⟨ch', w', -, hread⟩ := hread.resolve_right fun h' => by cases h'.1
    have hnone : c.fault = none := by
      cases hf : c.fault with
      | none => rfl
      | some f =>
        have hs := h.literal_at_fault hf hpre
        rw [encode_eq_nil.2 hs, List.length_nil, List.drop_zero, (h.fault_here f hf).2.2] at hd
        cases hd
    refine ⟨⟨h.policy_eq, ⟨_, hread, ?_⟩, ?_⟩, ?_⟩
    · intro u hu
      simp only [List.mem_append, List.mem_map, List.mem_singleton] at hu
      rcases hu with (hu | ⟨ch, -, rfl⟩) | rfl
      · exact hsc u hu
      · exact isScalar_scalarUnit ch
      · rfl
    · intro f hf
      simp only [hnone] at hf
      cases hf
    · intro f hf
      rw [hnone] at hf
      cases hf
  · exact ⟨h, .refl _⟩

end StrictReads

/-- Every read keeps a strict cursor reading scalars only, and freezes it once it holds a fault. -/
theorem readClosed_strict (bytes : List UInt8) (origin : Position) :
    ReadClosed fun c c' => c.StrictReads bytes origin →
      c'.StrictReads bytes origin ∧ c.FaultStays c' where
  refl c h := ⟨h, .refl c⟩
  trans h₁ h₂ h := by
    obtain ⟨h₂', s₁⟩ := h₁ h
    obtain ⟨h₃, s₂⟩ := h₂ h₂'
    exact ⟨h₃, s₁.trans s₂⟩
  scan _ h := h.scan
  consume hs hc h := h.consume hs hc
  leap hl h := h.leap hl
  leapFetch hl h := h.leapFetch hl

/-- Along a run of operations, a relation that every read respects holds between each cursor and
every later one. -/
theorem ReadClosed.performAll_pairwise {R : Cursor → Cursor → Prop} (hR : ReadClosed R)
    {ops : List CursorOp} {replies : List (CursorReply × Cursor)}
    (h : c.performAll ops = .ok replies) : (c :: replies.map Prod.snd).Pairwise R := by
  induction ops generalizing c replies with
  | nil =>
    simp only [performAll, pure_eq_ok] at h
    subst h
    simp
  | cons op ops ih =>
    simp only [performAll] at h
    obtain ⟨⟨r, c₁⟩, hp, h⟩ := bind_eq_ok.1 h
    obtain ⟨rest, hrest, h⟩ := bind_eq_ok.1 h
    simp only [pure_eq_ok] at h
    subst h
    have h₁ : R c c₁ := hR.perform hp
    have ih₁ := ih hrest
    rw [List.map_cons, List.pairwise_cons]
    refine ⟨fun x hx => ?_, ih₁⟩
    rcases List.mem_cons.1 hx with rfl | hx
    · exact h₁
    · exact hR.trans h₁ ((List.pairwise_cons.1 ih₁).1 x hx)

end Cursor

/-- Along any run of operations on a fresh strict cursor, every cursor has read well-formed UTF-8
only; a fault it holds is the first invalid unit of the buffer, with the length `decode` gives
it, and the cursor stands at that unit; and once recorded, the fault stays for the rest of the
run, so the cursor never moves again. -/
theorem strict_run_stops_at_first_invalid {bytes : List UInt8} {origin : Position}
    {ops : List CursorOp} {replies : List (CursorReply × Cursor)}
    (h : (Cursor.init bytes .strict origin).performAll ops = .ok replies) :
    (∀ r ∈ replies, ByteArray.IsValidUTF8 (bytes.take r.2.offset).toByteArray ∧
      ∀ f, r.2.fault = some f →
        FirstInvalid bytes f.offset f.length ∧ r.2.offset = f.offset ∧ r.2.position = f.position) ∧
    (replies.map Prod.snd).Pairwise fun c c' => ∀ f, c.fault = some f → c'.fault = some f := by
  have hp := (readClosed_strict bytes origin).performAll_pairwise h
  rw [List.pairwise_cons] at hp
  have hall : ∀ r ∈ replies, r.2.StrictReads bytes origin := fun r hr =>
    (hp.1 r.2 (List.mem_map_of_mem hr) (init_strictReads bytes origin)).1
  refine ⟨fun r hr => ?_, ?_⟩
  · have hs := hall r hr
    refine ⟨hs.take_valid, fun f hf => ?_⟩
    obtain ⟨ho, hpos, -⟩ := hs.fault_here f hf
    exact ⟨hs.fault_first hf, ho.symm, hpos.symm⟩
  · refine hp.2.imp_of_mem fun {x y} hx _ hxy f hf => ?_
    obtain ⟨r, hr, rfl⟩ := List.mem_map.1 hx
    exact ((hxy (hall r hr)).2 f hf).1

/-- A strict cursor reads `a`, then records the invalid byte after it as its fault and stays
there: neither the empty text nor another read moves it on. -/
theorem strict_run_halts_at_invalid_byte :
    (Cursor.init [0x61, 0xFF, 0x62] .strict Position.start).performAll
        [.fetchAny, .fetchAny, .leap "", .fetchAny] =
      .ok [(.scalar (some 'a'), ⟨[0xFF, 0x62], 1, ⟨0, 1⟩, .strict, none⟩),
        (.scalar none, ⟨[0xFF, 0x62], 1, ⟨0, 1⟩, .strict, some ⟨1, ⟨0, 1⟩, 1⟩⟩),
        (.flag true, ⟨[0xFF, 0x62], 1, ⟨0, 1⟩, .strict, some ⟨1, ⟨0, 1⟩, 1⟩⟩),
        (.scalar none, ⟨[0xFF, 0x62], 1, ⟨0, 1⟩, .strict, some ⟨1, ⟨0, 1⟩, 1⟩⟩)] ∧
    ByteArray.IsValidUTF8 ([0x61, 0xFF, 0x62].take 1).toByteArray ∧
    FirstInvalid [0x61, 0xFF, 0x62] 1 1 :=
  have h : (Cursor.init [0x61, 0xFF, 0x62] .strict Position.start).performAll
        [.fetchAny, .fetchAny, .leap "", .fetchAny] =
      .ok [(.scalar (some 'a'), ⟨[0xFF, 0x62], 1, ⟨0, 1⟩, .strict, none⟩),
        (.scalar none, ⟨[0xFF, 0x62], 1, ⟨0, 1⟩, .strict, some ⟨1, ⟨0, 1⟩, 1⟩⟩),
        (.flag true, ⟨[0xFF, 0x62], 1, ⟨0, 1⟩, .strict, some ⟨1, ⟨0, 1⟩, 1⟩⟩),
        (.scalar none, ⟨[0xFF, 0x62], 1, ⟨0, 1⟩, .strict, some ⟨1, ⟨0, 1⟩, 1⟩⟩)] := by rfl
  ⟨h, ((strict_run_stops_at_first_invalid h).1 _ List.mem_cons_self).1,
    (((strict_run_stops_at_first_invalid h).1 _
      (List.mem_cons_of_mem _ List.mem_cons_self)).2 _ rfl).1⟩


/-! ## Strict scans -/

section Scan

variable {κ : Type} (bindings : List (Binding κ)) (bytes : List UInt8) (origin : Position)

/-- The tokens `ts` of a scan of `bytes` with `bindings` tile the bytes from the cursor `c` to the
cursor `c'` where the next round begins: each is made by a round whose picked binding matches and
moves on, as in `Tiling`. -/
inductive Tiles : Cursor → List (Token κ) → Cursor → Prop where
  | nil (c : Cursor) : Tiles c [] c
  | token {c c' : Cursor} {b : Binding κ} {a : Attempt} {ts : List (Token κ)} :
      c.offset < bytes.length → Picks c.offset bindings c b a → a.outcome = .matched →
      c.offset < a.cursor.offset → Tiles a.cursor ts c' →
      Tiles c (⟨b.key, a.written.text, a.written.values, origin.atOffset bytes c.offset⟩ :: ts) c'

variable {bindings bytes origin}

theorem Tiling.split {c : Cursor} {ts : List (Token κ)} {e : Option LocatedError}
    (h : Tiling bindings bytes origin c ts e) :
    ∃ c', Tiles bindings bytes origin c ts c' ∧ Tiling bindings bytes origin c' [] e := by
  induction h with
  | finished hf => exact ⟨_, .nil _, .finished hf⟩
  | token hlt hp hm hmove _ ih =>
    obtain ⟨c', ht, hlast⟩ := ih
    exact ⟨c', .token hlt hp hm hmove ht, hlast⟩
  | stuck hlt hpass hnone hsome => exact ⟨_, .nil _, .stuck hlt hpass hnone hsome⟩
  | failed hlt hp ho hne hnone hsome => exact ⟨_, .nil _, .failed hlt hp ho hne hnone hsome⟩

theorem Tiles.reaches {R : Cursor → Cursor → Prop} (hR : ReadClosed R) {c c' : Cursor}
    {ts : List (Token κ)} (h : Tiles bindings bytes origin c ts c') : R c c' := by
  induction h with
  | nil c => exact hR.refl c
  | token _ hp _ _ _ ih => exact hR.trans (hp.reaches hR) ih

theorem Tiling.valid_of_finished {c : Cursor} {ts : List (Token κ)}
    (h : Tiling bindings bytes origin c ts none) (hc : c.StrictReads bytes origin) :
    ByteArray.IsValidUTF8 bytes.toByteArray := by
  generalize he : (none : Option LocatedError) = e at h
  induction h with
  | @finished c hf =>
    have hv := hc.take_valid
    rwa [hf, List.take_length] at hv
  | token _ hp _ _ _ ih =>
    exact ih ((hp.reaches (readClosed_strict bytes origin)) hc).1 he
  | stuck _ _ _ _ | failed _ _ _ _ _ _ => cases he

/-- Under a strict policy, a scan ends without an error only if its bytes are well-formed UTF-8.
If they are not, the tokens tile the bytes up to a place at or before the first invalid unit,
where the last round begins and the scan fails. The error is that of the round, located where it
began, unless the round left a fault, which is the first invalid unit: the error is then invalid
UTF-8 at that unit's position, whatever the bindings reported. -/
theorem strict_scan_stops_at_first_invalid {ts : List (Token κ)} {e : Option LocatedError}
    (h : tokenize bindings bytes .strict origin = .ok (ts, e)) :
    (e = none → ByteArray.IsValidUTF8 bytes.toByteArray) ∧
    ∀ F n, FirstInvalid bytes F n → ∃ c c' err, e = some err ∧
      Tiles bindings bytes origin (Cursor.init bytes .strict origin) ts c ∧ c.offset ≤ F ∧
      (∀ f, c'.fault = some f → f.offset = F ∧ err = ⟨.invalidUtf8, origin.atOffset bytes F⟩) ∧
      ((PassOver c.offset bindings c c' ∧
          (c'.fault = none → err = ⟨.unexpectedContent, origin.atOffset bytes c.offset⟩)) ∨
        ∃ b a why, Picks c.offset bindings c b a ∧ a.cursor = c' ∧ a.outcome = .failed why ∧
          why ≠ .unmatched ∧
          (c'.fault = none → err = ⟨⟨why, b.description⟩, origin.atOffset bytes c.offset⟩)) := by
  have h₀ := init_strictReads bytes origin
  have htiling := scanTokens_tiling h₀.toReads h
  refine ⟨fun hnone => (hnone ▸ htiling).valid_of_finished h₀, fun F n hF => ?_⟩
  obtain ⟨c, htiles, hlast⟩ := htiling.split
  have hc : c.StrictReads bytes origin := (htiles.reaches (readClosed_strict bytes origin) h₀).1
  have hle := hc.offset_le hF
  cases hlast with
  | finished hf =>
    have := hF.lt_length
    omega
  | @stuck _ c' err _ hpass hnone hsome =>
    have hc' := (hpass.reaches (readClosed_strict bytes origin) hc).1
    refine ⟨c, c', err, rfl, htiles, hle, fun f hf => ?_, .inl ⟨hpass, hnone⟩⟩
    obtain ⟨ho, hpos⟩ := hc'.fault_at hF hf
    exact ⟨ho, hpos ▸ hsome f hf⟩
  | @failed _ b a why err _ hp ho hne hnone hsome =>
    have ha := (hp.reaches (readClosed_strict bytes origin) hc).1
    refine ⟨c, a.cursor, err, rfl, htiles, hle, fun f hf => ?_,
      .inr ⟨b, a, why, hp, rfl, ho, hne, hnone⟩⟩
    obtain ⟨ho', hpos⟩ := ha.fault_at hF hf
    exact ⟨ho', hpos ▸ hsome f hf⟩

/-- A strict scan over `a` and an invalid byte whose one binding takes any scalar: the token takes
the `a`, and the next round decodes the invalid byte, which records the fault, so the scan fails
with invalid UTF-8 there. -/
theorem any_scalar_scan_at_invalid_byte :
    tokenize [⟨0, .scalarIn .univ, "any"⟩] [0x61, 0xFF] .strict Position.start =
      .ok ([⟨0, [0x61], [], ⟨0, 0⟩⟩], some ⟨.invalidUtf8, ⟨0, 1⟩⟩) ∧
    ∃ c, Tiles [⟨0, .scalarIn .univ, "any"⟩] [0x61, 0xFF] Position.start
      (Cursor.init [0x61, 0xFF] .strict Position.start) [⟨0, [0x61], [], ⟨0, 0⟩⟩] c ∧
      c.offset ≤ 1 := by
  have h : tokenize [⟨0, .scalarIn .univ, "any"⟩] [0x61, 0xFF] .strict Position.start =
      .ok ([⟨0, [0x61], [], ⟨0, 0⟩⟩], some ⟨.invalidUtf8, ⟨0, 1⟩⟩) := by cbv
  have hF : FirstInvalid [0x61, 0xFF] 1 1 := ⟨[.scalar 'a' 1], [], by cbv, by simp, rfl⟩
  obtain ⟨c, -, -, -, htiles, hle, -⟩ := (strict_scan_stops_at_first_invalid h).2 1 1 hF
  exact ⟨h, c, htiles, hle⟩

/-- A strict scan can reach the first invalid unit and still not report invalid UTF-8: its one
binding reads the literal `a`, which compares bytes at the invalid byte and records no fault, so
the scan fails there with unexpected content. -/
theorem literal_scan_reports_unexpected_at_invalid_byte :
    tokenize [⟨0, .literal "a", "a"⟩] [0x61, 0xFF] .strict Position.start =
      .ok ([⟨0, [0x61], [], ⟨0, 0⟩⟩], some ⟨.unexpectedContent, ⟨0, 1⟩⟩) ∧
    FirstInvalid [0x61, 0xFF] 1 1 ∧
    Tiles [⟨0, .literal "a", "a"⟩] [0x61, 0xFF] Position.start
      (Cursor.init [0x61, 0xFF] .strict Position.start) [⟨0, [0x61], [], ⟨0, 0⟩⟩]
      ⟨[0xFF], 1, ⟨0, 1⟩, .strict, none⟩ ∧
    Position.start.atOffset [0x61, 0xFF] 1 = ⟨0, 1⟩ ∧
    (⟨.unexpectedContent, ⟨0, 1⟩⟩ : LocatedError) ≠ ⟨.invalidUtf8, ⟨0, 1⟩⟩ := by
  have ha : (Term.literal "a").attempt (Cursor.init [0x61, 0xFF] .strict Position.start) =
      .ok (.matched ⟨[0xFF], 1, ⟨0, 1⟩, .strict, none⟩ (.ofText "a")) := by cbv
  have htok : (⟨0, [0x61], [], ⟨0, 0⟩⟩ : Token Nat) = ⟨0, (Capture.ofText "a").text,
      (Capture.ofText "a").values, Position.start.atOffset [0x61, 0xFF] 0⟩ := by cbv
  refine ⟨by cbv, ⟨[.scalar 'a' 1], [], by cbv, by simp, rfl⟩, ?_, by cbv, by decide⟩
  rw [htok]
  refine .token (a := .matched ⟨[0xFF], 1, ⟨0, 1⟩, .strict, none⟩ (.ofText "a")) ?_ (Picks.head ha)
    rfl ?_ (.nil _) <;> decide

end Scan

end Lexer
