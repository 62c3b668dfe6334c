import Lexer.Token
import Lexer.Proofs.Discipline
import Lexer.Proofs.Tracking
/-! # The tokens of a scan tile what it read

At each place the bindings are tried in order: those that do not apply or match without moving
are passed over (`PassOver`), each where the round began, and the first other one decides
(`Picks`). `Tiling` states a scan round by round, and every finished scan is one.
-/

namespace Lexer

open Cursor Utf8

/-! ## Positions move on -/

namespace Position

/-- `p` comes before `q`: on an earlier line, or on the same line in an earlier column. -/
def Before (p q : Position) : Prop := p.line < q.line ∨ p.line = q.line ∧ p.column < q.column

instance (p q : Position) : Decidable (Before p q) := inferInstanceAs (Decidable (_ ∨ _))

theorem Before.trans {p q r : Position} (h₁ : Before p q) (h₂ : Before q r) : Before p r := by
  unfold Before at *
  omega

theorem before_next (p : Position) (ch : Char) : Before p (p.next ch) := by
  unfold Before next
  split <;> simp

theorem before_along_cons (p : Position) (ch : Char) (cs : List Char) :
    Before p (p.along (ch :: cs)) := by
  induction cs generalizing p ch with
  | nil => exact before_next p ch
  | cons ch' cs ih => exact (before_next p ch).trans (ih (p.next ch) ch')

/-- Of two unit boundaries, the later one stands at a later position. -/
theorem before_atOffset {origin : Position} {bytes : List UInt8} {n m : Nat}
    (hn : IsBoundary bytes n) (hm : IsBoundary bytes m) (hlt : n < m) :
    Before (origin.atOffset bytes n) (origin.atOffset bytes m) := by
  have en := units_eq_unitsBefore_append hn
  have em := units_eq_unitsBefore_append hm
  have hpre : unitsBefore bytes n <+: unitsBefore bytes m := by
    rcases List.prefix_or_prefix_of_prefix (en ▸ List.prefix_append _ _)
      (em ▸ List.prefix_append _ _) with h | h
    · exact h
    · obtain ⟨vs, hvs⟩ := h
      have hsum := congrArg (fun l => (l.map Decoded.width).sum) hvs
      simp only [List.map_append, List.sum_append] at hsum
      unfold IsBoundary at hn hm
      omega
  obtain ⟨vs, hvs⟩ := hpre
  have hne : vs ≠ [] := by
    rintro rfl
    rw [List.append_nil] at hvs
    unfold IsBoundary at hn hm
    rw [hvs] at hn
    omega
  obtain ⟨v, vs, rfl⟩ := List.exists_cons_of_ne_nil hne
  rw [atOffset, atOffset, ← hvs, List.map_append, along_append, List.map_cons]
  exact before_along_cons _ _ _

end Position

/-! ## Rounds -/

variable {κ : Type}

/-- The bindings `bs`, each tried at the cursor the one before it left, are passed over at a
place that began at offset `start`: each does not apply, or matches without moving. -/
inductive PassOver (start : Nat) : List (Binding κ) → Cursor → Cursor → Prop where
  | nil (c : Cursor) : PassOver start [] c c
  | cons {b : Binding κ} {bs : List (Binding κ)} {c c' : Cursor} {a : Attempt} :
      b.term.attempt c = .ok a →
      (a.outcome = .failed .unmatched ∨ a.outcome = .matched ∧ a.cursor.offset = start) →
      PassOver start bs a.cursor c' → PassOver start (b :: bs) c c'

/-- At a place that began at offset `start`, tried from `c`, the binding `b` of `bs` is the first
one not passed over, and its attempt is `a`. -/
def Picks (start : Nat) (bs : List (Binding κ)) (c : Cursor) (b : Binding κ) (a : Attempt) :
    Prop :=
  ∃ pre post c₁, bs = pre ++ b :: post ∧ PassOver start pre c c₁ ∧ b.term.attempt c₁ = .ok a

theorem PassOver.reaches {R : Cursor → Cursor → Prop} (hR : ReadClosed R) {start : Nat}
    {bs : List (Binding κ)} {c c' : Cursor} (h : PassOver start bs c c') : R c c' := by
  induction h with
  | nil c => exact hR.refl c
  | cons ha _ _ ih => exact hR.trans (attempt_reaches hR _ _ _ ha) ih

theorem Picks.reaches {R : Cursor → Cursor → Prop} (hR : ReadClosed R) {start : Nat}
    {bs : List (Binding κ)} {c : Cursor} {b : Binding κ} {a : Attempt}
    (h : Picks start bs c b a) : R c a.cursor := by
  obtain ⟨pre, post, c₁, -, hpass, ha⟩ := h
  exact hR.trans (hpass.reaches hR) (attempt_reaches hR _ _ _ ha)

theorem Picks.cons {start : Nat} {b b' : Binding κ} {bs : List (Binding κ)} {c : Cursor}
    {a a' : Attempt} (ha : b.term.attempt c = .ok a)
    (hpass : a.outcome = .failed .unmatched ∨ a.outcome = .matched ∧ a.cursor.offset = start)
    (h : Picks start bs a.cursor b' a') : Picks start (b :: bs) c b' a' := by
  obtain ⟨pre, post, c₁, rfl, hpre, ha'⟩ := h
  exact ⟨b :: pre, post, c₁, rfl, .cons ha hpass hpre, ha'⟩

theorem Picks.head {start : Nat} {b : Binding κ} {bs : List (Binding κ)} {c : Cursor}
    {a : Attempt} (ha : b.term.attempt c = .ok a) : Picks start (b :: bs) c b a :=
  ⟨[], bs, c, rfl, .nil c, ha⟩

theorem PassOver.stays {start : Nat} {bs : List (Binding κ)} {c c' : Cursor}
    (h : PassOver start bs c c') (hc : c.offset = start) :
    c.Forward c' ∧ c'.offset = c.offset ∧
      ∀ b ∈ bs, ∃ c₁ a, c.Forward c₁ ∧ c₁.offset = c.offset ∧ b.term.attempt c₁ = .ok a ∧
        a.written = .empty := by
  induction h with
  | nil c => exact ⟨Forward.refl c, rfl, by simp⟩
  | @cons b bs c c' a ha hpass _ ih =>
    obtain ⟨hw, ho, f⟩ := attempt_stays ha (hc ▸ hpass)
    obtain ⟨f', ho', hbs⟩ := ih (ho.trans hc)
    refine ⟨f.trans f', ho'.trans ho, ?_⟩
    simp only [List.mem_cons, forall_eq_or_imp]
    refine ⟨⟨c, a, Forward.refl c, rfl, ha, hw⟩, fun b' hb' => ?_⟩
    obtain ⟨c₁, a', f₁, ho₁, ha', hw'⟩ := hbs b' hb'
    exact ⟨c₁, a', f.trans f₁, ho₁.trans ho, ha', hw'⟩

/-- An attempt at a cursor that has read on from `c` without moving is an attempt at `c` itself,
but for a fault that a strict cursor may have recorded there. -/
theorem attempt_at_start {t : Term} {c c₁ : Cursor} {a : Attempt} (f : c.Forward c₁)
    (ho : c₁.offset = c.offset) (ha : t.attempt c₁ = .ok a) :
    ∃ fl, (fl = c.fault ∨ c.fault = none ∧ c.policy = .strict) ∧
      t.attempt { c with fault := fl } = .ok a := by
  refine ⟨c₁.fault, f.fault_eq, ?_⟩
  rw [← f.eq_of_offset_eq ho]
  exact ha

/-- Every binding passed over in a round that began at `c` is tried at `c` itself, but for a
fault that a strict cursor may have recorded where it stands, and writes nothing; the round ends
at `c` in the same way. -/
theorem PassOver.tried_at_start {bs : List (Binding κ)} {c c' : Cursor}
    (h : PassOver c.offset bs c c') :
    c' = { c with fault := c'.fault } ∧
      ∀ b ∈ bs, ∃ f a, (f = c.fault ∨ c.fault = none ∧ c.policy = .strict) ∧
        b.term.attempt { c with fault := f } = .ok a ∧ a.written = .empty := by
  obtain ⟨f', ho', hbs⟩ := h.stays rfl
  refine ⟨f'.eq_of_offset_eq ho', fun b hb => ?_⟩
  obtain ⟨c₁, a, f₁, ho₁, ha, hw⟩ := hbs b hb
  obtain ⟨f, hf, ha⟩ := attempt_at_start f₁ ho₁ ha
  exact ⟨f, a, hf, ha, hw⟩

/-- The binding picked in a round that began at `c` is tried at `c` itself, but for a fault that
a strict cursor may have recorded there. -/
theorem Picks.tried_at_start {bs : List (Binding κ)} {c : Cursor} {b : Binding κ} {a : Attempt}
    (h : Picks c.offset bs c b a) :
    ∃ f, (f = c.fault ∨ c.fault = none ∧ c.policy = .strict) ∧
      b.term.attempt { c with fault := f } = .ok a := by
  obtain ⟨pre, post, c₁, -, hpass, ha⟩ := h
  obtain ⟨f, ho, -⟩ := hpass.stays rfl
  exact attempt_at_start f ho ha

/-- What the verdict of a round says of the bindings tried from `c`. -/
def Verdict.Sound (start : Nat) (bs : List (Binding κ)) (c : Cursor) : Verdict κ → Prop
  | .token key w c' => ∃ b a, Picks start bs c b a ∧ a.outcome = .matched ∧
      a.cursor.offset ≠ start ∧ key = b.key ∧ w = a.written ∧ c' = a.cursor
  | .noMatch c' => PassOver start bs c c'
  | .failed e c' => ∃ b a why, Picks start bs c b a ∧ a.outcome = .failed why ∧
      why ≠ .unmatched ∧ e = ⟨why, b.description⟩ ∧ c' = a.cursor

theorem Verdict.Sound.cons {start : Nat} {b : Binding κ} {bs : List (Binding κ)} {c : Cursor}
    {a : Attempt} {v : Verdict κ} (ha : b.term.attempt c = .ok a)
    (hpass : a.outcome = .failed .unmatched ∨ a.outcome = .matched ∧ a.cursor.offset = start)
    (h : v.Sound start bs a.cursor) : v.Sound start (b :: bs) c := by
  cases v with
  | token key w c' =>
    obtain ⟨b', a', hp, rest⟩ := h
    exact ⟨b', a', hp.cons ha hpass, rest⟩
  | noMatch c' => exact PassOver.cons ha hpass h
  | failed e c' =>
    obtain ⟨b', a', why, hp, rest⟩ := h
    exact ⟨b', a', why, hp.cons ha hpass, rest⟩

/-- The verdict of a round is the one the bindings give. -/
theorem tryBindings_sound {start : Nat} :
    ∀ {bs : List (Binding κ)} {c : Cursor} {v : Verdict κ},
      tryBindings start bs c = .ok v → v.Sound start bs c
  | [], c, v, h => by
    simp only [tryBindings, pure_eq_ok] at h
    subst h
    exact .nil c
  | b :: bs, c, v, h => by
    simp only [tryBindings] at h
    obtain ⟨a, ha, h⟩ := bind_eq_ok.1 h
    split at h
    · next hm =>
      split at h
      · next hs => exact Verdict.Sound.cons ha (.inr ⟨hm, hs⟩) (tryBindings_sound h)
      · next hs =>
        simp only [pure_eq_ok] at h
        subst h
        exact ⟨b, a, .head ha, hm, hs, rfl, rfl, rfl⟩
    · next hu => exact Verdict.Sound.cons ha (.inl hu) (tryBindings_sound h)
    · next why hne ho =>
      simp only [pure_eq_ok] at h
      subst h
      exact ⟨b, a, why, .head ha, ho, hne, rfl, rfl⟩

/-! ## Scans -/

variable (bindings : List (Binding κ)) (bytes : List UInt8) (origin : Position)

/-- How a scan of `bytes`, whose first byte stands at `origin`, goes on with `bindings` from the
cursor `c`: the tokens it finds, and the error that ends it, if one does. -/
inductive Tiling : Cursor → List (Token κ) → Option LocatedError → Prop where
  | finished {c : Cursor} : c.offset = bytes.length → Tiling c [] none
  | token {c : Cursor} {b : Binding κ} {a : Attempt} {ts : List (Token κ)}
      {e : Option LocatedError} :
      c.offset < bytes.length → Picks c.offset bindings c b a → a.outcome = .matched →
      c.offset < a.cursor.offset → Tiling a.cursor ts e →
      Tiling c (⟨b.key, a.written.text, a.written.values, origin.atOffset bytes c.offset⟩ :: ts) e
  | stuck {c c' : Cursor} {err : LocatedError} :
      c.offset < bytes.length → PassOver c.offset bindings c c' →
      (c'.fault = none → err = ⟨.unexpectedContent, origin.atOffset bytes c.offset⟩) →
      (∀ f, c'.fault = some f → err = ⟨.invalidUtf8, f.position⟩) →
      Tiling c [] (some err)
  | failed {c : Cursor} {b : Binding κ} {a : Attempt} {why : Failure} {err : LocatedError} :
      c.offset < bytes.length → Picks c.offset bindings c b a → a.outcome = .failed why →
      why ≠ .unmatched →
      (a.cursor.fault = none → err = ⟨⟨why, b.description⟩, origin.atOffset bytes c.offset⟩) →
      (∀ f, a.cursor.fault = some f → err = ⟨.invalidUtf8, f.position⟩) →
      Tiling c [] (some err)

variable {bindings bytes origin}

theorem locateError_eq {c : Cursor} {e : ScanError} {p : Position} :
    (c.fault = none → locateError c e p = ⟨e, p⟩) ∧
      ∀ f, c.fault = some f → locateError c e p = ⟨.invalidUtf8, f.position⟩ := by
  unfold locateError
  split <;> simp_all

theorem Forward.length_lt {c c' : Cursor} (h : c.Forward c') (hlt : c.offset < c'.offset)
    (hne : c.rest ≠ []) : c'.rest.length < c.rest.length := by
  rw [h.rest_eq, List.length_drop]
  have := List.length_pos_iff.2 hne
  omega

/-- Every finished scan from a cursor that reads its buffer is a tiling. -/
theorem scanTokens_tiling {c : Cursor} {ts : List (Token κ)} {e : Option LocatedError}
    (hc : c.Reads bytes origin) (h : scanTokens bindings c = .ok (ts, e)) :
    Tiling bindings bytes origin c ts e := by
  induction c using scanTokens.induct generalizing ts e with
  | case1 c hd =>
    rw [scanTokens, if_pos hd] at h
    simp only [pure_eq_ok, Prod.mk.injEq] at h
    obtain ⟨rfl, rfl⟩ := h
    have ht := hc.tracks
    refine .finished ?_
    have hrest : bytes.drop c.offset = [] := by
      rw [← ht.rest_eq]
      simpa [done] using hd
    have := ht.offset_le
    simp only [List.drop_eq_nil_iff] at hrest
    omega
  | case2 c hd ih =>
    rw [scanTokens, if_neg hd] at h
    obtain ⟨v, hv, h⟩ := bind_eq_ok.1 h
    have hsound := tryBindings_sound hv
    have ht := hc.tracks
    have hne : c.rest ≠ [] := by simpa [done] using hd
    have hlen : c.offset < bytes.length := by
      have hr := ht.rest_eq
      rw [hr, Ne, List.drop_eq_nil_iff] at hne
      omega
    cases v with
    | token key w c' =>
      obtain ⟨b, a, hp, hm, hs, rfl, rfl, rfl⟩ := hsound
      have hfwd := hp.reaches readClosed_forward
      have hlt : c.offset < a.cursor.offset := Nat.lt_of_le_of_ne hfwd.offset_le (Ne.symm hs)
      have hreads : a.cursor.Reads bytes origin := hp.reaches (readClosed_reads bytes origin) hc
      have hshorter := Forward.length_lt hfwd hlt hne
      dsimp only at h
      rw [if_pos hshorter] at h
      obtain ⟨⟨ts', e'⟩, hrest, h⟩ := bind_eq_ok.1 h
      simp only [pure_eq_ok, Prod.mk.injEq] at h
      obtain ⟨rfl, rfl⟩ := h
      rw [ht.position_eq]
      exact .token hlen hp hm hlt (ih a.cursor hshorter hreads hrest)
    | noMatch c' =>
      simp only [pure_eq_ok, Prod.mk.injEq] at h
      obtain ⟨rfl, rfl⟩ := h
      rw [ht.position_eq]
      exact .stuck hlen hsound locateError_eq.1 locateError_eq.2
    | failed err c' =>
      obtain ⟨b, a, why, hp, ho, hne, rfl, rfl⟩ := hsound
      simp only [pure_eq_ok, Prod.mk.injEq] at h
      obtain ⟨rfl, rfl⟩ := h
      rw [ht.position_eq]
      exact .failed hlen hp ho hne locateError_eq.1 locateError_eq.2

theorem Tiling.head_position {c : Cursor} {t : Token κ} {ts : List (Token κ)}
    {e : Option LocatedError} (h : Tiling bindings bytes origin c (t :: ts) e) :
    t.position = origin.atOffset bytes c.offset := by
  cases h
  rfl

/-- The tokens of a tiling stand at strictly increasing positions. -/
theorem Tiling.positions_increase {c : Cursor} {ts : List (Token κ)} {e : Option LocatedError}
    (h : Tiling bindings bytes origin c ts e) (hc : c.Reads bytes origin) :
    (ts.map Token.position).IsChain Position.Before := by
  induction h with
  | finished _ | stuck _ _ _ _ | failed _ _ _ _ _ _ => exact .nil
  | @token c b a ts e _ hp _ hlt hrest ih =>
    have hreads : a.cursor.Reads bytes origin := hp.reaches (readClosed_reads bytes origin) hc
    cases ts with
    | nil => exact .singleton _
    | cons t ts =>
      refine List.isChain_cons_cons.2 ⟨?_, ih hreads⟩
      rw [hrest.head_position]
      exact Position.before_atOffset hc.tracks.boundary hreads.tracks.boundary hlt

/-- A finished scan tiles what it read: from offset `0`, each token is made by the first binding
not passed over where it begins, spans from there to where the next begins, holds what its term
wrote and stands at the position of its first byte, so the positions strictly increase; the scan
ends at the end of the bytes, or with the failure of the round that stopped it, located where that
round began. -/
theorem tokenize_tiles {bindings : List (Binding κ)} {bytes : List UInt8} {policy : Utf8Policy}
    {origin : Position} {ts : List (Token κ)} {e : Option LocatedError}
    (h : tokenize bindings bytes policy origin = .ok (ts, e)) :
    Tiling bindings bytes origin (Cursor.init bytes policy origin) ts e ∧
      (ts.map Token.position).IsChain Position.Before := by
  have hc : (Cursor.init bytes policy origin).Reads bytes origin :=
    ⟨[], init_hasRead bytes policy origin⟩
  have ht := scanTokens_tiling hc h
  exact ⟨ht, ht.positions_increase hc⟩

/-- A binding that matches without moving is passed over, and the next one makes the token. -/
theorem blank_binding_passed_over :
    tokenize [⟨0, .many (.scalar ' '), "blank"⟩, ⟨1, .literal "ab", "ab"⟩, ⟨2, .scalar 'a', "a"⟩]
        [0x61, 0x61, 0x62] .lenient Position.start =
      .ok ([⟨2, [0x61], [], ⟨0, 0⟩⟩, ⟨1, [0x61, 0x62], [], ⟨0, 1⟩⟩], none) ∧
    Tiling [⟨0, .many (.scalar ' '), "blank"⟩, ⟨1, .literal "ab", "ab"⟩, ⟨2, .scalar 'a', "a"⟩]
      [0x61, 0x61, 0x62] Position.start (Cursor.init [0x61, 0x61, 0x62] .lenient Position.start)
      [⟨2, [0x61], [], ⟨0, 0⟩⟩, ⟨1, [0x61, 0x62], [], ⟨0, 1⟩⟩] none ∧
    ([⟨0, 0⟩, ⟨0, 1⟩] : List Position).IsChain Position.Before :=
  have h : tokenize [⟨0, .many (.scalar ' '), "blank"⟩, ⟨1, .literal "ab", "ab"⟩,
      ⟨2, .scalar 'a', "a"⟩] [0x61, 0x61, 0x62] .lenient Position.start =
      .ok ([⟨2, [0x61], [], ⟨0, 0⟩⟩, ⟨1, [0x61, 0x62], [], ⟨0, 1⟩⟩], none) := by cbv
  ⟨h, tokenize_tiles h⟩

end Lexer
