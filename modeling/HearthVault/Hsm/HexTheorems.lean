/-
HearthVault.Hsm.HexTheorems — which texts `hex_decode` takes for hexadecimal.

The decoder cuts its text every two bytes and gives each piece to
`u8::from_str_radix`. Two things come with that: a piece may end within a
character, which is a panic (`CutsPair`), and a piece may begin with a plus
sign, which the integer parser takes (`Lenient`). Every other text is read or
refused as it should be, and what `seal` writes comes back
(`hexDecode_exact_iff`).
-/
import HearthVault.Hsm.OsKeyring

namespace HearthVault

open Files

/-- An even number of hexadecimal digits. -/
def IsHexText (s : Str) : Prop :=
  s.length % 2 = 0 ∧ ∀ c ∈ s, (hexDigit c).isSome

/-- What the first of two characters may be for `from_str_radix`. -/
def LeadsPair (c : Char) : Prop :=
  c = '+' ∨ (hexDigit c).isSome

/-- Pairs of characters that `from_str_radix` reads. -/
inductive Lenient : Str → Prop
  | nil : Lenient []
  | pair {c d : Char} {s : Str} (hc : LeadsPair c) (hd : (hexDigit d).isSome) (hs : Lenient s) :
      Lenient (c :: d :: s)

/-- After pairs that `from_str_radix` reads, two bytes that end within a
character. -/
inductive CutsPair : Str → Prop
  | first {c : Char} {s : Str} (hc : 2 < c.utf8Size) : CutsPair (c :: s)
  | second {c d : Char} {s : Str} (hc : c.utf8Size = 1) (hd : 1 < d.utf8Size) :
      CutsPair (c :: d :: s)
  | later {c d : Char} {s : Str} (hc : LeadsPair c) (hd : (hexDigit d).isSome) (hs : CutsPair s) :
      CutsPair (c :: d :: s)

/-- `hex_decode` does not panic, and reads the hexadecimal texts and no others. -/
structure DecodesHex (s : Str) : Prop where
  total : ∀ msg, hexDecode s ≠ .error (.panic msg)
  reads : (∃ bytes, hexDecode s = .ok bytes) ↔ IsHexText s

/-! ## One piece -/

theorem utf8Size_of_hexDigit {c : Char} (h : (hexDigit c).isSome) : c.utf8Size = 1 := by
  have hle : c ≤ 'f' := by
    unfold hexDigit at h
    split at h
    · rename_i hc
      exact Char.le_trans hc.2 (by decide)
    split at h
    · rename_i hc
      exact hc.2
    split at h
    · rename_i hc
      exact Char.le_trans hc.2 (by decide)
    · cases h
  have hval : c.val ≤ 0x7F := UInt32.le_trans hle (by decide)
  simp [Char.utf8Size, hval]

theorem utf8Size_of_leadsPair {c : Char} (h : LeadsPair c) : c.utf8Size = 1 := by
  obtain rfl | hc := h
  · decide
  · exact utf8Size_of_hexDigit hc

theorem hexDigit_plus : hexDigit '+' = none := by decide

/-- `from_str_radix` reads two characters if the second is a digit and the
first a digit or a plus sign. -/
theorem fromStrRadix16_isSome_iff (c d : Char) :
    (fromStrRadix16 [c, d]).isSome ↔ LeadsPair c ∧ (hexDigit d).isSome := by
  by_cases hplus : c = '+'
  · subst hplus
    simp [fromStrRadix16, LeadsPair]
  · rw [LeadsPair, or_iff_right hplus]
    unfold fromStrRadix16
    split
    · rename_i heq
      exact absurd (List.cons.inj heq).1 hplus
    · rename_i heq
      cases heq
      cases hexDigit c <;> cases hexDigit d <;> simp
    · rename_i hpair
      exact (hpair _ _ rfl).elim

theorem length_utf8_cons (c : Char) (s : Str) :
    (Str.utf8 (c :: s)).length = c.utf8Size + (Str.utf8 s).length := by
  simp [Str.utf8, String.length_utf8EncodeChar]

/-! ## Pairs -/

section

variable {c d : Char} {s : Str}

theorem lenient_pair_iff :
    Lenient (c :: d :: s) ↔ (LeadsPair c ∧ (hexDigit d).isSome) ∧ Lenient s := by
  constructor
  · rintro (_ | ⟨hc, hd, hs⟩)
    exact ⟨⟨hc, hd⟩, hs⟩
  · rintro ⟨⟨hc, hd⟩, hs⟩
    exact .pair hc hd hs

/-- A pair of two bytes cuts nothing. -/
theorem cutsPair_pair_iff (hc : c.utf8Size = 1) (hd : d.utf8Size = 1) :
    CutsPair (c :: d :: s) ↔ (LeadsPair c ∧ (hexDigit d).isSome) ∧ CutsPair s := by
  constructor
  · intro h
    cases h with
    | first hc' => omega
    | second hc' hd' => omega
    | later hc' hd' hs => exact ⟨⟨hc', hd'⟩, hs⟩
  · rintro ⟨⟨hc', hd'⟩, hs⟩
    exact .later hc' hd' hs

theorem not_lenient_of_first (hc : c.utf8Size ≠ 1) : ¬Lenient (c :: s) := by
  intro h
  cases h with
  | pair hc' hd' hs => exact hc (utf8Size_of_leadsPair hc')

theorem not_lenient_of_second (hd : d.utf8Size ≠ 1) : ¬Lenient (c :: d :: s) := by
  intro h
  cases h with
  | pair hc' hd' hs => exact hd (utf8Size_of_hexDigit hd')

theorem not_cutsPair_of_first (hc : c.utf8Size = 2) : ¬CutsPair (c :: s) := by
  intro h
  cases h with
  | first hc' => omega
  | second hc' hd' => omega
  | later hc' hd' hs =>
    have := utf8Size_of_leadsPair hc'
    omega

theorem Lenient.length_utf8 (h : Lenient s) : (Str.utf8 s).length % 2 = 0 := by
  induction h with
  | nil => rfl
  | pair hc hd hs ih =>
    rw [length_utf8_cons, length_utf8_cons, utf8Size_of_leadsPair hc, utf8Size_of_hexDigit hd]
    omega

/-- A hexadecimal text is pairs without a plus sign. -/
theorem isHexText_iff (s : Str) : IsHexText s ↔ Lenient s ∧ '+' ∉ s := by
  constructor
  · rintro ⟨hlen, hdigits⟩
    refine ⟨?_, fun hplus => by simpa [hexDigit_plus] using hdigits _ hplus⟩
    induction s using List.twoStepInduction with
    | nil => exact .nil
    | singleton c => cases hlen
    | cons_cons c d s ih _ =>
      obtain ⟨hc, hd, hs⟩ : (hexDigit c).isSome ∧ (hexDigit d).isSome ∧
          ∀ e ∈ s, (hexDigit e).isSome := by simpa using hdigits
      refine .pair (.inr hc) hd (ih ?_ hs)
      rw [List.length_cons, List.length_cons] at hlen
      omega
  · rintro ⟨h, hplus⟩
    induction h with
    | nil => exact ⟨rfl, nofun⟩
    | pair hc hd hs ih =>
      simp only [List.mem_cons, not_or] at hplus
      obtain ⟨hlen, hdigits⟩ := ih hplus.2.2
      refine ⟨?_, ?_⟩
      · rw [List.length_cons, List.length_cons]
        omega
      · simp only [List.forall_mem_cons]
        exact ⟨hc.resolve_left (Ne.symm hplus.1), hd, hdigits⟩

end

/-! ## The loop -/

section

variable {c d : Char} {count : Nat} {s : Str}

theorem hexDecodePairs_good (hc : LeadsPair c) (hd : (hexDigit d).isSome) : ∃ b,
    hexDecodePairs (count + 1) (c :: d :: s) = (hexDecodePairs count s).map (b :: ·) := by
  obtain ⟨b, hb⟩ := Option.isSome_iff_exists.mp ((fromStrRadix16_isSome_iff c d).mpr ⟨hc, hd⟩)
  refine ⟨b, ?_⟩
  rw [hexDecodePairs, splitAtByte_two (utf8Size_of_leadsPair hc) (utf8Size_of_hexDigit hd)]
  dsimp only
  rw [hb]
  cases hexDecodePairs count s with
  | ok bytes => rfl
  | error e => rfl

theorem hexDecodePairs_bad (hc : c.utf8Size = 1) (hd : d.utf8Size = 1)
    (h : ¬(LeadsPair c ∧ (hexDigit d).isSome)) :
    hexDecodePairs (count + 1) (c :: d :: s) = bail "" := by
  have hnone : fromStrRadix16 [c, d] = none := by
    rwa [← Option.not_isSome_iff_eq_none, fromStrRadix16_isSome_iff]
  rw [hexDecodePairs, splitAtByte_two hc hd]
  dsimp only
  rw [hnone]

/-- A character of two bytes is no number. -/
theorem hexDecodePairs_wide (hc : c.utf8Size = 2) :
    hexDecodePairs (count + 1) (c :: s) = bail "" := by
  have hsplit : Str.splitAtByte 2 (c :: s) = some ([c], s) := by
    simp [Str.splitAtByte, hc]
  have hnone : fromStrRadix16 [c] = none := by
    simp [fromStrRadix16]
  rw [hexDecodePairs, hsplit]
  dsimp only
  rw [hnone]

theorem hexDecodePairs_cut (h : Str.splitAtByte 2 s = none) :
    hexDecodePairs (count + 1) s = .error (.panic "byte index is not a char boundary") := by
  rw [hexDecodePairs, h]

end

/-- How the loop ends: with bytes where it finds pairs only, with a panic
where it comes to a piece that cuts a character, and with an error otherwise. -/
theorem hexDecodePairs_ends (count : Nat) (s : Str) (h : (Str.utf8 s).length = 2 * count) :
    ((∃ bytes, hexDecodePairs count s = .ok bytes) ↔ Lenient s) ∧
      ((∃ msg, hexDecodePairs count s = .error (.panic msg)) ↔ CutsPair s) := by
  induction count generalizing s with
  | zero =>
    cases s with
    | nil =>
      refine ⟨⟨fun _ => .nil, fun _ => ⟨[], rfl⟩⟩, by simp [hexDecodePairs], ?_⟩
      rintro ⟨⟩
    | cons c s =>
      rw [length_utf8_cons] at h
      have := c.utf8Size_pos
      omega
  | succ count ih =>
    cases s with
    | nil => cases h
    | cons c s =>
      rw [length_utf8_cons] at h
      have hpos := c.utf8Size_pos
      by_cases hthree : 2 < c.utf8Size
      · rw [hexDecodePairs_cut (by simp [Str.splitAtByte, hthree])]
        have hlenient : ¬Lenient (c :: s) := not_lenient_of_first (by omega)
        simp [hlenient, CutsPair.first hthree]
      by_cases htwo : c.utf8Size = 2
      · rw [hexDecodePairs_wide htwo]
        have hlenient : ¬Lenient (c :: s) := not_lenient_of_first (by omega)
        simp [bail, hlenient, not_cutsPair_of_first htwo]
      have hc : c.utf8Size = 1 := by omega
      cases s with
      | nil =>
        simp only [Str.utf8, List.flatMap_nil, List.length_nil] at h
        omega
      | cons d s =>
        rw [length_utf8_cons] at h
        have hdpos := d.utf8Size_pos
        by_cases hd : d.utf8Size = 1
        swap
        · have hwide : 1 < d.utf8Size := by omega
          rw [hexDecodePairs_cut (by simp [Str.splitAtByte, hc, hwide])]
          simp [not_lenient_of_second hd, CutsPair.second hc hwide]
        rw [lenient_pair_iff, cutsPair_pair_iff hc hd]
        by_cases hpair : LeadsPair c ∧ (hexDigit d).isSome
        · obtain ⟨b, hrun⟩ := @hexDecodePairs_good c d count s hpair.1 hpair.2
          obtain ⟨hok, hpanic⟩ := ih s (by omega)
          rw [hrun, ← hok, ← hpanic]
          cases hexDecodePairs count s with
          | ok bytes => simp [hpair, Except.map]
          | error e => simp [hpair, Except.map]
        · rw [hexDecodePairs_bad hc hd hpair]
          simp [bail, hpair]

/-! ## What is read -/

theorem hexDecode_ends (s : Str) :
    ((∃ bytes, hexDecode s = .ok bytes) ↔ Lenient s) ∧
      ((∃ msg, hexDecode s = .error (.panic msg)) ↔
        (Str.utf8 s).length % 2 = 0 ∧ CutsPair s) := by
  rw [hexDecode]
  split
  · rename_i hodd
    have hlenient : ¬Lenient s := fun h => hodd h.length_utf8
    simp [bail, hlenient, hodd]
  · rename_i heven
    rw [Decidable.not_not] at heven
    obtain ⟨hok, hpanic⟩ := hexDecodePairs_ends ((Str.utf8 s).length / 2) s (by omega)
    exact ⟨hok, hpanic.trans ⟨fun h => ⟨heven, h⟩, And.right⟩⟩

/-- What `seal` writes comes back. Any other text is read as it should be
unless it is pairs with a plus sign among them, or an even number of bytes of
which two, after such pairs, end within a character. -/
theorem hexDecode_exact_iff (bytes : List UInt8) (s : Str) :
    hexDecode (hexEncode bytes) = .ok bytes ∧
      (DecodesHex s ↔
        ¬(Lenient s ∧ '+' ∈ s) ∧ ¬((Str.utf8 s).length % 2 = 0 ∧ CutsPair s)) := by
  refine ⟨hexDecode_hexEncode bytes, ?_⟩
  obtain ⟨hok, hpanic⟩ := hexDecode_ends s
  constructor
  · rintro ⟨htotal, hreads⟩
    refine ⟨fun ⟨hlenient, hplus⟩ => ?_, fun hcut => ?_⟩
    · exact ((isHexText_iff s).mp (hreads.mp (hok.mpr hlenient))).2 hplus
    · obtain ⟨msg, hmsg⟩ := hpanic.mpr hcut
      exact htotal msg hmsg
  · rintro ⟨hplus, hcut⟩
    refine ⟨fun msg hmsg => hcut (hpanic.mp ⟨msg, hmsg⟩), ?_⟩
    rw [hok, isHexText_iff]
    exact ⟨fun h => ⟨h, fun hmem => hplus ⟨h, hmem⟩⟩, And.left⟩

/-- A character of two bytes across two pairs is a panic, and a plus sign is
taken for a digit. -/
theorem hexDecode_not_exact : ¬DecodesHex "aéb".toList ∧ ¬DecodesHex "+f".toList := by
  refine ⟨fun h => ?_, fun h => ?_⟩
  · exact h.total "byte index is not a char boundary" (by decide)
  · have hread : ∃ bytes, hexDecode "+f".toList = .ok bytes := ⟨[15], by decide⟩
    exact absurd ((h.reads.mp hread).2 '+' List.mem_cons_self) (by decide)

end HearthVault
