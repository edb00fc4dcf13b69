/-
HearthVault.Redact.CarryTheorems — what the redactor withholds.

One call of `process` ends with a carry that begins at the safe length, or
at a match that straddles it (`Straddles`). The bound on the carry is the
hold-back twice: once for the tail behind the safe length, once for the
longest match that can reach into that tail. A straddling match begins after
the last newline when no pattern contains one, because it would otherwise
run over it.

`Withheld` collects what is true of the carry after any sequence of chunks;
`Redactor.process_withheld` is its step and `Redactor.feed_withheld` its run.
-/
import HearthVault.Redact.RedactTheorems

namespace HearthVault.Redact

open HearthVault.LeftmostLongest

/-! ## A stream that has not ended -/

/-- Feed `chunks` with `eof = false`: what came out so far, and the carry. -/
def Redactor.feed (r : Redactor) :
    List UInt8 → List (List UInt8) → Option (List UInt8 × List UInt8)
  | carry, [] => some ([], carry)
  | carry, chunk :: chunks => do
    let (out, carry) ← r.process carry chunk false
    let (rest, carry) ← r.feed carry chunks
    pure (out ++ rest, carry)

/-! ## Where the carry begins -/

/-- A pattern occurs at `k` and runs past `safe`. -/
def Straddles (pats : List (List UInt8)) (buf : List UInt8) (k safe : Nat) : Prop :=
  ∃ p ∈ pats, OccursAt p buf k ∧ safe < k + p.length

/-- The loop ends with a carry that begins at the safe length, or before it
at a match that straddles it. -/
theorem Redactor.emit_carry (r : Redactor) (buf : List UInt8) (safe : Nat) :
    ∀ (ms : List Match) (c : Nat) (out : List UInt8), Scan r.pats r.ac.ident buf c ms → c ≤ safe →
      ∀ o carry, r.emit buf safe ms c out = some (o, carry) →
        ∃ k ≤ safe, carry = buf.drop k ∧ (k = safe ∨ Straddles r.pats buf k safe) := by
  intro ms
  induction ms with
  | nil =>
    intro c out _ hc o carry h
    have hsafe : safe ≤ buf.length := by
      by_contra hgt
      simp [Redactor.emit, slice, show ¬ safe ≤ buf.length from hgt] at h
    simp [Redactor.emit, slice_eq_some hc hsafe, slice_to_end hsafe] at h
    exact ⟨safe, Nat.le_refl safe, h.2.symm, .inl rfl⟩
  | cons m ms ih =>
    intro c out hscan hc o carry h
    cases hscan with
    | next here rest =>
      by_cases hm : m.stop > safe
      · have hstart := here.cursor_le
        have hfrom : min (max c m.start) safe = min m.start safe := by omega
        simp only [Redactor.emit, if_pos hm, hfrom] at h
        obtain ⟨gap, _, h⟩ := Option.bind_eq_some_iff.mp h
        obtain ⟨tail, htail, h⟩ := Option.bind_eq_some_iff.mp h
        have hlen : min m.start safe ≤ buf.length := by
          by_contra hgt
          simp [slice, show ¬ min m.start safe ≤ buf.length from hgt] at htail
        rw [slice_to_end hlen] at htail
        cases htail
        cases h
        refine ⟨min m.start safe, Nat.min_le_right _ _, rfl, ?_⟩
        by_cases hlt : m.start < safe
        · obtain ⟨p, hp, hocc, hstop, _⟩ := here.occurs
          have hk : min m.start safe = m.start := by omega
          rw [hk]
          exact .inr ⟨p, hp, hocc, by omega⟩
        · exact .inl (by omega)
      · simp only [Redactor.emit, if_neg hm] at h
        obtain ⟨gap, _, h⟩ := Option.bind_eq_some_iff.mp h
        obtain ⟨text, _, h⟩ := Option.bind_eq_some_iff.mp h
        exact ih m.stop _ rest (by omega) o carry h

/-! ## The last newline -/

theorem lastNewline_of_mem {b : List UInt8} (h : 10 ∈ b) :
    ∃ nl, lastNewline b = some nl ∧ 10 ∉ b.drop (nl + 1) := by
  have hfind : b.reverse.findIdx? (· == 10) ≠ none := by
    simpa using h
  obtain ⟨i, hi⟩ := Option.ne_none_iff_exists'.mp hfind
  refine ⟨b.length - 1 - i, by rw [lastNewline, hi, Option.map_some], fun hmem => ?_⟩
  obtain ⟨hlt, _, hbefore⟩ := List.findIdx?_eq_some_iff_getElem.mp hi
  rw [List.length_reverse] at hlt
  obtain ⟨j, hj, hget⟩ := List.getElem_of_mem hmem
  rw [List.length_drop] at hj
  rw [List.getElem_drop] at hget
  -- Position `j` after the last newline is position `i - 1 - j` from the end.
  have hrev := hbefore (i - 1 - j) (by omega)
  rw [List.getElem_reverse] at hrev
  simp only [show b.length - 1 - (i - 1 - j) = b.length - 1 - i + 1 + j by omega, hget] at hrev
  exact hrev rfl

/-- Where no pattern contains a newline, the carry does not either. -/
theorem newline_not_mem_drop {r : Redactor} (hline : ∀ p ∈ r.pats, 10 ∉ p) {buf : List UInt8}
    {k : Nat} (hk : k = safeLen r buf false ∨ Straddles r.pats buf k (safeLen r buf false)) :
    10 ∉ buf.drop k := by
  intro hmem
  obtain ⟨nl, hnl, hafter⟩ := lastNewline_of_mem (List.mem_of_mem_drop hmem)
  have hlinesafe : r.lineSafe = true := by
    rw [r.lineSafe_eq, lineSafeOf, List.all_eq_true]
    intro p hp
    simpa using hline p hp
  have hsafe : nl + 1 ≤ safeLen r buf false := by
    simp only [safeLen, hlinesafe, if_true, hnl]
    exact Nat.le_max_right _ _
  have hpast : nl + 1 ≤ k := by
    rcases hk with rfl | ⟨p, hp, hocc, hrun⟩
    · exact hsafe
    · by_contra hle
      exact not_occursAt_across_newline (f := []) (hline p hp) (lastNewline_eq_some hnl).2
        (by simpa using hocc) (by omega) (by omega)
  refine hafter ?_
  rw [show k = nl + 1 + (k - (nl + 1)) by omega, ← List.drop_drop] at hmem
  exact List.mem_of_mem_drop hmem

/-! ## The carry after any sequence of chunks -/

/-- What holds of the carry, `stream` being everything received so far. -/
structure Withheld (r : Redactor) (stream carry : List UInt8) : Prop where
  suffix : carry <:+ stream
  short : carry.length ≤ 2 * r.holdBack
  line : (∀ p ∈ r.pats, 10 ∉ p) → 10 ∉ carry

theorem withheld_nil (r : Redactor) : Withheld r [] [] :=
  ⟨List.suffix_refl [], by simp, by simp⟩

theorem safeLen_ge (r : Redactor) (buf : List UInt8) :
    buf.length - r.holdBack ≤ safeLen r buf false := by
  unfold safeLen
  simp only [Bool.false_eq_true, if_false]
  split
  · split
    · exact Nat.le_max_left _ _
    · exact Nat.le_refl _
  · exact Nat.le_refl _

/-- **One non-final call.** What it withholds is a short end of the buffer. -/
theorem Redactor.process_withheld (r : Redactor) {carry chunk out carry' : List UInt8}
    (h : r.process carry chunk false = some (out, carry')) :
    Withheld r (carry ++ chunk) carry' := by
  obtain ⟨k, hk, rfl, hcase⟩ :=
    r.emit_carry _ _ _ 0 [] (r.ac.scan _) (Nat.zero_le _) out carry' h
  refine ⟨List.drop_suffix _ _, ?_, fun hline => newline_not_mem_drop hline hcase⟩
  have htail := safeLen_ge r (carry ++ chunk)
  have hfar : safeLen r (carry ++ chunk) false ≤ k + r.holdBack := by
    rcases hcase with rfl | ⟨p, hp, _, hrun⟩
    · omega
    · have := r.length_le_holdBack hp
      omega
  rw [List.length_drop]
  omega

theorem Withheld.extend {r : Redactor} {before carry chunk carry' : List UInt8}
    (hpre : carry <:+ before) (h : Withheld r (carry ++ chunk) carry') :
    Withheld r (before ++ chunk) carry' := by
  obtain ⟨front, rfl⟩ := hpre
  refine ⟨?_, h.short, h.line⟩
  rw [List.append_assoc]
  exact h.suffix.trans (List.suffix_append front _)

/-- **Any sequence of non-final calls.** It answers, the invariant holds at
its end, and whatever the stream goes on with, the bytes forwarded are the
front of its replacement. -/
theorem Redactor.feed_withheld (r : Redactor) (chunks : List (List UInt8)) :
    ∀ before carry, Withheld r before carry →
      ∃ out carry', r.feed carry chunks = some (out, carry') ∧
        Withheld r (before ++ chunks.flatten) carry' ∧
        ∀ f o, Replaces r.pats r.sub (carry' ++ f) o →
          Replaces r.pats r.sub (carry ++ (chunks.flatten ++ f)) (out ++ o) := by
  induction chunks with
  | nil =>
    intro before carry hw
    exact ⟨[], carry, rfl, by simpa using hw, fun f o ho => by simpa using ho⟩
  | cons chunk chunks ih =>
    intro before carry hw
    obtain ⟨out, mid, hout, _⟩ := r.process_spec carry chunk [] false (by simp)
    obtain ⟨rest, carry', hrest, hw', hrep⟩ :=
      ih (before ++ chunk) mid ((r.process_withheld hout).extend hw.suffix)
    refine ⟨out ++ rest, carry', by simp [Redactor.feed, hout, hrest], by simpa using hw',
      fun f o ho => ?_⟩
    obtain ⟨out', mid', hout', hstep⟩ :=
      r.process_spec carry chunk (chunks.flatten ++ f) false (by simp)
    rw [hout] at hout'
    cases hout'
    have := hstep (rest ++ o) (hrep f o ho)
    simpa [List.append_assoc] using this

/-- `L`: the length of the longest pattern. -/
def longestPattern (secrets : List Secret) : Nat :=
  ((patterns secrets).map List.length).max?.getD 0

/-- **Redaction is prompt and its buffer is bounded.** After any chunks the
carry is an end of what was received, no longer than `2 * (L - 1)` bytes. It
is empty without patterns, and free of newlines when the patterns are. What
came out is final: the redaction of the stream, however it goes on, is that
output and then the redaction of the carry with the rest. A last call leaves
nothing in the carry. -/
theorem redaction_prompt_and_bounded (secrets : List Secret) (ac : Searcher (patterns secrets))
    (chunks : List (List UInt8)) :
    ∃ out carry, (Redactor.new secrets ac).feed [] chunks = some (out, carry) ∧
      carry.length ≤ 2 * (longestPattern secrets - 1) ∧
      (patterns secrets = [] → carry = []) ∧
      (∃ emitted, chunks.flatten = emitted ++ carry ∧
        ((∀ p ∈ patterns secrets, 10 ∉ p) → 10 ∉ carry)) ∧
      ∀ last, ∃ rest, (Redactor.new secrets ac).process carry last true = some (rest, []) ∧
        (Redactor.new secrets ac).process [] (chunks.flatten ++ last) true
          = some (out ++ rest, []) := by
  obtain ⟨out, carry, hfeed, hw, hrep⟩ :=
    (Redactor.new secrets ac).feed_withheld chunks [] [] (withheld_nil _)
  rw [List.nil_append] at hw
  have hshort : carry.length ≤ 2 * (longestPattern secrets - 1) := hw.short
  refine ⟨out, carry, hfeed, hshort, fun hnone => ?_, ?_, fun last => ?_⟩
  · rw [longestPattern, hnone] at hshort
    exact List.length_eq_zero_iff.mp (by simpa using hshort)
  · obtain ⟨emitted, hcut⟩ := hw.suffix
    exact ⟨emitted, hcut.symm, hw.line⟩
  · obtain ⟨rest, hrest, hlast⟩ := (Redactor.new secrets ac).process_eof carry last
    obtain ⟨whole, hwhole, hall⟩ :=
      (Redactor.new secrets ac).process_eof [] (chunks.flatten ++ last)
    have hsame := (hrep last rest hlast).unique (patterns_nonempty secrets) hall
    exact ⟨rest, hrest, by rw [hwhole, ← hsame]⟩

end HearthVault.Redact
