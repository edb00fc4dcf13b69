/-
HearthVault.Redact.RedactTheorems — what the redactor's output is.

`process_spec` is the whole argument in one step: whatever the stream goes
on with, the replacement of carry-then-rest is the replacement of
buffer-then-rest with the forwarded bytes taken off its front. It rests on
`held_safeLen`: an occurrence that is still unfinished in the buffer begins
in the withheld tail, by length for the plain hold-back and because it
would have to span a newline for the line flush.

`pump_eq_process` and `pump_factors` are the two readings of it for a whole
stream.
-/
import HearthVault.Redact.Redactor

namespace HearthVault.Redact

open HearthVault.LeftmostLongest

/-! ## The safe prefix -/

theorem lastNewline_eq_some {b : List UInt8} {nl : Nat} (h : lastNewline b = some nl) :
    nl < b.length ∧ b[nl]? = some 10 := by
  obtain ⟨i, hi, rfl⟩ := Option.map_eq_some_iff.mp h
  obtain ⟨hlt, hnl, _⟩ := List.findIdx?_eq_some_iff_getElem.mp hi
  rw [List.length_reverse] at hlt
  refine ⟨by omega, ?_⟩
  rw [List.getElem_reverse] at hnl
  rw [List.getElem?_eq_getElem (by omega)]
  simpa using hnl

theorem safeLen_le (r : Redactor) (buf : List UInt8) (eof : Bool) :
    safeLen r buf eof ≤ buf.length := by
  unfold safeLen
  dsimp only
  split
  · split
    · rename_i nl hnl
      have := (lastNewline_eq_some hnl).1
      omega
    · omega
  · omega

theorem Redactor.length_le_holdBack (r : Redactor) {p : List UInt8} (hp : p ∈ r.pats) :
    p.length ≤ r.holdBack + 1 := by
  have := List.le_max?_getD_of_mem (k := 0) (List.mem_map_of_mem (f := List.length) hp)
  rw [r.holdBack_eq, holdBackOf]
  omega

/-- A pattern without newline does not run over one. -/
theorem not_occursAt_across_newline {p b f : List UInt8} {nl i : Nat} (hp : 10 ∉ p)
    (hnl : b[nl]? = some 10) (hocc : OccursAt p (b ++ f) i) (hi : i ≤ nl)
    (hstop : nl < i + p.length) : False := by
  obtain ⟨t, ht⟩ := hocc
  have hlt := (List.getElem?_eq_some_iff.mp hnl).1
  have hget : (b ++ f)[nl]? = some 10 := by rw [List.getElem?_append_left hlt, hnl]
  rw [show nl = i + (nl - i) by omega, ← List.getElem?_drop, ← ht,
    List.getElem?_append_left (by omega)] at hget
  exact hp (List.mem_of_getElem? hget)

/-- No occurrence that is unfinished in the buffer begins in its safe prefix. -/
theorem held_safeLen (r : Redactor) (buf f : List UInt8) (eof : Bool)
    (hf : eof = true → f = []) : Held r.pats buf f (safeLen r buf eof) := by
  intro p hp i hocc hlt
  have hplain : buf.length - (if eof then 0 else r.holdBack) ≤ i := by
    cases eof with
    | true =>
      rw [hf rfl, List.append_nil] at hocc
      have := hocc.add_le (r.nonempty p hp)
      omega
    | false =>
      have := r.length_le_holdBack hp
      simp only [Bool.false_eq_true, if_false]
      omega
  unfold safeLen
  dsimp only
  split
  · rename_i hsafe
    split
    · rename_i nl hnl
      obtain ⟨hnlt, hget⟩ := lastNewline_eq_some hnl
      rw [r.lineSafe_eq, lineSafeOf, List.all_eq_true] at hsafe
      have hp10 : 10 ∉ p := by simpa using hsafe p hp
      have : nl < i := by
        by_contra hle
        exact not_occursAt_across_newline hp10 hget hocc (by omega) (by omega)
      omega
    · exact hplain
  · exact hplain

/-! ## One call -/

/-- The replacement text of a matched pattern. -/
def Redactor.sub (r : Redactor) (p : List UInt8) : List UInt8 :=
  (r.replacements[r.ac.ident p]?).getD []

theorem slice_eq_some {α : Type} {b : List α} {i j : Nat} (hij : i ≤ j) (hj : j ≤ b.length) :
    slice b i j = some ((b.drop i).take (j - i)) :=
  if_pos ⟨hij, hj⟩

theorem slice_to_end {α : Type} {b : List α} {i : Nat} (hi : i ≤ b.length) :
    slice b i b.length = some (b.drop i) := by
  rw [slice_eq_some hi (Nat.le_refl _), List.take_of_length_le (by rw [List.length_drop])]

/-- The loop answers, and what it forwards is the front of the replacement
of everything from the cursor on. -/
theorem Redactor.emit_spec (r : Redactor) {buf f : List UInt8} {safe : Nat}
    (hsafe : safe ≤ buf.length) (held : Held r.pats buf f safe) :
    ∀ (ms : List Match) (c : Nat) (out : List UInt8),
      Scan r.pats r.ac.ident buf c ms → c ≤ safe →
      ∃ emitted carry, r.emit buf safe ms c out = some (out ++ emitted, carry) ∧
        ∀ o, Replaces r.pats r.sub (carry ++ f) o →
          Replaces r.pats r.sub ((buf ++ f).drop c) (emitted ++ o) := by
  intro ms
  induction ms with
  | nil =>
    intro c out hscan hc
    cases hscan with
    | done clean =>
      refine ⟨(buf.drop c).take (safe - c), buf.drop safe, ?_, fun o ho => ?_⟩
      · simp [Redactor.emit, slice_eq_some hc hsafe, slice_to_end hsafe]
      · refine held.replaces_clean hc (Nat.le_refl _) hsafe (fun i hi _ => clean i hi) ?_
        rwa [List.drop_append_of_le_length hsafe]
  | cons m ms ih =>
    intro c out hscan hc
    cases hscan with
    | next here rest =>
      have hstart := here.cursor_le
      have hstop := here.start_le_stop
      by_cases hm : m.stop > safe
      · -- The match reaches into the withheld tail: the carry begins with it,
        -- or at `safe` when the match begins later still.
        have hfrom : min (max c m.start) safe = min m.start safe := by omega
        have hcf : c ≤ min m.start safe := by omega
        have hfb : min m.start safe ≤ buf.length := by omega
        refine ⟨(buf.drop c).take (min m.start safe - c), buf.drop (min m.start safe), ?_,
          fun o ho => ?_⟩
        · simp only [Redactor.emit, if_pos hm, hfrom, slice_eq_some hcf hfb, slice_to_end hfb]
          rfl
        · refine held.replaces_clean hcf (by omega) hfb
            (fun i hi hlt => here.leftmost i hi (by omega)) ?_
          rwa [List.drop_append_of_le_length hfb]
      · obtain ⟨p, hp, hocc, hpstop, hid, hget⟩ := here.occurs
        have hidx : m.pattern < r.replacements.length := by
          rw [r.aligned]
          exact (List.getElem?_eq_some_iff.mp hget).1
        have htext : r.replacements[m.pattern]? = some (r.sub p) := by
          rw [Redactor.sub, ← hid, List.getElem?_eq_getElem hidx, Option.getD_some]
        obtain ⟨emitted, carry, hemit, hrep⟩ :=
          ih m.stop (out ++ (buf.drop c).take (m.start - c) ++ r.sub p) rest (by omega)
        refine ⟨(buf.drop c).take (m.start - c) ++ (r.sub p ++ emitted), carry, ?_,
          fun o ho => ?_⟩
        · simp only [Redactor.emit, if_neg hm, htext,
            slice_eq_some hstart (by omega : m.start ≤ buf.length), Option.bind_eq_bind,
            Option.bind_some]
          rw [hemit]
          simp only [List.append_assoc]
        · simpa only [List.append_assoc] using
            here.replaces held r.nonempty (by omega) hget (hrep o ho)

/-- **One call of `process`.** It answers, and whatever the stream goes on
with, the forwarded bytes are the front of the replacement. -/
theorem Redactor.process_spec (r : Redactor) (carry chunk f : List UInt8) (eof : Bool)
    (hf : eof = true → f = []) :
    ∃ out carry', r.process carry chunk eof = some (out, carry') ∧
      ∀ o, Replaces r.pats r.sub (carry' ++ f) o →
        Replaces r.pats r.sub (carry ++ (chunk ++ f)) (out ++ o) := by
  obtain ⟨out, carry', hout, hrep⟩ :=
    r.emit_spec (safeLen_le r _ eof) (held_safeLen r (carry ++ chunk) f eof hf) _ 0 []
      (r.ac.scan _) (Nat.zero_le _)
  refine ⟨out, carry', by simpa [Redactor.process] using hout, fun o ho => ?_⟩
  simpa using hrep o ho

/-- At the end of the stream nothing is carried over. -/
theorem Redactor.emit_carry_length (r : Redactor) (buf : List UInt8) :
    ∀ (ms : List Match) (c : Nat) (out : List UInt8), Scan r.pats r.ac.ident buf c ms →
      ∀ o carry, r.emit buf buf.length ms c out = some (o, carry) → carry = [] := by
  intro ms
  induction ms with
  | nil =>
    intro c out _ o carry h
    simp only [Redactor.emit, slice_to_end (Nat.le_refl buf.length), Option.bind_eq_bind,
      Option.bind_eq_some_iff] at h
    obtain ⟨_, _, _, hcarry, h⟩ := h
    cases h
    simpa using hcarry.symm
  | cons m ms ih =>
    intro c out hscan o carry h
    cases hscan with
    | next here rest =>
      have hle := here.stop_le r.nonempty
      simp only [Redactor.emit, if_neg (by omega : ¬ m.stop > buf.length), Option.bind_eq_bind,
        Option.bind_eq_some_iff] at h
      obtain ⟨_, _, _, _, h⟩ := h
      exact ih _ _ rest _ _ h

theorem safeLen_eof (r : Redactor) (buf : List UInt8) : safeLen r buf true = buf.length := by
  refine Nat.le_antisymm (safeLen_le r buf true) ?_
  unfold safeLen
  dsimp only
  split
  · split <;> simp
  · simp

/-- The last call forwards the replacement of all that is left. -/
theorem Redactor.process_eof (r : Redactor) (carry chunk : List UInt8) :
    ∃ out, r.process carry chunk true = some (out, []) ∧
      Replaces r.pats r.sub (carry ++ chunk) out := by
  obtain ⟨out, carry', hout, hrep⟩ := r.process_spec carry chunk [] true (fun _ => rfl)
  have hcarry : carry' = [] := by
    rw [Redactor.process, safeLen_eof] at hout
    exact r.emit_carry_length _ _ _ _ (r.ac.scan _) _ _ hout
  subst hcarry
  exact ⟨out, hout, by simpa using hrep [] .nil⟩

/-! ## Whole streams -/

/-- However the stream is cut, the output is its replacement. -/
theorem Redactor.pump_spec (r : Redactor) (chunks : List (List UInt8)) (last : List UInt8) :
    ∀ carry, ∃ out, r.pump carry chunks last = some out ∧
      Replaces r.pats r.sub (carry ++ (chunks.flatten ++ last)) out := by
  induction chunks with
  | nil =>
    intro carry
    obtain ⟨out, hout, hrep⟩ := r.process_eof carry last
    exact ⟨out, by simp [Redactor.pump, hout], by simpa using hrep⟩
  | cons chunk chunks ih =>
    intro carry
    obtain ⟨out, carry', hout, hstep⟩ :=
      r.process_spec carry chunk (chunks.flatten ++ last) false (by simp)
    obtain ⟨rest, hrest, hrep⟩ := ih carry'
    refine ⟨out ++ rest, by simp [Redactor.pump, hout, hrest], ?_⟩
    simpa using hstep rest hrep

/-- **Streaming equals one-shot.** For every set of secrets, every stream
and every way of cutting it, no call indexes out of range and the
concatenated output is that of one call on the whole stream. -/
theorem pump_eq_process (secrets : List Secret) (ac : Searcher (patterns secrets))
    (chunks : List (List UInt8)) (last : List UInt8) :
    ∃ out, (Redactor.new secrets ac).pump [] chunks last = some out ∧
      (Redactor.new secrets ac).process [] (chunks.flatten ++ last) true = some (out, []) := by
  obtain ⟨out, hout, hrep⟩ := (Redactor.new secrets ac).pump_spec chunks last []
  obtain ⟨out', hout', hrep'⟩ :=
    (Redactor.new secrets ac).process_eof [] (chunks.flatten ++ last)
  obtain rfl := hrep.unique (patterns_nonempty secrets) hrep'
  exact ⟨out, hout, hout'⟩

/-- A secret that is a prefix of another one, cut in the middle of the longer. -/
example :
    let secrets : List Secret :=
      [⟨"S".toList, Str.utf8 "tok_abcd".toList⟩, ⟨"L".toList, Str.utf8 "tok_abcd@e".toList⟩]
    (Redactor.new secrets (.reference _ (patterns_nonempty _))).pump []
        [Str.utf8 "x=tok_abc".toList, Str.utf8 "d@e;tok_abcd".toList] []
      = some (Str.utf8 "x=<vault:L>;<vault:S>".toList) := by
  decide

/-! ## Soundness and losslessness -/

/-- A replaced occurrence and the verbatim bytes before it. -/
structure Redaction where
  gap : List UInt8
  text : List UInt8
  secret : Secret

/-- The secrets that are redacted. -/
def Redactable (secrets : List Secret) (s : Secret) : Prop :=
  s ∈ secrets ∧ minRedactableLen ≤ s.value.length

theorem Redactable.value_mem {secrets : List Secret} {s : Secret} (h : Redactable secrets s) :
    s.value ∈ patterns secrets := by
  refine List.mem_map.mpr ⟨(s.value, placeholder s.name), List.mem_flatMap.mpr ⟨s, h.1, ?_⟩, rfl⟩
  rw [Secret.entries, if_neg (Nat.not_lt.mpr h.2)]
  exact List.mem_cons_self

theorem Redactable.encoded_mem {secrets : List Secret} {s : Secret} (h : Redactable secrets s) :
    percentEncode s.value ∈ patterns secrets := by
  by_cases henc : percentEncode s.value = s.value
  · rw [henc]
    exact h.value_mem
  · refine List.mem_map.mpr
      ⟨(percentEncode s.value, placeholder s.name), List.mem_flatMap.mpr ⟨s, h.1, ?_⟩, rfl⟩
    rw [Secret.entries, if_neg (Nat.not_lt.mpr h.2), if_neg henc]
    simp

/-- The identifier of a pattern leads back to it: scanning the pattern
itself reports it. -/
theorem searcher_ident {pats : List (List UInt8)} (ac : Searcher pats)
    (hne : ∀ p ∈ pats, p ≠ []) {p : List UInt8} (hp : p ∈ pats) :
    pats[ac.ident p]? = some p := by
  have hself : OccursAt p p 0 := List.prefix_refl p
  cases hms : ac.findIter p with
  | nil =>
    have hscan := ac.scan p
    rw [hms] at hscan
    cases hscan with
    | done clean => exact absurd hself (clean 0 (Nat.le_refl _) p hp)
  | cons m ms =>
    have hscan := ac.scan p
    rw [hms] at hscan
    cases hscan with
    | next here _ =>
      obtain ⟨q, hq, hocc, hstop, hid, hget⟩ := here.occurs
      have hstart : m.start = 0 := by
        by_contra hpos
        exact here.leftmost 0 (Nat.le_refl _) (by omega) p hp hself
      have hlong := here.longest p hp (hstart ▸ hself)
      have hle := hocc.add_le (hne q hq)
      rw [OccursAt, hstart, List.drop_zero] at hocc
      obtain rfl : q = p := hocc.eq_of_length (by omega)
      rw [← hid]
      exact hget

/-- A pattern of the redactor is a form of some secret, and is replaced by
that secret's placeholder. -/
theorem sub_eq_placeholder (secrets : List Secret) (ac : Searcher (patterns secrets))
    {p : List UInt8} (hp : p ∈ patterns secrets) :
    ∃ s, Redactable secrets s ∧ (p = s.value ∨ p = percentEncode s.value) ∧
      (Redactor.new secrets ac).sub p = placeholder s.name := by
  have hid := searcher_ident ac (patterns_nonempty secrets) hp
  obtain ⟨e, he, rfl⟩ : ∃ e, (secrets.flatMap Secret.entries)[ac.ident p]? = some e ∧ e.1 = p := by
    simpa [patterns] using hid
  obtain ⟨s, hs, hmem⟩ := List.mem_flatMap.mp (List.mem_of_getElem? he)
  obtain ⟨hlen, hsub, htext⟩ := Secret.mem_entries hmem
  refine ⟨s, ⟨hs, hlen⟩, htext, ?_⟩
  rw [← hsub]
  simp [Redactor.sub, Redactor.new, replacements, he]

/-- **Redaction is sound and lossless.** Input and output of a stream are
cut at the same places: replaced occurrences of a secret's value or
percent-encoded value against that secret's placeholder, and verbatim
segments in which no form of any redactable secret occurs. -/
theorem pump_factors (secrets : List Secret) (ac : Searcher (patterns secrets))
    (chunks : List (List UInt8)) (last : List UInt8) :
    ∃ (out : List UInt8) (segs : List Redaction) (tail : List UInt8),
      (Redactor.new secrets ac).pump [] chunks last = some out ∧
      chunks.flatten ++ last = segs.flatMap (fun s => s.gap ++ s.text) ++ tail ∧
      out = segs.flatMap (fun s => s.gap ++ placeholder s.secret.name) ++ tail ∧
      (∀ s ∈ segs, Redactable secrets s.secret ∧
        (s.text = s.secret.value ∨ s.text = percentEncode s.secret.value)) ∧
      ∀ g ∈ tail :: segs.map Redaction.gap, ∀ s, Redactable secrets s →
        ¬ s.value <:+: g ∧ ¬ percentEncode s.value <:+: g := by
  obtain ⟨out, hout, hrep⟩ := (Redactor.new secrets ac).pump_spec chunks last []
  obtain ⟨cuts, tail, hin, hout', hcuts, htail⟩ := hrep.factor
  -- Give every matched text the secret it belongs to.
  have hsegs : ∃ segs : List Redaction,
      segs.map (fun s => (s.gap, s.text)) = cuts ∧
      ∀ s ∈ segs, Redactable secrets s.secret ∧
        (s.text = s.secret.value ∨ s.text = percentEncode s.secret.value) ∧
        (Redactor.new secrets ac).sub s.text = placeholder s.secret.name := by
    clear hin hout'
    induction cuts with
    | nil => exact ⟨[], rfl, by simp⟩
    | cons c cuts ih =>
      obtain ⟨segs, hmap, hall⟩ := ih fun t ht => hcuts t (List.mem_cons_of_mem _ ht)
      obtain ⟨s, hs, htext, hsub⟩ := sub_eq_placeholder secrets ac (hcuts c (by simp)).1
      refine ⟨⟨c.1, c.2, s⟩ :: segs, by simp [hmap], fun t ht => ?_⟩
      rcases List.mem_cons.mp ht with rfl | ht
      · exact ⟨hs, htext, hsub⟩
      · exact hall t ht
  obtain ⟨segs, rfl, hall⟩ := hsegs
  refine ⟨out, segs, tail, hout, ?_, ?_, fun s hs => ⟨(hall s hs).1, (hall s hs).2.1⟩, ?_⟩
  · simpa [List.flatMap_map] using hin
  · rw [hout', List.flatMap_map]
    congr 1
    exact List.flatMap_congr fun s hs => by rw [(hall s hs).2.2]
  · intro g hg s hs
    have hne := patterns_nonempty secrets
    have hfree : ∀ p ∈ patterns secrets, ¬ p <:+: g := by
      intro p hp
      rcases List.mem_cons.mp hg with rfl | hg
      · exact htail p hp (hne p hp)
      · obtain ⟨t, ht, rfl⟩ := List.mem_map.mp hg
        exact (hcuts _ (List.mem_map_of_mem ht)).2 p hp (hne p hp)
    exact ⟨hfree _ hs.value_mem, hfree _ hs.encoded_mem⟩

end HearthVault.Redact
