/-
HearthVault.Lib.LeftmostLongest — leftmost-longest search and replacement
over lists, for any alphabet and any finite list of patterns.

Two readings of the same notion are related here.

* POSITIONAL — `Scan pats ident w c ms`: `ms` are the leftmost-longest
  non-overlapping matches of `pats` in the buffer `w` from position `c`
  on. This is what a multi-pattern matcher promises about its iterator,
  and `Searcher pats` is a matcher together with that promise.
* DENOTATIONAL — `Replaces pats sub w out`: `out` is `w` with every
  leftmost-longest match `p` replaced by `sub p`. It reads `w` from the
  front and never mentions a position, so it composes: a clean stretch
  (`Replaces.skip`) or a matched one (`Replaces.hit`) peels off the front.

`Replaces.unique` says the replacement is determined by the input, and
`Replaces.factor` splits input and output along the same cuts.

A buffer of which only a prefix is known is handled by `Held`: no
occurrence of the whole stream that runs past the known buffer begins
before the position `safe`. `IsNext.replaces` and `Held.replaces_clean`
move from the known buffer to the whole stream under that condition.
-/
import Mathlib.Data.List.Infix
import Mathlib.Data.List.MinMax

namespace HearthVault.LeftmostLongest

variable {α : Type}

/-! ## Matches of a buffer -/

/-- One match: the identifier of its pattern and the half-open span it covers. -/
structure Match where
  pattern : Nat
  start : Nat
  stop : Nat
  deriving DecidableEq, Repr

/-- `p` occurs in `w` at position `i`. -/
def OccursAt (p w : List α) (i : Nat) : Prop :=
  p <+: w.drop i

/-- `m` is the first match of `pats` in `w` from position `c` on: nothing
begins before it, nothing longer begins where it does, and it carries the
identifier `ident` gives its text. -/
structure IsNext (pats : List (List α)) (ident : List α → Nat) (w : List α)
    (c : Nat) (m : Match) : Prop where
  cursor_le : c ≤ m.start
  leftmost : ∀ i, c ≤ i → i < m.start → ∀ p ∈ pats, ¬ OccursAt p w i
  occurs : ∃ p ∈ pats, OccursAt p w m.start ∧ m.stop = m.start + p.length ∧
    m.pattern = ident p ∧ pats[m.pattern]? = some p
  longest : ∀ q ∈ pats, OccursAt q w m.start → m.start + q.length ≤ m.stop

/-- The leftmost-longest non-overlapping matches of `pats` in `w` from `c` on. -/
inductive Scan (pats : List (List α)) (ident : List α → Nat) (w : List α) :
    Nat → List Match → Prop where
  | done {c : Nat} (clean : ∀ i, c ≤ i → ∀ p ∈ pats, ¬ OccursAt p w i) :
      Scan pats ident w c []
  | next {c : Nat} {m : Match} {ms : List Match} (here : IsNext pats ident w c m)
      (rest : Scan pats ident w m.stop ms) : Scan pats ident w c (m :: ms)

/-- A multi-pattern matcher: an iterator over the matches of a buffer, and
the promise that these are the leftmost-longest ones, with one identifier
for each pattern text. -/
structure Searcher (pats : List (List α)) where
  findIter : List α → List Match
  ident : List α → Nat
  scan : ∀ w, Scan pats ident w 0 (findIter w)

theorem OccursAt.add_le {p w : List α} {i : Nat} (h : OccursAt p w i) (hp : p ≠ []) :
    i + p.length ≤ w.length := by
  have hlen := h.length_le
  have hpos := List.length_pos_iff.mpr hp
  simp only [List.length_drop] at hlen
  omega

theorem OccursAt.append {p b : List α} {i : Nat} (h : OccursAt p b i) (f : List α) :
    OccursAt p (b ++ f) i := by
  unfold OccursAt at *
  rw [List.drop_append]
  exact h.trans (List.prefix_append _ _)

/-- An occurrence of the extended buffer that ends inside the known part is
an occurrence of the known part. -/
theorem OccursAt.of_append {p b f : List α} {i : Nat} (h : OccursAt p (b ++ f) i)
    (hle : i + p.length ≤ b.length) : OccursAt p b i := by
  unfold OccursAt at *
  rw [List.drop_append_of_le_length (by omega)] at h
  exact List.prefix_of_prefix_length_le h (List.prefix_append _ _)
    (by rw [List.length_drop]; omega)

theorem IsNext.start_le_stop {pats : List (List α)} {ident : List α → Nat} {w : List α}
    {c : Nat} {m : Match} (h : IsNext pats ident w c m) : m.start ≤ m.stop := by
  obtain ⟨p, _, _, hstop, _⟩ := h.occurs
  omega

theorem IsNext.stop_le {pats : List (List α)} {ident : List α → Nat} {w : List α}
    {c : Nat} {m : Match} (h : IsNext pats ident w c m) (hne : ∀ p ∈ pats, p ≠ []) :
    m.stop ≤ w.length := by
  obtain ⟨p, hp, hocc, hstop, _⟩ := h.occurs
  have := hocc.add_le (hne p hp)
  omega

/-- A scan starts as well one position earlier, when nothing begins there. -/
theorem Scan.extend {pats : List (List α)} {ident : List α → Nat} {w : List α} {c : Nat}
    {ms : List Match} (h : Scan pats ident w (c + 1) ms)
    (clean : ∀ p ∈ pats, ¬ OccursAt p w c) : Scan pats ident w c ms := by
  cases h with
  | done rest =>
    refine .done fun i hi p hp => ?_
    rcases Nat.eq_or_lt_of_le hi with rfl | hlt
    · exact clean p hp
    · exact rest i hlt p hp
  | next here rest =>
    refine .next ⟨Nat.le_of_succ_le here.cursor_le, fun i hi hlt p hp => ?_,
      here.occurs, here.longest⟩ rest
    rcases Nat.eq_or_lt_of_le hi with rfl | hlt'
    · exact clean p hp
    · exact here.leftmost i hlt' hlt p hp

/-! ## Replacement -/

/-- `out` is `w` with each leftmost-longest match `p` of `pats` replaced by
`sub p`. -/
inductive Replaces (pats : List (List α)) (sub : List α → List α) :
    List α → List α → Prop where
  | nil : Replaces pats sub [] []
  | keep {x : α} {w out : List α} (clean : ∀ p ∈ pats, ¬ p <+: x :: w)
      (rest : Replaces pats sub w out) : Replaces pats sub (x :: w) (x :: out)
  | hit {p w out : List α} (mem : p ∈ pats)
      (longest : ∀ q ∈ pats, q <+: p ++ w → q.length ≤ p.length)
      (rest : Replaces pats sub w out) : Replaces pats sub (p ++ w) (sub p ++ out)

variable {pats : List (List α)} {sub : List α → List α}

/-- A stretch in which no pattern begins is copied. -/
theorem Replaces.skip {g w out : List α}
    (clean : ∀ i < g.length, ∀ p ∈ pats, ¬ OccursAt p (g ++ w) i)
    (rest : Replaces pats sub w out) : Replaces pats sub (g ++ w) (g ++ out) := by
  induction g with
  | nil => exact rest
  | cons x g ih =>
    refine .keep (fun p hp => clean 0 (by simp) p hp) (ih fun i hi p hp => ?_)
    exact clean (i + 1) (by simpa using hi) p hp

/-- The replacement is a function of the input. -/
theorem Replaces.unique (hne : ∀ p ∈ pats, p ≠ []) {w o₁ o₂ : List α}
    (h₁ : Replaces pats sub w o₁) (h₂ : Replaces pats sub w o₂) : o₁ = o₂ := by
  induction h₁ generalizing o₂ with
  | nil =>
    generalize hw : ([] : List α) = w at h₂
    cases h₂ with
    | nil => rfl
    | keep _ _ => simp at hw
    | hit mem _ _ => exact absurd (List.append_eq_nil_iff.mp hw.symm).1 (hne _ mem)
  | @keep x w out clean _ ih =>
    generalize hw : x :: w = v at h₂
    cases h₂ with
    | nil => simp at hw
    | keep _ rest =>
      obtain ⟨rfl, rfl⟩ := List.cons.inj hw
      rw [ih rest]
    | @hit p v _ mem _ _ => exact absurd (hw ▸ List.prefix_append p v) (clean p mem)
  | @hit p w out mem longest _ ih =>
    generalize hw : p ++ w = v at h₂
    cases h₂ with
    | nil => exact absurd (List.append_eq_nil_iff.mp hw).1 (hne p mem)
    | keep clean _ => exact absurd (hw ▸ List.prefix_append p w) (clean p mem)
    | @hit q v _ mem' longest' rest =>
      -- Both texts are the longest pattern at the front of the same list.
      have hq := longest q mem' (hw ▸ List.prefix_append q v)
      have hp := longest' p mem (hw ▸ List.prefix_append p w)
      obtain ⟨rfl, rfl⟩ := List.append_inj hw (by omega)
      rw [ih rest]

/-- Input and output are cut at the same places: verbatim gaps that contain
no pattern, and matched patterns against their substitutes. -/
theorem Replaces.factor {w out : List α} (h : Replaces pats sub w out) :
    ∃ (segs : List (List α × List α)) (last : List α),
      w = segs.flatMap (fun s => s.1 ++ s.2) ++ last ∧
      out = segs.flatMap (fun s => s.1 ++ sub s.2) ++ last ∧
      (∀ s ∈ segs, s.2 ∈ pats ∧ ∀ p ∈ pats, p ≠ [] → ¬ p <:+: s.1) ∧
      ∀ p ∈ pats, p ≠ [] → ¬ p <:+: last := by
  induction h with
  | nil => exact ⟨[], [], rfl, rfl, by simp, fun p _ hne => by simpa using hne⟩
  | @keep x w out clean _ ih =>
    obtain ⟨segs, last, hw, hout, hsegs, hlast⟩ := ih
    -- The kept element joins the first gap; a pattern in the longer gap
    -- begins at that element, or was in the gap before.
    have hgap : ∀ g, g <+: w → (∀ p ∈ pats, p ≠ [] → ¬ p <:+: g) →
        ∀ p ∈ pats, p ≠ [] → ¬ p <:+: x :: g := by
      intro g hg hfree p hp hne hin
      rcases List.infix_cons_iff.mp hin with hpre | hin
      · exact clean p hp (hpre.trans (List.cons_prefix_cons.mpr ⟨rfl, hg⟩))
      · exact hfree p hp hne hin
    cases segs with
    | nil =>
      exact ⟨[], x :: last, by simpa using hw, by simpa using hout, by simp,
        hgap last (by simp [hw]) hlast⟩
    | cons s segs =>
      refine ⟨(x :: s.1, s.2) :: segs, last, by simp [hw], by simp [hout], ?_, hlast⟩
      intro t ht
      rcases List.mem_cons.mp ht with rfl | ht
      · have hs := hsegs s (by simp)
        have hpre : s.1 <+: w := by
          rw [hw]
          simp only [List.flatMap_cons, List.append_assoc]
          exact List.prefix_append _ _
        exact ⟨hs.1, hgap s.1 hpre hs.2⟩
      · exact hsegs t (List.mem_cons_of_mem _ ht)
  | @hit p w out mem _ _ ih =>
    obtain ⟨segs, last, hw, hout, hsegs, hlast⟩ := ih
    refine ⟨([], p) :: segs, last, by simp [hw], by simp [hout], ?_, hlast⟩
    intro t ht
    rcases List.mem_cons.mp ht with rfl | ht
    · exact ⟨mem, fun q _ hne => by simpa using hne⟩
    · exact hsegs t ht

/-! ## From a known prefix to the whole stream -/

/-- Every occurrence in `b ++ f` that ends past the known buffer `b` begins
at `safe` or later. -/
def Held (pats : List (List α)) (b f : List α) (safe : Nat) : Prop :=
  ∀ p ∈ pats, ∀ i, OccursAt p (b ++ f) i → b.length < i + p.length → safe ≤ i

/-- An occurrence that begins before `safe` lies inside the known buffer. -/
theorem Held.occursAt {b f p : List α} {safe i : Nat} (h : Held pats b f safe) (hp : p ∈ pats)
    (hocc : OccursAt p (b ++ f) i) (hi : i < safe) : OccursAt p b i := by
  rcases Nat.lt_or_ge b.length (i + p.length) with hlt | hge
  · exact absurd (h p hp i hocc hlt) (by omega)
  · exact hocc.of_append hge

/-- A stretch of the known buffer that is clean there and lies before `safe`
is copied whatever follows. -/
theorem Held.replaces_clean {b f o : List α} {safe c d : Nat} (h : Held pats b f safe)
    (hcd : c ≤ d) (hd : d ≤ safe) (hlen : d ≤ b.length)
    (clean : ∀ i, c ≤ i → i < d → ∀ p ∈ pats, ¬ OccursAt p b i)
    (rest : Replaces pats sub ((b ++ f).drop d) o) :
    Replaces pats sub ((b ++ f).drop c) ((b.drop c).take (d - c) ++ o) := by
  have hsplit : (b ++ f).drop c = (b.drop c).take (d - c) ++ (b ++ f).drop d := by
    have hcut := List.take_append_drop (d - c) ((b ++ f).drop c)
    rw [List.drop_drop, Nat.add_sub_cancel' hcd] at hcut
    rw [← hcut, List.drop_append_of_le_length (by omega : c ≤ b.length),
      List.take_append_of_le_length (by rw [List.length_drop]; omega)]
  rw [hsplit]
  refine rest.skip fun i hi p hp hocc => ?_
  rw [List.length_take, List.length_drop] at hi
  rw [← hsplit] at hocc
  have hocc' : OccursAt p (b ++ f) (c + i) := by
    unfold OccursAt at *
    rwa [List.drop_drop] at hocc
  exact clean (c + i) (by omega) (by omega) p hp (h.occursAt hp hocc' (by omega))

/-- A match that ends before `safe` is the next match of the whole stream. -/
theorem IsNext.replaces {ident : List α → Nat} {b f o : List α} {safe c : Nat} {m : Match}
    (hm : IsNext pats ident b c m) (h : Held pats b f safe) (hne : ∀ p ∈ pats, p ≠ [])
    (hsafe : m.stop ≤ safe) {p : List α} (hp : pats[m.pattern]? = some p)
    (rest : Replaces pats sub ((b ++ f).drop m.stop) o) :
    Replaces pats sub ((b ++ f).drop c)
      ((b.drop c).take (m.start - c) ++ (sub p ++ o)) := by
  obtain ⟨q, hq, hocc, hstop, _, hget⟩ := hm.occurs
  obtain rfl : q = p := Option.some.inj (hget.symm.trans hp)
  have hlen := hm.stop_le hne
  have hpos : 0 < q.length := List.length_pos_iff.mpr (hne q hq)
  have hfront : (b ++ f).drop m.start = q ++ (b ++ f).drop m.stop := by
    obtain ⟨t, ht⟩ := hocc.append f
    rw [← ht, hstop, ← List.drop_drop, ← ht, List.drop_left]
  refine h.replaces_clean hm.cursor_le (by omega) (by omega) hm.leftmost ?_
  rw [hfront]
  refine .hit hq (fun r hr hpre => ?_) rest
  have hrocc : OccursAt r (b ++ f) m.start := by unfold OccursAt; rwa [hfront]
  have := hm.longest r hr (h.occursAt hr hrocc (by omega))
  omega

/-! ## A reference matcher -/

section Reference

variable [DecidableEq α]

/-- The longest pattern at the front of `w`. -/
def longestAt (pats : List (List α)) (w : List α) : Option (List α) :=
  (pats.filter (fun p => p.isPrefixOf w)).argmax List.length

/-- Scan `w`, which begins at position `i` of the buffer, with `fuel` steps. -/
def findFrom (pats : List (List α)) : Nat → List α → Nat → List Match
  | 0, _, _ => []
  | fuel + 1, w, i =>
    match longestAt pats w with
    | some p =>
      ⟨pats.idxOf p, i, i + p.length⟩ :: findFrom pats fuel (w.drop p.length) (i + p.length)
    | none =>
      match w with
      | [] => []
      | _ :: w => findFrom pats fuel w (i + 1)

theorem longestAt_eq_none {w : List α} (h : longestAt pats w = none) :
    ∀ p ∈ pats, ¬ p <+: w := by
  intro p hp hpre
  have hnil := List.argmax_eq_none.mp h
  have : p ∈ pats.filter (fun p => p.isPrefixOf w) :=
    List.mem_filter.mpr ⟨hp, by simpa using hpre⟩
  simp [hnil] at this

theorem longestAt_eq_some {w p : List α} (h : longestAt pats w = some p) :
    p ∈ pats ∧ p <+: w ∧ ∀ q ∈ pats, q <+: w → q.length ≤ p.length := by
  obtain ⟨hmem, hpre⟩ := List.mem_filter.mp (List.argmax_mem h)
  refine ⟨hmem, by simpa using hpre, fun q hq hqpre => ?_⟩
  exact List.le_of_mem_argmax (List.mem_filter.mpr ⟨hq, by simpa using hqpre⟩) h

theorem scan_findFrom (hne : ∀ p ∈ pats, p ≠ []) (w : List α) :
    ∀ (fuel i : Nat), w.length < i + fuel →
      Scan pats (pats.idxOf ·) w i (findFrom pats fuel (w.drop i) i) := by
  intro fuel
  induction fuel with
  | zero =>
    intro i hfuel
    refine .done fun j hj p hp hocc => ?_
    have := hocc.add_le (hne p hp)
    omega
  | succ fuel ih =>
    intro i hfuel
    simp only [findFrom]
    cases hlong : longestAt pats (w.drop i) with
    | some p =>
      obtain ⟨hp, hpre, hmax⟩ := longestAt_eq_some hlong
      have hpos : 0 < p.length := List.length_pos_iff.mpr (hne p hp)
      refine .next ⟨Nat.le_refl i, fun j hj hlt => absurd hj (Nat.not_le.mpr hlt),
        ⟨p, hp, hpre, rfl, rfl, ?_⟩,
        fun q hq hocc => Nat.add_le_add_left (hmax q hq hocc) i⟩ ?_
      · have hlt := List.idxOf_lt_length_iff.mpr hp
        rw [List.getElem?_eq_getElem hlt, List.getElem_idxOf hlt]
      · simpa only [List.drop_drop] using ih (i + p.length) (by omega)
    | none =>
      have hnone := longestAt_eq_none hlong
      cases hw : w.drop i with
      | nil =>
        refine .done fun j hj p hp hocc => ?_
        have hlen := hocc.add_le (hne p hp)
        have := List.drop_eq_nil_iff.mp hw
        have := List.length_pos_iff.mpr (hne p hp)
        omega
      | cons x t =>
        have ht : t = w.drop (i + 1) := by
          rw [← List.drop_drop, hw]; rfl
        rw [ht]
        exact (ih (i + 1) (by omega)).extend hnone

/-- The naive matcher, for any list of non-empty patterns. -/
def Searcher.reference (pats : List (List α)) (hne : ∀ p ∈ pats, p ≠ []) : Searcher pats where
  findIter w := findFrom pats (w.length + 1) w 0
  ident p := pats.idxOf p
  scan w := scan_findFrom hne w (w.length + 1) 0 (by omega)

end Reference

end HearthVault.LeftmostLongest
