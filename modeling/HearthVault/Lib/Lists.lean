/-
HearthVault.Lib.Lists — lists that are computed element by element.

Where every element is computed without an error, or every step of a fold
keeps an invariant, so does the whole list; where two lists are related element
by element, so is what is computed of them. Two maps that are related key by
key list their bindings alike (`forall₂_toList`).
-/
import Mathlib.Data.List.Forall2
import Mathlib.Data.List.Sort

namespace HearthVault.Elementwise

variable {α β γ : Type}

/-! ## One list -/

/-- What is computed of each element without an error. -/
theorem mapM_eq_ok {ε : Type} {f : α → Except ε β} {g : α → β} {l : List α}
    (h : ∀ a ∈ l, f a = .ok (g a)) : l.mapM f = .ok (l.map g) := by
  induction l with
  | nil => rfl
  | cons a l ih =>
    rw [List.mapM_cons, h a List.mem_cons_self, ih fun b hb => h b (List.mem_cons_of_mem _ hb)]
    rfl

/-- A loop that keeps an invariant and cannot fail while it holds. -/
theorem foldlM_of_invariant {σ : Type} {f : σ → α → Option σ} (P : σ → Prop) {l : List α}
    (h : ∀ a ∈ l, ∀ s, P s → ∃ s', f s a = some s' ∧ P s') {s : σ} (hs : P s) :
    ∃ s', l.foldlM f s = some s' ∧ P s' := by
  induction l generalizing s with
  | nil => exact ⟨s, rfl, hs⟩
  | cons a l ih =>
    obtain ⟨s₁, hstep, hs₁⟩ := h a List.mem_cons_self s hs
    obtain ⟨s', hrest, hs'⟩ := ih (fun b hb => h b (.tail _ hb)) hs₁
    refine ⟨s', ?_, hs'⟩
    rw [List.foldlM_cons, hstep]
    exact hrest

/-- A weaker test lets the same elements pass if and only if it lets none pass
that the stronger one does not. -/
theorem map_filter_eq_iff {p q : α → Bool} (h : ∀ a, q a → p a) (f : α → β)
    (l : List α) :
    (l.filter p).map f = (l.filter q).map f ↔ ∀ a ∈ l, p a = true → q a = true := by
  constructor
  · intro heq a ha hp
    have hlength := congrArg List.length heq
    rw [List.length_map, List.length_map] at hlength
    have hfilter := (List.monotone_filter_right l h).eq_of_length hlength.symm
    have hmem : a ∈ l.filter p := List.mem_filter.mpr ⟨ha, hp⟩
    rw [← hfilter] at hmem
    exact (List.mem_filter.mp hmem).2
  · intro hall
    rw [List.filter_congr fun a ha => Bool.eq_iff_iff.mpr ⟨hall a ha, h a⟩]

/-- A list that a partial function maps to as many elements is mapped one by one. -/
theorem eq_some_of_filterMap_eq_map {f : α → Option β} {g : α → β} {l : List α}
    (h : l.filterMap f = l.map g) : ∀ a ∈ l, f a = some (g a) := by
  induction l with
  | nil => exact nofun
  | cons a l ih =>
    cases hf : f a with
    | none =>
      rw [List.filterMap_cons_none hf] at h
      have hlen := List.length_filterMap_le f l
      rw [h, List.length_map, List.length_cons] at hlen
      omega
    | some b =>
      rw [List.filterMap_cons_some hf, List.map_cons] at h
      obtain ⟨rfl, hrest⟩ := List.cons.inj h
      intro a' ha'
      obtain rfl | ha' := List.mem_cons.mp ha'
      · exact hf
      · exact ih hrest a' ha'

/-- Lists that are put together of parts with different tags are the same if
their parts are. -/
theorem flatMap_eq_iff_of_tags [DecidableEq γ] {g g' : β → List α} {tag : α → γ} {key : β → γ}
    {l : List β} (hkeys : (l.map key).Nodup) (hg : ∀ b ∈ l, ∀ a ∈ g b, tag a = key b)
    (hg' : ∀ b ∈ l, ∀ a ∈ g' b, tag a = key b) :
    l.flatMap g = l.flatMap g' ↔ ∀ b ∈ l, g b = g' b := by
  constructor
  swap
  · exact fun h => List.flatMap_congr h
  intro h
  induction l with
  | nil => exact nofun
  | cons b l ih =>
    obtain ⟨hnew, hkeys⟩ := List.nodup_cons.mp hkeys
    have hown : ∀ f : β → List α, (∀ c ∈ b :: l, ∀ a ∈ f c, tag a = key c) →
        ((b :: l).flatMap f).filter (fun a => tag a = key b) = f b := by
      intro f hf
      rw [List.flatMap_cons, List.filter_append, List.filter_eq_self.mpr fun a ha => by
        simpa using hf b List.mem_cons_self a ha, List.filter_eq_nil_iff.mpr, List.append_nil]
      intro a ha htag
      obtain ⟨c, hc, ha⟩ := List.mem_flatMap.mp ha
      rw [hf c (.tail _ hc) a ha] at htag
      exact hnew (List.mem_map.mpr ⟨c, hc, of_decide_eq_true htag⟩)
    have hb : g b = g' b := by
      rw [← hown g hg, h, hown g' hg']
    rw [List.flatMap_cons, List.flatMap_cons, hb] at h
    intro c hc
    obtain rfl | hc := List.mem_cons.mp hc
    · exact hb
    · exact ih hkeys (fun c hc => hg c (.tail _ hc)) (fun c hc => hg' c (.tail _ hc))
        (List.append_cancel_left h) c hc

/-! ## Two lists -/

theorem map_eq_map_iff_forall₂ (f : α → β) (l l' : List α) :
    l.map f = l'.map f ↔ List.Forall₂ (fun a b => f a = f b) l l' := by
  rw [← List.forall₂_eq_eq_eq, List.forall₂_map_left_iff, List.forall₂_map_right_iff]

/-- A partial function that cannot tell related elements apart. -/
theorem filterMap_eq_of_forall₂ {R : α → β → Prop} {f : α → Option γ} {g : β → Option γ}
    {l : List α} {l' : List β} (h : List.Forall₂ R l l') (hfg : ∀ a b, R a b → f a = g b) :
    l.filterMap f = l'.filterMap g := by
  induction h with
  | nil => rfl
  | cons hab _ ih => rw [List.filterMap_cons, List.filterMap_cons, hfg _ _ hab, ih]

/-! ## Two maps -/

section Maps

open Std

variable [Ord α] [TransOrd α] [LawfulEqOrd α] {R : β → γ → Prop} {t : ExtTreeMap α β compare}
  {u : ExtTreeMap α γ compare}

/-- Maps with the same keys list them alike. -/
theorem keys_eq_of_mem_iff (h : ∀ k, k ∈ t ↔ k ∈ u) : t.keys = u.keys := by
  have hirrefl : Irrefl fun a b : α => compare a b = .lt := ⟨fun a => by simp⟩
  have hantisymm : Antisymm fun a b : α => compare a b = .lt := by
    refine ⟨fun a b hab hba => ?_⟩
    rw [OrientedOrd.eq_swap, hba] at hab
    cases hab
  refine List.Pairwise.eq_of_mem_iff ExtTreeMap.ordered_keys ExtTreeMap.ordered_keys fun k => ?_
  rw [ExtTreeMap.mem_keys, ExtTreeMap.mem_keys, h k]

/-- Maps that are related key by key list their bindings alike. -/
theorem forall₂_toList (h : ∀ k : α, Option.Rel R t[k]? u[k]?) :
    List.Forall₂ (fun p q => p.1 = q.1 ∧ R p.2 q.2) t.toList u.toList := by
  have hmem : ∀ k, k ∈ t ↔ k ∈ u := by
    intro k
    rw [ExtTreeMap.mem_iff_isSome_getElem?, ExtTreeMap.mem_iff_isSome_getElem?]
    have hk := h k
    generalize t[k]? = x, u[k]? = y at hk
    cases hk <;> simp
  have hkeys : t.toList.map Prod.fst = u.toList.map Prod.fst := by
    rw [ExtTreeMap.map_fst_toList_eq_keys, ExtTreeMap.map_fst_toList_eq_keys,
      keys_eq_of_mem_iff hmem]
  refine List.forall₂_iff_get.mpr ⟨by simpa using congrArg List.length hkeys, fun i hi hi' => ?_⟩
  -- Under the same key the two maps have related values.
  have hfst : (t.toList.get ⟨i, hi⟩).1 = (u.toList.get ⟨i, hi'⟩).1 := by
    have hget : (t.toList.map Prod.fst)[i]? = (u.toList.map Prod.fst)[i]? := by rw [hkeys]
    simp only [List.getElem?_map, List.getElem?_eq_getElem hi, List.getElem?_eq_getElem hi',
      Option.map_some, Option.some.injEq] at hget
    exact hget
  have hleft : t[(t.toList.get ⟨i, hi⟩).1]? = some (t.toList.get ⟨i, hi⟩).2 :=
    ExtTreeMap.mem_toList_iff_getElem?_eq_some.mp (List.get_mem _ _)
  have hright : u[(t.toList.get ⟨i, hi⟩).1]? = some (u.toList.get ⟨i, hi'⟩).2 := by
    rw [hfst]
    exact ExtTreeMap.mem_toList_iff_getElem?_eq_some.mp (List.get_mem _ _)
  have hrel := h (t.toList.get ⟨i, hi⟩).1
  rw [hleft, hright] at hrel
  cases hrel with
  | some hrel => exact ⟨hfst, hrel⟩

end Maps

end HearthVault.Elementwise
