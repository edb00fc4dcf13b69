/-
HearthVault.Lib.Greedy — selecting from a list in order, first come first
served.

An element is taken when it is acceptable and clashes with nothing taken
before it. What is taken is pairwise without clashes, and what is acceptable
and not taken clashes with an element that stands before it (`select_split`).
-/
import Mathlib.Data.List.Basic

namespace HearthVault.Greedy

variable {α : Type} (ok : α → Prop) (clash : α → α → Prop) [DecidablePred ok]
  [DecidableRel clash]

/-- One element, after those that are taken. -/
def offer (taken : List α) (a : α) : List α :=
  if ok a ∧ ∀ t ∈ taken, ¬ clash t a then taken ++ [a] else taken

/-- The elements of a list that are taken. -/
def select (l : List α) : List α :=
  l.foldl (offer ok clash) []

/-- What is taken stays, and the rest is taken from the rest. -/
theorem foldl_offer (l taken : List α) :
    ∃ later, later.Sublist l ∧ l.foldl (offer ok clash) taken = taken ++ later := by
  induction l generalizing taken with
  | nil => exact ⟨[], .slnil, by simp⟩
  | cons a l ih =>
    obtain ⟨later, hsub, hrest⟩ := ih (offer ok clash taken a)
    rw [List.foldl_cons, hrest]
    unfold offer
    split
    · exact ⟨a :: later, hsub.cons_cons a, by simp⟩
    · exact ⟨later, hsub.cons a, rfl⟩

theorem select_sublist (l : List α) : (select ok clash l).Sublist l := by
  obtain ⟨later, hsub, hrun⟩ := foldl_offer ok clash l []
  rw [select, hrun, List.nil_append]
  exact hsub

/-- An invariant of what is taken. -/
theorem foldl_offer_invariant {P : List α → Prop}
    (h : ∀ taken a, P taken → ok a → (∀ t ∈ taken, ¬ clash t a) → P (taken ++ [a]))
    (l taken : List α) (hp : P taken) : P (l.foldl (offer ok clash) taken) := by
  induction l generalizing taken with
  | nil => exact hp
  | cons a l ih =>
    rw [List.foldl_cons]
    apply ih
    unfold offer
    split
    · rename_i hfree
      exact h taken a hp hfree.1 hfree.2
    · exact hp

theorem select_ok (l : List α) : ∀ a ∈ select ok clash l, ok a := by
  refine foldl_offer_invariant ok clash (P := fun taken => ∀ a ∈ taken, ok a) ?_ l [] (by simp)
  intro taken a htaken hok _ b hb
  rcases List.mem_append.mp hb with hb | hb
  · exact htaken b hb
  · rw [List.mem_singleton.mp hb]
    exact hok

theorem select_pairwise (l : List α) :
    (select ok clash l).Pairwise fun a b => ¬ clash a b := by
  refine foldl_offer_invariant ok clash (P := List.Pairwise fun a b => ¬ clash a b) ?_ l [] .nil
  intro taken a htaken _ hfree
  rw [List.pairwise_append]
  refine ⟨htaken, List.pairwise_singleton _ a, fun t ht b hb => ?_⟩
  rw [List.mem_singleton.mp hb]
  exact hfree t ht

/-- At any place of the list: what is taken of the elements before it, then
the element there, unless it is not acceptable or clashes with one of these,
and then elements after it. -/
theorem select_split (before after : List α) (a : α) : ∃ later, later.Sublist after ∧
    select ok clash (before ++ a :: after) =
      offer ok clash (select ok clash before) a ++ later := by
  rw [select, List.foldl_append, List.foldl_cons]
  exact foldl_offer ok clash after (offer ok clash (select ok clash before) a)

end HearthVault.Greedy
