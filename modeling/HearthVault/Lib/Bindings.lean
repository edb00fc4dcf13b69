/-
HearthVault.Lib.Bindings — writing a list of bindings into a partial map.

`putAll` writes them one after the other, so that the last binding of a key
wins (`putAll_apply`). `unbound` are the bindings that are left when one whose
key is bound already, in the map or by a binding before it, is passed over;
writing those, the map wins over the list and the first binding of a key over
the others (`putAll_unbound`). `passed` are the bindings that are passed over.
Where the bindings are those of a list of elements, `takers` are the elements
whose bindings are written (`mem_takers`). A map into which bindings are
inserted keeps the last of each key (`getElem?_foldl_insert`) and lists one
for each (`first_toList`).
-/
import Mathlib.Data.List.Basic
import Mathlib.Logic.Function.Basic
import Std.Data.ExtTreeMap

namespace HearthVault.Bindings

variable {κ β γ : Type} [DecidableEq κ]

def put (v : κ → Option β) (binding : κ × β) : κ → Option β :=
  Function.update v binding.1 (some binding.2)

def putAll (v : κ → Option β) (bindings : List (κ × β)) : κ → Option β :=
  bindings.foldl put v

/-- The first binding of a key. -/
def first (bindings : List (κ × β)) (key : κ) : Option β :=
  (bindings.find? fun b => b.1 = key).map Prod.snd

/-- The last binding of a key. -/
def last (bindings : List (κ × β)) (key : κ) : Option β :=
  first bindings.reverse key

def unbound (v : κ → Option β) : List (κ × β) → List (κ × β)
  | [] => []
  | b :: rest => if (v b.1).isSome then unbound v rest else b :: unbound (put v b) rest

/-- The bindings that `unbound` passes over. -/
def passed (v : κ → Option β) : List (κ × β) → List (κ × β)
  | [] => []
  | b :: rest => if (v b.1).isSome then b :: passed v rest else passed (put v b) rest

/-- The bindings that are written, over what is there or not. -/
def taken (force : Bool) (v : κ → Option β) (bindings : List (κ × β)) : List (κ × β) :=
  if force then bindings else unbound v bindings

/-! ## Looking up -/

@[simp] theorem put_same (v : κ → Option β) (key : κ) (b : β) : put v (key, b) key = some b := by
  simp [put]

theorem put_of_ne (v : κ → Option β) {key key' : κ} (b : β) (h : key ≠ key') :
    put v (key', b) key = v key := by
  simp [put, h]

@[simp] theorem first_nil (key : κ) : first ([] : List (κ × β)) key = none := rfl

theorem first_cons (b : κ × β) (rest : List (κ × β)) (key : κ) :
    first (b :: rest) key = if b.1 = key then some b.2 else first rest key := by
  by_cases h : b.1 = key <;> simp [first, h]

theorem first_append (l l' : List (κ × β)) (key : κ) :
    first (l ++ l') key = (first l key).or (first l' key) := by
  induction l with
  | nil => simp
  | cons b l ih =>
    by_cases h : b.1 = key <;> simp [first_cons, h, ih]

@[simp] theorem last_nil (key : κ) : last ([] : List (κ × β)) key = none := rfl

theorem last_cons (b : κ × β) (rest : List (κ × β)) (key : κ) :
    last (b :: rest) key = (last rest key).or (if b.1 = key then some b.2 else none) := by
  simp [last, first_append, first_cons]

theorem first_eq_some_mem {l : List (κ × β)} {key : κ} {b : β} (h : first l key = some b) :
    (key, b) ∈ l := by
  induction l with
  | nil => simp at h
  | cons x l ih =>
    rw [first_cons] at h
    split at h
    · rename_i hx
      cases h
      rw [← hx]
      exact .head _
    · exact .tail _ (ih h)

theorem last_eq_some_mem {l : List (κ × β)} {key : κ} {b : β} (h : last l key = some b) :
    (key, b) ∈ l :=
  List.mem_reverse.mp (first_eq_some_mem h)

theorem first_isSome {l : List (κ × β)} {key : κ} :
    (first l key).isSome = true ↔ ∃ b, (key, b) ∈ l := by
  constructor
  · intro h
    obtain ⟨b, hb⟩ := Option.isSome_iff_exists.mp h
    exact ⟨b, first_eq_some_mem hb⟩
  · rintro ⟨b, hb⟩
    rw [first, Option.isSome_map]
    exact List.find?_isSome.mpr ⟨(key, b), hb, by simp⟩

theorem last_isSome {l : List (κ × β)} {key : κ} :
    (last l key).isSome = true ↔ ∃ b, (key, b) ∈ l := by
  simp [last, first_isSome]

theorem first_eq_none {l : List (κ × β)} {key : κ} :
    first l key = none ↔ ∀ b, (key, b) ∉ l := by
  rw [← Option.not_isSome_iff_eq_none, first_isSome]
  simp

theorem last_eq_none {l : List (κ × β)} {key : κ} : last l key = none ↔ ∀ b, (key, b) ∉ l := by
  rw [← Option.not_isSome_iff_eq_none, last_isSome]
  simp

/-- A binding is the first one of its key if no key comes twice but some that
it is not among. -/
theorem first_of_pairwise {P : κ → Prop} {l : List (κ × β)} {b : κ × β}
    (h : l.Pairwise fun x y => x.1 = y.1 → P x.1) (hb : b ∈ l) (hP : ¬P b.1) :
    first l b.1 = some b.2 := by
  induction l with
  | nil => cases hb
  | cons x l ih =>
    obtain ⟨hx, hl⟩ := List.pairwise_cons.mp h
    rw [first_cons]
    obtain rfl | hb := List.mem_cons.mp hb
    · simp
    · have hne : x.1 ≠ b.1 := fun hkey => hP (hkey ▸ hx b hb hkey)
      rw [if_neg hne, ih hl hb]

/-- What is bound to a key is mapped, each with its key. -/
theorem first_map_at (g : κ → β → γ) (l : List (κ × β)) (key : κ) :
    first (l.map fun b => (b.1, g b.1 b.2)) key = (first l key).map (g key) := by
  induction l with
  | nil => rfl
  | cons b l ih =>
    rw [List.map_cons, first_cons, first_cons, ih]
    by_cases h : b.1 = key
    · simp [h]
    · simp [h]

theorem last_map_at (g : κ → β → γ) (l : List (κ × β)) (key : κ) :
    last (l.map fun b => (b.1, g b.1 b.2)) key = (last l key).map (g key) := by
  rw [last, ← List.map_reverse, first_map_at, last]

theorem last_map (f : β → γ) (l : List (κ × β)) (key : κ) :
    last (l.map fun b => (b.1, f b.2)) key = (last l key).map f :=
  last_map_at (fun _ => f) l key

/-- Keys that are renamed one to one. -/
theorem first_map_key {f : κ → κ} (hf : Function.Injective f) (g : β → γ) (l : List (κ × β))
    (key : κ) : first (l.map fun b => (f b.1, g b.2)) (f key) = (first l key).map g := by
  induction l with
  | nil => rfl
  | cons b l ih =>
    by_cases h : b.1 = key <;> simp [first_cons, h, hf.eq_iff, ih]

theorem last_map_key {f : κ → κ} (hf : Function.Injective f) (g : β → γ) (l : List (κ × β))
    (key : κ) : last (l.map fun b => (f b.1, g b.2)) (f key) = (last l key).map g := by
  rw [last, ← List.map_reverse, first_map_key hf, last]

/-- The first binding of a key is still the first among those like it. -/
theorem first_filter {q : β → Bool} {l : List (κ × β)} {key : κ} {b : β}
    (h : first l key = some b) (hb : q b = true) :
    first (l.filter fun x => q x.2) key = some b := by
  induction l with
  | nil => cases h
  | cons x l ih =>
    rw [first_cons] at h
    by_cases hkey : x.1 = key
    · rw [if_pos hkey] at h
      cases h
      rw [List.filter_cons, if_pos hb, first_cons, if_pos hkey]
    · rw [if_neg hkey] at h
      rw [List.filter_cons]
      split
      · rw [first_cons, if_neg hkey, ih h]
      · exact ih h

theorem last_filter {q : β → Bool} {l : List (κ × β)} {key : κ} {b : β}
    (h : last l key = some b) (hb : q b = true) :
    last (l.filter fun x => q x.2) key = some b := by
  rw [last, ← List.filter_reverse]
  exact first_filter h hb

/-! ## Writing -/

@[simp] theorem putAll_nil (v : κ → Option β) : putAll v [] = v := rfl

@[simp] theorem putAll_cons (v : κ → Option β) (b : κ × β) (rest : List (κ × β)) :
    putAll v (b :: rest) = putAll (put v b) rest := rfl

/-- The last binding wins. -/
theorem putAll_apply (v : κ → Option β) (bindings : List (κ × β)) (key : κ) :
    putAll v bindings key = (last bindings key).or (v key) := by
  induction bindings generalizing v with
  | nil => simp
  | cons b rest ih =>
    rw [putAll_cons, ih, last_cons, Option.or_assoc]
    by_cases h : b.1 = key
    · simp [put, h]
    · simp [put, h, Ne.symm h]

/-- What is there wins, and then the first binding. -/
theorem putAll_unbound (v : κ → Option β) (bindings : List (κ × β)) (key : κ) :
    putAll v (unbound v bindings) key = (v key).or (first bindings key) := by
  induction bindings generalizing v with
  | nil => simp [unbound]
  | cons b rest ih =>
    rw [unbound, first_cons]
    split
    · rename_i hbound
      rw [ih]
      by_cases h : b.1 = key
      · obtain ⟨x, hx⟩ := Option.isSome_iff_exists.mp (h ▸ hbound)
        simp [hx]
      · simp [h]
    · rename_i hfree
      rw [putAll_cons, ih]
      by_cases h : b.1 = key
      · have hnone : v key = none := by simpa [h] using hfree
        simp [put, h, hnone]
      · simp [put, h, Ne.symm h]

theorem mem_of_mem_unbound {v : κ → Option β} {bindings : List (κ × β)} {b : κ × β}
    (h : b ∈ unbound v bindings) : b ∈ bindings := by
  induction bindings generalizing v with
  | nil => exact h
  | cons x rest ih =>
    rw [unbound] at h
    split at h
    · exact .tail _ (ih h)
    · obtain rfl | h := List.mem_cons.mp h
      · exact .head _
      · exact .tail _ (ih h)

/-- A binding is left if its key is not bound and it is the first of its key. -/
theorem mem_unbound {v : κ → Option β} {bindings : List (κ × β)} {key : κ} {b : β} :
    (key, b) ∈ unbound v bindings ↔ v key = none ∧ first bindings key = some b := by
  induction bindings generalizing v with
  | nil => simp [unbound]
  | cons x rest ih =>
    rw [unbound, first_cons]
    split
    · rename_i hbound
      rw [ih]
      by_cases h : x.1 = key
      · obtain ⟨y, hy⟩ := Option.isSome_iff_exists.mp (h ▸ hbound)
        simp [hy]
      · simp [h]
    · rename_i hfree
      rw [List.mem_cons, ih]
      by_cases h : x.1 = key
      · have hnone : v key = none := by simpa [h] using hfree
        simp [put, h, hnone, Prod.ext_iff, eq_comm]
      · have hne : (key, b) ≠ x := fun heq => h (by rw [← heq])
        simp [put, h, Ne.symm h, hne]

/-- Only keys of `v` are passed over, if no key comes twice but those. -/
theorem passed_isSome_iff {u v : κ → Option β} {bindings : List (κ × β)} :
    (∀ b ∈ passed u bindings, (v b.1).isSome = true) ↔
      (∀ b ∈ bindings, (u b.1).isSome = true → (v b.1).isSome = true) ∧
        bindings.Pairwise fun b b' => b.1 = b'.1 → (v b.1).isSome = true := by
  induction bindings generalizing u with
  | nil => simp [passed]
  | cons b rest ih =>
    rw [passed, List.forall_mem_cons, List.pairwise_cons]
    split
    · rename_i hbound
      rw [List.forall_mem_cons, ih]
      constructor
      · rintro ⟨hb, hrest, hpairs⟩
        exact ⟨⟨fun _ => hb, hrest⟩, fun _ _ _ => hb, hpairs⟩
      · rintro ⟨⟨hb, hrest⟩, -, hpairs⟩
        exact ⟨hb hbound, hrest, hpairs⟩
    · rename_i hfree
      rw [ih]
      constructor
      · rintro ⟨hrest, hpairs⟩
        refine ⟨⟨fun hbound => absurd hbound hfree, fun b' hb' hbound => hrest b' hb' ?_⟩,
          fun b' hb' hkey => ?_, hpairs⟩
        · by_cases hkey : b'.1 = b.1
          · simp [put, hkey]
          · rwa [put_of_ne _ _ hkey]
        · rw [hkey]
          exact hrest b' hb' (by simp [put, hkey])
      · rintro ⟨⟨-, hrest⟩, hfirst, hpairs⟩
        refine ⟨fun b' hb' hbound => ?_, hpairs⟩
        by_cases hkey : b'.1 = b.1
        · rw [hkey]
          exact hfirst b' hb' hkey.symm
        · rw [put_of_ne _ _ hkey] at hbound
          exact hrest b' hb' hbound

@[simp] theorem taken_nil (force : Bool) (v : κ → Option β) :
    taken force v ([] : List (κ × β)) = [] := by
  cases force <;> rfl

theorem taken_of_bound {v : κ → Option β} {b : κ × β} (h : (v b.1).isSome = true)
    (rest : List (κ × β)) : taken false v (b :: rest) = taken false v rest := by
  simp [taken, unbound, h]

theorem taken_cons {force : Bool} {v : κ → Option β} {b : κ × β}
    (h : ¬((v b.1).isSome = true ∧ (!force) = true)) (rest : List (κ × β)) :
    taken force v (b :: rest) = b :: taken force (put v b) rest := by
  cases force with
  | true => rfl
  | false => simp_all [taken, unbound]

theorem taken_append (force : Bool) (v : κ → Option β) (l l' : List (κ × β)) :
    taken force v (l ++ l') = taken force v l ++ taken force (putAll v (taken force v l)) l' := by
  induction l generalizing v with
  | nil => simp
  | cons b l ih =>
    by_cases h : (v b.1).isSome = true ∧ (!force) = true
    · obtain ⟨hbound, rfl⟩ : (v b.1).isSome = true ∧ force = false := by simpa using h
      rw [List.cons_append, taken_of_bound hbound, taken_of_bound hbound, ih]
    · rw [List.cons_append, taken_cons h, taken_cons h, ih, putAll_cons, List.cons_append]

theorem mem_of_mem_taken {force : Bool} {v : κ → Option β} {bindings : List (κ × β)} {b : κ × β}
    (h : b ∈ taken force v bindings) : b ∈ bindings := by
  cases force with
  | true => exact h
  | false => exact mem_of_mem_unbound h

/-- What writing the bindings that are taken leaves under a key. -/
theorem putAll_taken (force : Bool) (v : κ → Option β) (bindings : List (κ × β)) (key : κ) :
    putAll v (taken force v bindings) key =
      if force then (last bindings key).or (v key) else (v key).or (first bindings key) := by
  cases force with
  | true => exact putAll_apply v bindings key
  | false => exact putAll_unbound v bindings key

/-- A binding is taken if it is any, or the first of a key that is not bound. -/
theorem mem_taken {force : Bool} {v : κ → Option β} {bindings : List (κ × β)} {key : κ} {b : β} :
    (key, b) ∈ taken force v bindings ↔ if force then (key, b) ∈ bindings
      else v key = none ∧ first bindings key = some b := by
  cases force with
  | true => rfl
  | false => exact mem_unbound

/-! ## Elements with bindings -/

variable {α : Type}

/-- The elements of a list whose bindings are written. -/
def takers (item : α → Option (κ × β)) (force : Bool) : (κ → Option β) → List α → List α
  | _, [] => []
  | v, a :: rest =>
    match item a with
    | none => takers item force v rest
    | some b =>
      if (v b.1).isSome ∧ !force then takers item force v rest
      else a :: takers item force (put v b) rest

section Takers

variable {item : α → Option (κ × β)} {force : Bool} {v : κ → Option β}

theorem takers_cons_none {a : α} (h : item a = none) (rest : List α) :
    takers item force v (a :: rest) = takers item force v rest := by
  simp only [takers, h]

theorem takers_cons_some {a : α} {b : κ × β} (h : item a = some b) (rest : List α) :
    takers item force v (a :: rest) =
      if (v b.1).isSome ∧ !force then takers item force v rest
      else a :: takers item force (put v b) rest := by
  simp only [takers, h]

theorem takers_filterMap (l : List α) :
    (takers item force v l).filterMap item = taken force v (l.filterMap item) := by
  induction l generalizing v with
  | nil => simp [takers]
  | cons a rest ih =>
    cases hitem : item a with
    | none => rw [takers_cons_none hitem, List.filterMap_cons_none hitem, ih]
    | some b =>
      rw [takers_cons_some hitem, List.filterMap_cons_some hitem]
      split
      · rename_i hskip
        obtain ⟨hbound, rfl⟩ : (v b.1).isSome = true ∧ force = false := by simpa using hskip
        rw [ih, taken_of_bound hbound]
      · rename_i hfree
        rw [List.filterMap_cons_some hitem, ih, taken_cons hfree]

theorem takers_append (l l' : List α) : takers item force v (l ++ l') =
    takers item force v l ++
      takers item force (putAll v (taken force v (l.filterMap item))) l' := by
  induction l generalizing v with
  | nil => simp [takers]
  | cons a rest ih =>
    cases hitem : item a with
    | none =>
      rw [List.cons_append, takers_cons_none hitem, takers_cons_none hitem,
        List.filterMap_cons_none hitem, ih]
    | some b =>
      rw [List.cons_append, takers_cons_some hitem, takers_cons_some hitem,
        List.filterMap_cons_some hitem]
      split
      · rename_i hskip
        obtain ⟨hbound, rfl⟩ : (v b.1).isSome = true ∧ force = false := by simpa using hskip
        rw [ih, taken_of_bound hbound]
      · rename_i hfree
        rw [ih, taken_cons hfree, putAll_cons, List.cons_append]

theorem takers_congr {item' : α → Option (κ × β)} {l : List α} (h : ∀ a ∈ l, item' a = item a) :
    takers item' force v l = takers item force v l := by
  induction l generalizing v with
  | nil => rfl
  | cons a rest ih =>
    obtain ⟨ha, hrest⟩ := List.forall_mem_cons.mp h
    simp only [takers, ha, ih hrest]

theorem takers_sublist (l : List α) : (takers item force v l).Sublist l := by
  induction l generalizing v with
  | nil => exact .slnil
  | cons a rest ih =>
    unfold takers
    split
    · exact ih.cons a
    · split
      · exact ih.cons a
      · exact ih.cons_cons a

theorem item_of_mem_takers {l : List α} {a : α} (h : a ∈ takers item force v l) :
    ∃ b, item a = some b := by
  induction l generalizing v with
  | nil => cases h
  | cons x rest ih =>
    cases hitem : item x with
    | none =>
      rw [takers_cons_none hitem] at h
      exact ih h
    | some b =>
      rw [takers_cons_some hitem] at h
      split at h
      · exact ih h
      · obtain rfl | h := List.mem_cons.mp h
        · exact ⟨b, hitem⟩
        · exact ih h

/-- There are such elements where there are bindings to write. -/
theorem takers_eq_nil {l : List α} :
    takers item force v l = [] ↔ taken force v (l.filterMap item) = [] := by
  rw [← takers_filterMap, List.filterMap_eq_nil_iff]
  constructor
  · intro h
    simp [h]
  · intro h
    refine List.eq_nil_iff_forall_not_mem.mpr fun a ha => ?_
    obtain ⟨b, hb⟩ := item_of_mem_takers ha
    rw [h a ha] at hb
    cases hb

/-- An element before another one in a list. -/
theorem pair_sublist_cons {x g a : α} {rest : List α} :
    [g, a].Sublist (x :: rest) ↔ [g, a].Sublist rest ∨ g = x ∧ a ∈ rest := by
  rw [List.sublist_cons_iff]
  simp [eq_comm]

/-- The binding of an element is written if it is forced, or its key is not
bound and no element before has a binding for it. -/
theorem mem_takers {l : List α} (hl : l.Nodup) {a : α} {b : κ × β} (hitem : item a = some b) :
    a ∈ takers item force v l ↔ a ∈ l ∧ (force = false → v b.1 = none ∧
      ∀ g, [g, a].Sublist l → ∀ c, item g = some c → c.1 ≠ b.1) := by
  induction l generalizing v with
  | nil => simp [takers]
  | cons x rest ih =>
    obtain ⟨hx, hrest⟩ := List.nodup_cons.mp hl
    by_cases hax : a = x
    · -- The element itself, and none before it.
      subst hax
      have hnone : ∀ g, ¬[g, a].Sublist (a :: rest) := by
        intro g hg
        obtain hg | ⟨-, hg⟩ := pair_sublist_cons.mp hg
        · exact hx (hg.subset (by simp))
        · exact hx hg
      rw [takers_cons_some hitem]
      split
      · rename_i hskip
        obtain ⟨hbound, rfl⟩ : (v b.1).isSome = true ∧ force = false := by simpa using hskip
        constructor
        · exact fun h => absurd ((takers_sublist rest).subset h) hx
        · intro h
          rw [(h.2 rfl).1] at hbound
          cases hbound
      · rename_i hfree
        refine iff_of_true List.mem_cons_self ⟨List.mem_cons_self, ?_⟩
        rintro rfl
        exact ⟨by simpa using hfree, fun g hg => absurd hg (hnone g)⟩
    · rw [List.mem_cons, or_iff_right hax]
      cases hx' : item x with
      | none =>
        rw [takers_cons_none hx', ih hrest]
        simp only [pair_sublist_cons]
        refine and_congr_right fun _ => imp_congr_right fun _ => and_congr_right fun _ => ?_
        constructor
        · rintro h g (hg | ⟨rfl, -⟩) c hc
          · exact h g hg c hc
          · rw [hx'] at hc
            cases hc
        · exact fun h g hg => h g (.inl hg)
      | some d =>
        rw [takers_cons_some hx']
        split
        · rename_i hskip
          obtain ⟨hbound, rfl⟩ : (v d.1).isSome = true ∧ force = false := by simpa using hskip
          rw [ih hrest]
          simp only [pair_sublist_cons, forall_const]
          refine and_congr_right fun _ => and_congr_right fun hnone => ?_
          constructor
          · rintro h g (hg | ⟨rfl, -⟩) c hc
            · exact h g hg c hc
            · rw [hx'] at hc
              cases hc
              rintro heq
              rw [heq, hnone] at hbound
              cases hbound
          · exact fun h g hg => h g (.inl hg)
        · rw [List.mem_cons, or_iff_right hax, ih hrest]
          simp only [pair_sublist_cons]
          refine and_congr_right fun ha => imp_congr_right fun _ => ?_
          constructor
          · rintro ⟨hnone, h⟩
            have hne : b.1 ≠ d.1 := by
              rintro heq
              simp [put, heq] at hnone
            refine ⟨by rwa [put_of_ne _ _ hne] at hnone, ?_⟩
            rintro g (hg | ⟨rfl, -⟩) c hc
            · exact h g hg c hc
            · rw [hx'] at hc
              cases hc
              exact hne.symm
          · rintro ⟨hnone, h⟩
            have hne : b.1 ≠ d.1 := (h x (.inr ⟨rfl, ha⟩) d hx').symm
            exact ⟨by rwa [put_of_ne _ _ hne], fun g hg => h g (.inl hg)⟩

end Takers

/-! ## Agreement -/

/-- No key is bound to two different things. -/
def Agree (bindings : List (κ × β)) : Prop :=
  ∀ b ∈ bindings, ∀ b' ∈ bindings, b.1 = b'.1 → b.2 = b'.2

instance [DecidableEq β] (bindings : List (κ × β)) : Decidable (Agree bindings) :=
  inferInstanceAs (Decidable (∀ b ∈ bindings, ∀ b' ∈ bindings, b.1 = b'.1 → b.2 = b'.2))

theorem agree_iff {bindings : List (κ × β)} :
    Agree bindings ↔ ∀ b ∈ bindings, last bindings b.1 = some b.2 := by
  constructor
  · intro h b hb
    obtain ⟨x, hx⟩ := Option.isSome_iff_exists.mp (last_isSome.mpr ⟨b.2, hb⟩)
    rw [hx, h b hb _ (last_eq_some_mem hx) rfl]
  · intro h b hb b' hb' hkey
    have hlast := h b hb
    rw [hkey, h b' hb'] at hlast
    exact (Option.some.inj hlast).symm

omit [DecidableEq κ] in
theorem agree_iff_pairwise {l : List (κ × β)} :
    Agree l ↔ l.Pairwise fun b b' => b.1 = b'.1 → b.2 = b'.2 := by
  constructor
  · exact fun h => List.pairwise_of_forall_mem_list h
  · intro h
    have hflip : l.Pairwise (flip fun b b' => b.1 = b'.1 → b.2 = b'.2) :=
      h.imp fun hb hkey => (hb hkey.symm).symm
    exact List.Pairwise.forall_of_forall_of_flip (fun _ _ _ => rfl) h hflip

omit [DecidableEq κ] in
/-- Keys that are renamed one to one, and values too. -/
theorem agree_map_key {f : κ → κ} (hf : Function.Injective f) {g : β → γ}
    (hg : Function.Injective g) {l : List (κ × β)} :
    Agree (l.map fun b => (f b.1, g b.2)) ↔ Agree l := by
  constructor
  · intro h b hb b' hb' hkey
    exact hg (h _ (List.mem_map_of_mem hb) _ (List.mem_map_of_mem hb') (congrArg f hkey))
  · intro h b hb b' hb' hkey
    obtain ⟨x, hx, rfl⟩ := List.mem_map.mp hb
    obtain ⟨x', hx', rfl⟩ := List.mem_map.mp hb'
    exact congrArg g (h x hx x' hx' (hf hkey))

omit [DecidableEq κ] in
theorem Agree.map {l : List (κ × β)} (h : Agree l) (g : β → γ) :
    Agree (l.map fun b => (b.1, g b.2)) := by
  intro b hb b' hb' hkey
  obtain ⟨x, hx, rfl⟩ := List.mem_map.mp hb
  obtain ⟨x', hx', rfl⟩ := List.mem_map.mp hb'
  exact congrArg g (h x hx x' hx' hkey)

/-- What is taken agrees unless it is forced. -/
theorem agree_taken_false (v : κ → Option β) (bindings : List (κ × β)) :
    Agree (taken false v bindings) := by
  intro b hb b' hb' hkey
  obtain ⟨-, hfirst⟩ := mem_unbound.mp hb
  obtain ⟨-, hfirst'⟩ := mem_unbound.mp hb'
  rw [hkey, hfirst'] at hfirst
  exact (Option.some.inj hfirst).symm

/-! ## Maps -/

section Maps

variable [Ord κ] [Std.TransOrd κ] [Std.LawfulEqOrd κ]

/-- Bindings that are inserted one after the other: the last one wins. -/
theorem getElem?_foldl_insert (bindings : List (κ × β)) (t : Std.ExtTreeMap κ β compare)
    (key : κ) :
    (bindings.foldl (fun t b => t.insert b.1 b.2) t)[key]? = (last bindings key).or t[key]? := by
  induction bindings generalizing t with
  | nil => simp
  | cons b rest ih =>
    rw [List.foldl_cons, ih, last_cons, Std.ExtTreeMap.getElem?_insert, Option.or_assoc]
    by_cases h : b.1 = key <;> simp [h]

/-- The listing of a map has one binding for each key. -/
theorem first_toList (t : Std.ExtTreeMap κ β compare) (key : κ) :
    first t.toList key = t[key]? := by
  cases hget : t[key]? with
  | none =>
    refine first_eq_none.mpr fun b hb => ?_
    rw [Std.ExtTreeMap.mem_toList_iff_getElem?_eq_some.mp hb] at hget
    cases hget
  | some b =>
    have hmem : (key, b) ∈ t.toList := Std.ExtTreeMap.mem_toList_iff_getElem?_eq_some.mpr hget
    have hpairs : t.toList.Pairwise fun x y => x.1 = y.1 → False := by
      refine Std.ExtTreeMap.distinct_keys_toList.imp fun hne heq => hne ?_
      rw [heq]
      exact Std.ReflCmp.compare_self
    exact first_of_pairwise (P := fun _ => False) hpairs hmem not_false

end Maps

example : unbound (fun k => if k = 'a' then some 0 else none) [('a', 1), ('b', 2), ('b', 3)] =
    [('b', 2)] := by decide

end HearthVault.Bindings
