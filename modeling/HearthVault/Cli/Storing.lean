/-
HearthVault.Cli.Storing — what the loops that store values leave in the vault.

A `view` is what a body holds under each key, the value and the tier; a
timestamp is no part of it. The loops of `set`, `import-env` and `receive`
write a list of bindings into it (`Storing`), and change nothing else.

A loop is followed in two lists at once: the one it runs over, and the
bindings that are taken from it over the view as it stands (`taken`). Each
`_eq_ok` lemma is an induction on the first, whose step puts one binding in
front of the second or passes over it; `Storing.trans` composes them.
-/
import HearthVault.Cli.BodyInvariants
import HearthVault.Lib.Bindings

namespace HearthVault

open Files Symbolic Calendar Bindings

/-! ## Views -/

/-- The value and the tier of a key. -/
def VaultBody.view (body : VaultBody) (key : Str) : Option (Str × UInt8) :=
  body[key]?.map fun e => (e.value, e.tier)

theorem VaultBody.isSome_view (body : VaultBody) (key : Str) :
    (body.view key).isSome = body.has key := by
  simp [view, has]

/-- `get` reads the value off the view. -/
theorem VaultBody.value?_eq_view (body : VaultBody) (key : Str) :
    body.value? key = (body.view key).map Prod.fst := by
  simp [view, value?, Function.comp_def]

/-- `tier_of` reads the tier off it. -/
theorem VaultBody.tierOf_eq_view (body : VaultBody) (key : Str) :
    body.tierOf key = (body.view key).map Prod.snd := by
  simp [view, tierOf, Function.comp_def]

/-- An entry that is put into a body is a binding put into its view. -/
theorem VaultBody.view_insert (body : VaultBody) (key : Str) (entry : BodyEntry) :
    VaultBody.view (body.insert key entry) = put body.view (key, entry.value, entry.tier) := by
  funext k
  by_cases h : key = k
  · simp [view, put, h]
  · simp [view, put, Std.ExtTreeMap.getElem?_insert, h, Ne.symm h]

theorem mem_entriesWithPrefix {body : VaultBody} {pre key value : Str} {tier : UInt8}
    (h : (key, value, tier) ∈ body.entriesWithPrefix pre) : body.view key = some (value, tier) := by
  obtain ⟨⟨k, e⟩, hmem, heq⟩ := List.mem_map.mp h
  cases heq
  have hget := Std.ExtTreeMap.mem_toList_iff_getElem?_eq_some.mp (List.mem_filter.mp hmem).1
  simp [VaultBody.view, hget]

/-- A change in place of an entry that keeps its value and tier. -/
theorem view_modifyEntry {key : Str} {f : BodyEntry → Result BodyEntry} {body body' : VaultBody}
    (hf : ∀ old new, f old = .ok new → new.value = old.value ∧ new.tier = old.tier)
    (h : modifyEntry key f body = .ok body') : body'.view = body.view := by
  obtain ⟨old, new, hold, hnew, rfl⟩ := modifyEntry_eq_ok h
  obtain ⟨hvalue, htier⟩ := hf old new hnew
  rw [VaultBody.view_insert, hvalue, htier]
  funext k
  by_cases hk : key = k
  · simp [put, VaultBody.view, ← hk, hold]
  · simp [put, Ne.symm hk]

/-- `set` binds the key to the value and the tier, and nothing else. -/
theorem view_setEntry {now : DateTime} {key value : Str} {tier : UInt8} {body body' : VaultBody}
    (h : setEntry now key value tier body = .ok body') :
    body'.view = put body.view (key, value, tier) := by
  obtain ⟨-, entry, hentry, rfl⟩ := setEntry_eq_ok h
  obtain ⟨rfl, rfl⟩ := storedEntry_eq_ok hentry
  exact VaultBody.view_insert body key entry

/-! ## Storing -/

/-- Bindings have been stored, in order, and nothing else of the store has
changed. -/
structure Storing (store : VaultStore) (items : List (Str × Str × UInt8)) (store' : VaultStore) :
    Prop where
  others : store' = { store with body := store'.body }
  view : store'.body.view = putAll store.body.view items
  tiers : ∀ i ∈ items, TierInRange i.2.2

namespace Storing

variable {store store' store'' : VaultStore} {items items' : List (Str × Str × UInt8)}

theorem refl (store : VaultStore) : Storing store [] store :=
  ⟨rfl, rfl, nofun⟩

/-- Two loops in a row write their bindings in a row. -/
theorem trans (h : Storing store items store') (h' : Storing store' items' store'') :
    Storing store (items ++ items') store'' := by
  refine ⟨?_, ?_, fun i hi => ?_⟩
  · rw [h'.others, h.others]
  · rw [h'.view, h.view]
    simp [putAll]
  · obtain hi | hi := List.mem_append.mp hi
    · exact h.tiers i hi
    · exact h'.tiers i hi

/-- The first of several bindings. -/
theorem cons {i : Str × Str × UInt8} (h : Storing store [i] store')
    (h' : Storing store' items' store'') : Storing store (i :: items') store'' :=
  h.trans h'

theorem path (h : Storing store items store') : store'.path = store.path := by
  rw [h.others]

theorem of_view (hothers : store' = { store with body := store'.body })
    (hview : store'.body.view = store.body.view) : Storing store [] store' :=
  ⟨hothers, hview, nofun⟩

/-- What a loop that stores leaves was there, or is stored by it. -/
theorem view_eq_some (h : Storing store items store') {key value : Str} {tier : UInt8}
    (hview : store'.body.view key = some (value, tier)) :
    store.body.view key = some (value, tier) ∨ (key, value, tier) ∈ items := by
  rw [h.view, putAll_apply] at hview
  cases hlast : last items key with
  | none =>
    rw [hlast] at hview
    exact .inl hview
  | some b =>
    rw [hlast] at hview
    cases hview
    exact .inr (last_eq_some_mem hlast)

end Storing

/-- The keys and values of bindings. -/
def keyValues (items : List (Str × Str × UInt8)) : List (Str × Str) :=
  items.map fun i => (i.1, i.2.1)

/-- Under a key that was stored is the last value stored there. -/
theorem Storing.value?_eq_last {store store' : VaultStore} {items : List (Str × Str × UInt8)}
    (h : Storing store items store') {p : Str × Str} (hp : p ∈ keyValues items) :
    store'.body.value? p.1 = last (keyValues items) p.1 := by
  have hsome : (last (keyValues items) p.1).isSome = true := last_isSome.mpr ⟨p.2, hp⟩
  have hlast : last (keyValues items) p.1 = (last items p.1).map Prod.fst :=
    last_map Prod.fst items p.1
  rw [VaultBody.value?_eq_view, h.view, putAll_apply, hlast]
  rw [hlast, Option.isSome_map] at hsome
  obtain ⟨x, hx⟩ := Option.isSome_iff_exists.mp hsome
  rw [hx]
  rfl

/-- Only time has passed. -/
def OnlyTime (w w' : Disk) : Prop :=
  w' = { w with ticks := w'.ticks }

theorem OnlyTime.refl (w : Disk) : OnlyTime w w := rfl

theorem OnlyTime.trans {w w' w'' : Disk} (h : OnlyTime w w') (h' : OnlyTime w' w'') :
    OnlyTime w w'' := by
  rw [OnlyTime, h', h]

theorem OnlyTime.fs {w w' : Disk} (h : OnlyTime w w') : w'.fs = w.fs := by
  rw [h]

section Loops

variable {m : Machine} {w w' : Disk} {store store' : VaultStore}

/-- A body operation leaves the path, the keys and the lock of the store. -/
theorem onBody_others {f : VaultBody → Result VaultBody} (h : store.onBody f = .ok store') :
    store' = { store with body := store'.body } := by
  simp only [VaultStore.onBody, result_bind_eq_ok] at h
  obtain ⟨body, -, h⟩ := h
  cases h
  rfl

/-- A change of the body at the present time. -/
theorem onBodyNow_eq_ok {f : DateTime → VaultBody → Result VaultBody}
    (h : (do let now ← Fx.now; Fx.ofResult (store.onBody (f now)) : Prog VaultStore).run m w =
      (.ok store', w')) :
    OnlyTime w w' ∧ store' = { store with body := store'.body } ∧
      ∃ now, f now store.body = .ok store'.body := by
  obtain ⟨now, w₁, hnow, hrest⟩ := Fx.bind_eq_ok.mp h
  cases hnow
  obtain ⟨hbody, rfl⟩ := Fx.ofResult_eq_ok.mp hrest
  exact ⟨rfl, onBody_others hbody, _, (VaultStore.onBody_eq_ok hbody).2⟩

/-- Where `set` succeeds it has stored one binding. -/
theorem set_eq_ok {key value : Str} {tier : UInt8}
    (h : (store.set key value tier).run m w = (.ok store', w')) :
    Storing store [(key, value, tier)] store' ∧ OnlyTime w w' := by
  obtain ⟨htime, hothers, now, hset⟩ := onBodyNow_eq_ok h
  obtain ⟨htier, -⟩ := setEntry_eq_ok hset
  refine ⟨⟨hothers, view_setEntry hset, ?_⟩, htime⟩
  rintro i hi
  rw [List.mem_singleton.mp hi]
  exact htier

/-! ### import-env -/

/-- The bindings of the pairs that have a value. -/
def importItems (pre : Str) (tier : UInt8) (pairs : List (Str × Str)) :
    List (Str × Str × UInt8) :=
  (pairs.filter fun p => p.2 ≠ []).map fun p => (pre ++ p.1, p.2, tier)

/-- A pair is passed over when it has no value, or its key is there already. -/
abbrev Skipped (force : Bool) (body : VaultBody) (key value : Str) : Prop :=
  value = [] ∨ (body.has key = true ∧ (!force) = true)

/-- An assignment that the loop skips is one that is not taken. -/
theorem taken_importItems_skip {pre name value : Str} {tier : UInt8} {force : Bool}
    {body : VaultBody} (h : Skipped force body (pre ++ name) value) (rest : List (Str × Str)) :
    taken force body.view (importItems pre tier ((name, value) :: rest)) =
      taken force body.view (importItems pre tier rest) := by
  by_cases hvalue : value = []
  · simp [importItems, hvalue]
  · obtain ⟨hhas, rfl⟩ : body.has (pre ++ name) = true ∧ force = false := by
      simpa [Skipped, hvalue] using h
    have hitems : importItems pre tier ((name, value) :: rest) =
        (pre ++ name, value, tier) :: importItems pre tier rest := by
      simp [importItems, hvalue]
    rw [hitems, taken_of_bound (by rw [VaultBody.isSome_view, hhas])]

/-- An assignment that it stores is taken, and the rest is taken over it. -/
theorem taken_importItems_cons {pre name value : Str} {tier : UInt8} {force : Bool}
    {body : VaultBody} (h : ¬Skipped force body (pre ++ name) value) (rest : List (Str × Str)) :
    taken force body.view (importItems pre tier ((name, value) :: rest)) =
      (pre ++ name, value, tier) ::
        taken force (put body.view (pre ++ name, value, tier)) (importItems pre tier rest) := by
  obtain ⟨hvalue, hnew⟩ := not_or.mp h
  have hitems : importItems pre tier ((name, value) :: rest) =
      (pre ++ name, value, tier) :: importItems pre tier rest := by
    simp [importItems, hvalue]
  rw [hitems, taken_cons (by rwa [VaultBody.isSome_view])]

/-- The loop of `import-env` stores what is taken, and answers it. -/
theorem importPairs_eq_ok {pre : Str} {tier : UInt8} {force : Bool}
    {pairs expected : List (Str × Str)}
    (h : (importPairs pre tier force pairs store).run m w = (.ok (store', expected), w')) :
    Storing store (taken force store.body.view (importItems pre tier pairs)) store' ∧
      expected = keyValues (taken force store.body.view (importItems pre tier pairs)) ∧
      OnlyTime w w' := by
  induction pairs generalizing store w expected with
  | nil =>
    cases h
    cases force <;> exact ⟨.refl _, rfl, rfl⟩
  | cons pair rest ih =>
    obtain ⟨name, value⟩ := pair
    unfold importPairs at h
    dsimp only at h
    by_cases hskip : Skipped force store.body (pre ++ name) value
    · rw [taken_importItems_skip hskip]
      rw [if_pos hskip] at h
      exact ih h
    · rw [if_neg hskip] at h
      obtain ⟨store₁, w₁, hset, h⟩ := Fx.bind_eq_ok.mp h
      obtain ⟨⟨store₂, expected₂⟩, w₂, hrest, h⟩ := Fx.bind_eq_ok.mp h
      cases h
      obtain ⟨hfirst, htime₁⟩ := set_eq_ok hset
      obtain ⟨hstoring, rfl, htime₂⟩ := ih hrest
      rw [taken_importItems_cons hskip, ← putAll_nil (put _ _), ← putAll_cons, ← hfirst.view]
      exact ⟨hfirst.cons hstoring, rfl, htime₁.trans htime₂⟩

/-! ### receive -/

/-- The bindings of the entries of a bundle. -/
def receivedItems (pre : Option Str) (entries : List SharedEntry) : List (Str × Str × UInt8) :=
  entries.map fun e => (receivedName pre e.key, e.value, e.tier)

/-- So does the loop of `receive`. -/
theorem receiveAll_eq_ok {pre : Option Str} {force : Bool} {entries : List SharedEntry}
    {stored : List (Str × Str)}
    (h : (receiveAll pre force entries store).run m w = (.ok (store', stored), w')) :
    Storing store (taken force store.body.view (receivedItems pre entries)) store' ∧
      stored = keyValues (taken force store.body.view (receivedItems pre entries)) ∧
      OnlyTime w w' := by
  induction entries generalizing store w stored with
  | nil =>
    cases h
    cases force <;> exact ⟨.refl _, rfl, rfl⟩
  | cons entry rest ih =>
    unfold receiveAll at h
    dsimp only at h
    set key := receivedName pre entry.key with hkey
    have hitems : receivedItems pre (entry :: rest) =
        (key, entry.value, entry.tier) :: receivedItems pre rest := rfl
    rw [hitems]
    by_cases hskip : store.body.has key = true ∧ (!force) = true
    · rw [if_pos hskip] at h
      obtain ⟨hhas, rfl⟩ : store.body.has key = true ∧ force = false := by simpa using hskip
      rw [taken_of_bound (by rw [VaultBody.isSome_view, hhas])]
      exact ih h
    · rw [if_neg hskip] at h
      obtain ⟨store₁, w₁, hset, h⟩ := Fx.bind_eq_ok.mp h
      obtain ⟨⟨store₂, stored₂⟩, w₂, hrest, h⟩ := Fx.bind_eq_ok.mp h
      cases h
      obtain ⟨hfirst, htime₁⟩ := set_eq_ok hset
      obtain ⟨hstoring, rfl, htime₂⟩ := ih hrest
      rw [taken_cons (by rwa [VaultBody.isSome_view]), ← putAll_nil (put _ _), ← putAll_cons,
        ← hfirst.view]
      exact ⟨hfirst.cons hstoring, rfl, htime₁.trans htime₂⟩

/-- Where nothing was stored the store is the same. -/
theorem receiveAll_nil {pre : Option Str} {force : Bool} {entries : List SharedEntry}
    (h : (receiveAll pre force entries store).run m w = (.ok (store', []), w')) :
    store' = store := by
  induction entries generalizing w with
  | nil =>
    cases h
    rfl
  | cons entry rest ih =>
    unfold receiveAll at h
    dsimp only at h
    split at h
    · exact ih h
    · obtain ⟨store₁, w₁, -, h⟩ := Fx.bind_eq_ok.mp h
      obtain ⟨⟨store₂, stored₂⟩, w₂, -, h⟩ := Fx.bind_eq_ok.mp h
      cases h

/-! ### set -/

/-- The tier that `set` gives a key: an explicit one, its own, or the default. -/
def setTier (tier : Option UInt8) (v : Str → Option (Str × UInt8)) (key : Str) : UInt8 :=
  (tier.or ((v key).map Prod.snd)).getD tierUseOnly

def setItems (tier : Option UInt8) (v : Str → Option (Str × UInt8)) (pairs : List (Str × Str)) :
    List (Str × Str × UInt8) :=
  pairs.map fun p => (p.1, p.2, setTier tier v p.1)

/-- Setting one key does not change the tier of any. -/
theorem setTier_put (tier : Option UInt8) (v : Str → Option (Str × UInt8)) (key value : Str) :
    setTier tier (put v (key, value, setTier tier v key)) = setTier tier v := by
  funext k
  by_cases hk : k = key
  · cases tier <;> simp [setTier, hk]
  · simp [setTier, put_of_ne v _ hk]

/-- A policy changes no binding. -/
theorem applyRotation_eq_ok {days : Option UInt32} {key : Str}
    (h : (applyRotation days key store).run m w = (.ok store', w')) :
    Storing store [] store' ∧ OnlyTime w w' := by
  cases days with
  | none =>
    cases h
    exact ⟨.refl _, .refl _⟩
  | some days =>
    obtain ⟨htime, hothers, now, hrotate⟩ := onBodyNow_eq_ok h
    refine ⟨.of_view hothers (view_modifyEntry (fun old new hnew => ?_) hrotate), htime⟩
    simp only [result_bind_eq_ok] at hnew
    obtain ⟨due, -, hnew⟩ := hnew
    cases hnew
    exact ⟨rfl, rfl⟩

/-- Neither does a due date. -/
theorem applyExpiry_eq_ok {due : Option Str} {key : Str}
    (h : (applyExpiry due key store).run m w = (.ok store', w')) :
    Storing store [] store' ∧ OnlyTime w w' := by
  cases due with
  | none =>
    cases h
    exact ⟨.refl _, .refl _⟩
  | some due =>
    obtain ⟨hbody, rfl⟩ := Fx.ofResult_eq_ok.mp h
    refine ⟨.of_view (onBody_others hbody) ?_, .refl _⟩
    refine view_modifyEntry (fun old new hnew => ?_) (VaultStore.onBody_eq_ok hbody).2
    cases hnew
    exact ⟨rfl, rfl⟩

/-- The loop of `set` stores every pair, at tiers that can be told from the vault
at the start. -/
theorem setAll_eq_ok {tier : Option UInt8} {days : Option UInt32} {due : Option Str}
    {pairs : List (Str × Str)} (h : (setAll tier days due pairs store).run m w = (.ok store', w')) :
    Storing store (setItems tier store.body.view pairs) store' ∧ OnlyTime w w' := by
  induction pairs generalizing store w with
  | nil =>
    cases h
    exact ⟨.refl _, .refl _⟩
  | cons pair rest ih =>
    obtain ⟨key, value⟩ := pair
    obtain ⟨store₁, w₁, hset, h⟩ := Fx.bind_eq_ok.mp h
    obtain ⟨store₂, w₂, hrotate, h⟩ := Fx.bind_eq_ok.mp h
    obtain ⟨store₃, w₃, hexpire, h⟩ := Fx.bind_eq_ok.mp h
    obtain ⟨hfirst, htime₁⟩ := set_eq_ok hset
    obtain ⟨hsecond, htime₂⟩ := applyRotation_eq_ok hrotate
    obtain ⟨hthird, htime₃⟩ := applyExpiry_eq_ok hexpire
    obtain ⟨hrest, htime⟩ := ih h
    have htier : (tier.or (store.body.tierOf key)).getD tierUseOnly =
        setTier tier store.body.view key := by
      rw [setTier, VaultBody.tierOf_eq_view]
    have hone : Storing store [(key, value, setTier tier store.body.view key)] store₃ := by
      rw [htier] at hfirst
      exact (hfirst.trans hsecond).trans hthird
    have hview : setItems tier store₃.body.view rest = setItems tier store.body.view rest := by
      rw [hone.view, putAll_cons, putAll_nil]
      simp only [setItems, setTier_put]
    rw [hview] at hrest
    exact ⟨hone.cons hrest, ((htime₁.trans htime₂).trans htime₃).trans htime⟩

end Loops

end HearthVault
