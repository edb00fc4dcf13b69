/-
HearthVault.Cli.RotationTheorems — whether a new value of a key keeps the
key's tier.

`set` without `--tier` gives an existing key the tier it has. `import`,
`import-env` and `scan --adopt` have the default tier for every key that they
store, so they keep the tier of an existing key where that is the default.

`keepsTiers_iff` is the argument for the last three, for any program with the
ends of `Ends` and one tier for what it stores: a run that gets to save has
that tier under each key that it stored. `set` needs one direction only, since
it looks the tiers up that it stores at.
-/
import HearthVault.Cli.AllOrNothing

namespace HearthVault

open Files Symbolic Calendar Bindings

/-- Every key has the tier that it had. -/
def KeepsTiers {α : Type} (path : Path) (w : Disk) (x : Prog α) : Prop :=
  ∀ m, m.Faultless → ∀ body body', Entries (w.fs path) body →
    Entries ((x.run m w).2.fs path) body' → ∀ key tier, body.tierOf key = some tier →
      body'.tierOf key = some tier

/-- What is stored under an existing key is stored at the key's tier. -/
def AtTiers (body : VaultBody) (items : List (Str × Str × UInt8)) : Prop :=
  ∀ i ∈ items, ∀ tier, body.tierOf i.1 = some tier → i.2.2 = tier

section

variable {α : Type} {path : Path} {w w' : Disk} {x : Prog α} {body body' : VaultBody}
  {items : List (Str × Str × UInt8)}

/-- The tier that the last of the bindings gives. -/
theorem Saves.tierOf (h : Saves path w body items body' w') (key : Str) :
    body'.tierOf key = ((last items key).map Prod.snd).or (body.tierOf key) := by
  rw [VaultBody.tierOf_eq_view, h.view, putAll_apply, VaultBody.tierOf_eq_view]
  cases last items key <;> rfl

theorem Saves.keeps_tier (h : Saves path w body items body' w') (hitems : AtTiers body items)
    {key : Str} {tier : UInt8} (htier : body.tierOf key = some tier) :
    body'.tierOf key = some tier := by
  rw [h.tierOf, htier]
  cases hlast : last items key with
  | none => rfl
  | some b =>
    rw [← hitems (key, b) (last_eq_some_mem hlast) tier htier]
    rfl

/-- What a command has to store is at the tiers that there are. -/
theorem KeepsTiers.of_ends {task : Machine → VaultBody → List (Str × Str × UInt8) → Prop}
    {lists : α → List (Str × Str × UInt8) → Prop}
    (hends : ∀ m, m.Faultless → Ends path w (task m) lists (x.run m w).1 (x.run m w).2)
    (hitems : ∀ m body items, m.Faultless → task m body items → AtTiers body items) :
    KeepsTiers path w x := by
  intro m hm body body' hbefore hafter key tier htier
  have hend := hends m hm
  rcases hresult : x.run m w with ⟨r, w'⟩
  rw [hresult] at hend hafter
  have hsame : SameEntries path w w' → body'.tierOf key = some tier := by
    intro hsame
    rwa [← hbefore.unique ((hsame body').mp hafter)]
  have hsaved : ∀ {body₀ body₁ : VaultBody} {items : List (Str × Str × UInt8)},
      task m body₀ items → Saves path w body₀ items body₁ w' → body'.tierOf key = some tier := by
    intro body₀ body₁ items htask hsaves
    cases hbefore.unique hsaves.before
    cases hafter.unique hsaves.after
    exact hsaves.keeps_tier (hitems m _ _ hm htask) htier
  cases hend with
  | failed h => exact hsame h
  | idle h => exact hsame h
  | stored htask hsaves => exact hsaved htask hsaves
  | unverified htask hsaves => exact hsaved htask hsaves

/-- A command with one tier for all that it stores keeps the tiers where they
are that tier. -/
theorem keepsTiers_iff {task : VaultBody → List (Str × Str × UInt8) → Prop}
    {lists : α → List (Str × Str × UInt8) → Prop}
    (hends : ∀ m, m.Faultless → Ends path w task lists (x.run m w).1 (x.run m w).2)
    (hreached : ∀ body items, task body items → items ≠ [] →
      ∃ m, Machine.Faultless m ∧ Commits path w body items (x.run m w).2)
    {tier : UInt8} (htier : ∀ body items, task body items → ∀ i ∈ items, i.2.2 = tier) :
    KeepsTiers path w x ↔ ∀ body items, task body items →
      ∀ i ∈ items, ∀ old, body.tierOf i.1 = some old → old = tier := by
  constructor
  · intro h body items htask i hi old hold
    obtain ⟨m, hm, body', hsaves, -⟩ := hreached body items htask (List.ne_nil_of_mem hi)
    obtain ⟨b, hlast⟩ := Option.isSome_iff_exists.mp (last_isSome.mpr ⟨i.2, hi⟩)
    have hnew : body'.tierOf i.1 = some tier := by
      rw [hsaves.tierOf, hlast, ← htier body items htask (i.1, b) (last_eq_some_mem hlast)]
      rfl
    rw [h m hm body body' hsaves.before hsaves.after i.1 old hold] at hnew
    exact Option.some.inj hnew
  · intro h
    refine .of_ends hends fun m body items _ htask i hi old hold => ?_
    rw [htier body items htask i hi, h body items htask i hi old hold]

end

/-! ## The four commands -/

section

variable {path : Path} {w : Disk} {unlock : Unlock}

theorem tierOf_setItems {v : Str → Option (Str × UInt8)} {pairs : List (Str × Str)}
    {i : Str × Str × UInt8} (hi : i ∈ setItems none v pairs) {x : Str × UInt8}
    (hx : v i.1 = some x) : i.2.2 = x.2 := by
  obtain ⟨p, -, rfl⟩ := List.mem_map.mp hi
  simp [setTier, show v p.1 = some x from hx]

theorem tier_of_mem_importItems {pre : Str} {tier : UInt8} {pairs : List (Str × Str)}
    {i : Str × Str × UInt8} (hi : i ∈ importItems pre tier pairs) : i.2.2 = tier := by
  obtain ⟨p, -, rfl⟩ := List.mem_map.mp hi
  rfl

theorem tier_of_mem_adoptItems [JsonText] {pre : Str} {fs : Path → Option Contents}
    {files : List (Path × List Finding)} {i : Str × Str × UInt8}
    (hi : i ∈ adoptItems pre fs files) : i.2.2 = tierUseOnly := by
  obtain ⟨file, -, hi⟩ := List.mem_flatMap.mp hi
  split at hi
  · obtain ⟨f, -, hitem⟩ := List.mem_filterMap.mp hi
    obtain ⟨name, value, -, -, rfl⟩ := Finding.item_eq_some.mp hitem
    rfl
  · cases hi

/-- `set` without a tier keeps every tier; the other commands that store a new
value keep the tiers of the keys they store where these are the default. -/
theorem rotation_keepsTiers [Chrono] [JsonText] (path : Path) (w : Disk) (unlock : Unlock) :
    (∀ keys days expires, KeepsTiers path w (cmdSet path unlock keys none days expires)) ∧
    (∀ file key, file.path ∉ vaultFiles path →
      (KeepsTiers path w (cmdImport path unlock file key tierUseOnly) ↔
        ∀ body items, ImportTask path w unlock file key tierUseOnly body items →
          ∀ i ∈ items, ∀ old, body.tierOf i.1 = some old → old = tierUseOnly)) ∧
    (∀ file pre keep force, ImportApart path file keep →
      (KeepsTiers path w (cmdImportEnv path unlock file pre tierUseOnly keep force) ↔
        ∀ body items,
          (∃ text, ImportEnvTask path w unlock file pre tierUseOnly force text body items) →
          ∀ i ∈ items, ∀ old, body.tierOf i.1 = some old → old = tierUseOnly)) ∧
    ∀ findings pre force, FindingsApart path findings →
      (KeepsTiers path w (adoptFindings path unlock findings pre force) ↔
        ∀ body items, AdoptTask path w unlock findings pre force body items →
          ∀ i ∈ items, ∀ old, body.tierOf i.1 = some old → old = tierUseOnly) := by
  refine ⟨fun keys days expires => ?_, fun file key hapart => ?_,
    fun file pre keep force hapart => ?_, fun findings pre force hapart => ?_⟩
  · refine .of_ends (fun m hm => cmdSet_ends hm) fun m body items _ htask i hi old hold => ?_
    rw [VaultBody.tierOf_eq_view] at hold
    obtain ⟨x, hx, rfl⟩ := Option.map_eq_some_iff.mp hold
    rw [htask.stored] at hi
    exact tierOf_setItems hi hx
  · refine keepsTiers_iff (fun m hm => cmdImport_ends hm hapart)
      (fun body items htask _ => cmdImport_reaches hapart htask) fun body items htask i hi => ?_
    obtain ⟨c, text, -, -, -, rfl⟩ := htask.stored
    rw [List.mem_singleton.mp hi]
  · refine keepsTiers_iff (fun m hm => cmdImportEnv_ends hm hapart)
      (fun body items ⟨text, htask⟩ hne => cmdImportEnv_reaches hapart htask hne)
      fun body items ⟨text, htask⟩ i hi => ?_
    rw [htask.stored] at hi
    exact tier_of_mem_importItems (mem_of_mem_taken hi)
  · refine keepsTiers_iff (fun m hm => adoptFindings_ends hm hapart)
      (fun body items htask hne => adoptFindings_reaches hapart htask hne)
      fun body items htask i hi => ?_
    rw [htask.stored] at hi
    exact tier_of_mem_adoptItems (mem_of_mem_taken hi)

end

/-- A file `.env` that overwrites the tier-3 key `A` and adds `C`, beside the
tier-4 key `B`. -/
theorem rotation_keepsTiers_env :
    letI := noJsonText
    letI := noDates
    KeepsTiers vaultJson (vaultDisk twoTiers "A=1\nC=2".toList)
        (cmdImportEnv vaultJson pwUnlock envArg none tierUseOnly false true) ∧
      (sealedBody (((cmdImportEnv vaultJson pwUnlock envArg none tierUseOnly false true).run .quiet
          (vaultDisk twoTiers "A=1\nC=2".toList)).2.fs vaultJson)).map
        (fun body => (["A", "B", "C"].map String.toList).map body.view) =
      some [some ("1".toList, 3), some ("9".toList, 4), some ("2".toList, 3)] := by
  let _ := noJsonText
  let _ := noDates
  refine ⟨?_, by decide⟩
  refine ((rotation_keepsTiers vaultJson (vaultDisk twoTiers "A=1\nC=2".toList)
    pwUnlock).2.2.1 envArg none false true envArg_apart).mpr fun body items ⟨text, htask⟩ i hi => ?_
  obtain ⟨-, rfl, rfl⟩ := htask.of_vaultDisk
  have hitems : taken true twoTiers.view (importItems ((none : Option Str).getD []) tierUseOnly
      (parseDotenv "A=1\nC=2".toList)) =
    [("A".toList, "1".toList, tierUseOnly), ("C".toList, "2".toList, tierUseOnly)] := by decide
  rw [hitems] at hi
  have hold : twoTiers.tierOf "A".toList = some tierUseOnly := by decide
  have hnew : twoTiers.tierOf "C".toList = none := by decide
  intro old htier
  rcases List.mem_cons.mp hi with rfl | hi
  · exact Option.some.inj (htier.symm.trans hold)
  · obtain rfl := List.mem_singleton.mp hi
    exact absurd (htier.symm.trans hnew) nofun

/-- A tier-4 key that is imported again is a tier-3 key. -/
theorem rotation_not_keepsTiers :
    ¬∀ (_ : JsonText) (path : Path) (w : Disk) (unlock : Unlock) (file : FileArg)
      (pre : Option Str) (keep : Bool), ImportApart path file keep →
      KeepsTiers path w (cmdImportEnv path unlock file pre tierUseOnly keep true) := by
  intro h
  let _ := noJsonText
  let _ := noDates
  have hkeeps := h noJsonText vaultJson
    ((cmdSet vaultJson pwUnlock [("A".toList, "1".toList)] (some tierSignOnly) none none).run .quiet
      (envDisk "A=2".toList)).2 pwUnlock envArg none false envArg_apart .quiet
    Machine.quiet_faultless
  have hbefore : (sealedBody (((cmdSet vaultJson pwUnlock [("A".toList, "1".toList)]
      (some tierSignOnly) none none).run .quiet (envDisk "A=2".toList)).2.fs vaultJson)).bind
      (VaultBody.tierOf · "A".toList) = some tierSignOnly := by decide +kernel
  have hafter : (sealedBody (((cmdImportEnv vaultJson pwUnlock envArg none tierUseOnly false
      true).run .quiet ((cmdSet vaultJson pwUnlock [("A".toList, "1".toList)] (some tierSignOnly)
      none none).run .quiet (envDisk "A=2".toList)).2).2.fs vaultJson)).bind
      (VaultBody.tierOf · "A".toList) = some tierUseOnly := by decide +kernel
  obtain ⟨body, hbody, htier⟩ := Option.bind_eq_some_iff.mp hbefore
  obtain ⟨body', hbody', htier'⟩ := Option.bind_eq_some_iff.mp hafter
  rw [hkeeps body body' (entries_of_sealedBody hbody) (entries_of_sealedBody hbody') _ _ htier]
    at htier'
  exact absurd htier' (by decide)

end HearthVault
