/-
HearthVault.Cli.ExecTheorems — whether `exec` gives back the environment that
a dotenv file set.

Under a prefix that is new to the vault `import-env` always gets to save, and
is verified if the values agree; `exec` then injects what was stored, under
the names of the file (`execEnv_of_names`). That is what a dotenv loader sets
where the stored values are the last of the file.
-/
import HearthVault.Cli.ImportTheorems

namespace HearthVault

open Files Symbolic Calendar Bindings

/-! ## A prefix that is new -/

/-- No key under the prefix has a rotation policy. -/
def Unrotated (pre : Str) (body : VaultBody) : Prop :=
  ∀ (key : Str) (entry : BodyEntry), pre <+: key → body[key]? = some entry →
    entry.rotateDays = none

/-- No key is under the prefix. -/
def FreshPrefix (pre : Str) (body : VaultBody) : Prop :=
  ∀ key, pre <+: key → body.has key = false

theorem freshPrefix_iff {pre : Str} {body : VaultBody} :
    FreshPrefix pre body ↔ ∀ key ∈ body.keys, ¬pre <+: key := by
  have hhas : ∀ key, body.has key = false ↔ key ∉ body.keys := by
    intro key
    rw [VaultBody.has, Std.ExtTreeMap.mem_keys, Std.ExtTreeMap.mem_iff_isSome_getElem?,
      Bool.not_eq_true]
  simp only [FreshPrefix, hhas]
  exact forall_congr' fun key => imp_not_comm

theorem FreshPrefix.unrotated {pre : Str} {body : VaultBody} (h : FreshPrefix pre body) :
    Unrotated pre body := by
  intro key entry hpre hentry
  have hhas := h key hpre
  rw [VaultBody.has, hentry] at hhas
  cases hhas

theorem FreshPrefix.view {pre : Str} {body : VaultBody} (h : FreshPrefix pre body) (name : Str) :
    body.view (pre ++ name) = none := by
  rw [← Option.not_isSome_iff_eq_none, VaultBody.isSome_view, h _ (List.prefix_append pre name)]
  simp

/-- A key under such a prefix is stored at any time. -/
theorem setEntry_unrotated {pre key value : Str} {body : VaultBody} {tier : UInt8} (now : DateTime)
    (hbody : Unrotated pre body) (hkey : pre <+: key) (htier : TierInRange tier) :
    ∃ body', setEntry now key value tier body = .ok body' ∧ Unrotated pre body' := by
  obtain ⟨entry, hentry, hrotate⟩ : ∃ entry, storedEntry now body[key]? value tier = .ok entry ∧
      entry.rotateDays = none := by
    cases hold : body[key]? with
    | none => exact ⟨_, rfl, rfl⟩
    | some old =>
      have hnone := hbody key old hkey hold
      refine ⟨⟨value, tier, old.createdAt, toRfc3339 now, none, none⟩, ?_, rfl⟩
      rw [storedEntry, hnone]
      rfl
  refine ⟨body.insert key entry, ?_, fun k e hk he => ?_⟩
  · rw [setEntry, validateTier_eq_ok.mpr htier, hentry]
    rfl
  · rw [Std.ExtTreeMap.getElem?_insert] at he
    split at he
    · cases he
      exact hrotate
    · exact hbody k e hk he

section

variable {m : Machine} {w : Disk} {pre : Str} {tier : UInt8} {force : Bool}

theorem set_unrotated {store : VaultStore} {key value : Str} (hstore : Unrotated pre store.body)
    (hkey : pre <+: key) (htier : TierInRange tier) : ∃ store' w',
      (store.set key value tier).run m w = (.ok store', w') ∧ Unrotated pre store'.body := by
  obtain ⟨body', hset, hbody'⟩ := @setEntry_unrotated pre key value store.body tier
    (m.clock w.ticks) hstore hkey htier
  refine ⟨{ store with body := body' }, { w with ticks := w.ticks + 1 }, ?_, hbody'⟩
  rw [VaultStore.set, Fx.bind_run_ok (Fx.now_run m w), VaultStore.onBody, hset]
  rfl

theorem importPairs_unrotated {store : VaultStore} {pairs : List (Str × Str)}
    (hstore : Unrotated pre store.body) (htier : TierInRange tier) : ∃ store' expected w',
      (importPairs pre tier force pairs store).run m w = (.ok (store', expected), w') := by
  induction pairs generalizing store w with
  | nil => exact ⟨store, [], w, rfl⟩
  | cons pair rest ih =>
    obtain ⟨name, value⟩ := pair
    unfold importPairs
    dsimp only
    split
    · exact ih hstore
    · obtain ⟨store₁, w₁, hset, hstore₁⟩ := @set_unrotated m w pre tier store (pre ++ name) value
        hstore (List.prefix_append pre name) htier
      obtain ⟨store₂, expected, w₂, hrest⟩ := @ih w₁ store₁ hstore₁
      rw [Fx.bind_run_ok hset, Fx.bind_run_ok hrest]
      exact ⟨_, _, _, rfl⟩

end

/-! ## import-env, then exec -/

section

variable [JsonText] {m : Machine} {path : Path} {w : Disk} {unlock : Unlock} {file : FileArg}
  {pre : Str} {keep force : Bool}

/-- Under a new prefix the pairs are saved, and verified if they agree. -/
theorem cmdImportEnv_fresh (hm : m.Faultless) (hapart : ImportApart path file keep) {text : Str}
    (hfile : fileText w.fs file.path = some text) (hpairs : parseDotenv text ≠ [])
    {body : VaultBody}
    (hopens : unlock.Opens path (w.fs path) body) (hfresh : FreshPrefix pre body) : ∃ body',
      Saves path w body
        (taken force body.view (importItems pre tierUseOnly (parseDotenv text))) body'
        ((cmdImportEnv path unlock file (some pre) tierUseOnly keep force).run m w).2 ∧
      (((cmdImportEnv path unlock file (some pre) tierUseOnly keep force).run m w).1 = .ok () ↔
        Agree (keyValues
          (taken force body.view (importItems pre tierUseOnly (parseDotenv text))))) := by
  obtain ⟨c, hfile, htext⟩ := fileText_eq_some.mp hfile
  obtain ⟨store, v, hcurrent, rfl, -, hothers, hrun⟩ := @cmdImportEnv_run _ m path w unlock file
    (some pre) tierUseOnly keep force hm _ _ _ hfile htext hpairs hopens
  obtain ⟨store', expected, v', hloop⟩ := @importPairs_unrotated m v pre tierUseOnly force store
    (parseDotenv text) hfresh.unrotated (by decide)
  have hsource : keep = false → (v.fs file.path).isSome = true := by
    intro hkeep
    rw [hothers file.path (hapart.source hkeep), hfile]
    rfl
  obtain ⟨msg, u, hsaves, -, hcommit⟩ := @cmdImportEnv_commit _ m path v file (some pre) tierUseOnly
    keep force hm _ _ _ _ _ hcurrent hapart hsource hloop
  obtain ⟨-, rfl, -⟩ := importPairs_eq_ok hloop
  rw [hrun, hcommit]
  refine ⟨store'.body, hsaves.from hopens.entries, ?_⟩
  by_cases hagree : Agree (keyValues
      (taken force store.body.view (importItems pre tierUseOnly (parseDotenv text)))) <;>
    simp [hagree, bail]

end

/-- `exec` under the prefix injects the variables that a dotenv loader sets to
a value: one pair for each, with its last assignment in the file. -/
def RestoresEnv [Unicode] (pre : Str) (pairs : List (Str × Str)) (after : Option Contents) : Prop :=
  ∃ body injected skipped, Entries after body ∧
    collectExecEnv body pre = .ok (injected, skipped) ∧ (injected.map Prod.fst).Nodup ∧
    ∀ name value, (name, value) ∈ injected ↔ last pairs name = some value ∧ value ≠ []

/-- The assignment of a name that `import-env` stores under a new prefix. -/
def chosen (force : Bool) (pairs : List (Str × Str)) (name : Str) : Option Str :=
  if force then last (nonEmpty pairs) name else first (nonEmpty pairs) name

section

variable {pre : Str} {force : Bool} {pairs : List (Str × Str)} {name value : Str}

theorem mem_nonEmpty {p : Str × Str} : p ∈ nonEmpty pairs ↔ p ∈ pairs ∧ p.2 ≠ [] := by
  simp [nonEmpty]

theorem chosen_mem (h : chosen force pairs name = some value) : (name, value) ∈ nonEmpty pairs := by
  cases force with
  | true => exact last_eq_some_mem h
  | false => exact first_eq_some_mem h

theorem chosen_isSome (h : (name, value) ∈ nonEmpty pairs) :
    (chosen force pairs name).isSome = true := by
  cases force with
  | true => exact last_isSome.mpr ⟨value, h⟩
  | false => exact first_isSome.mpr ⟨value, h⟩

/-- The values that are chosen are the last of the file. -/
theorem chosen_eq_last_iff :
    (∀ name value, chosen force pairs name = some value ↔
      last pairs name = some value ∧ value ≠ []) ↔
      ∀ p ∈ pairs, p.2 ≠ [] → last pairs p.1 = chosen force pairs p.1 := by
  constructor
  · intro h p hp hvalue
    obtain ⟨v, hv⟩ := Option.isSome_iff_exists.mp
      (@chosen_isSome force pairs p.1 p.2 (mem_nonEmpty.mpr ⟨hp, hvalue⟩))
    rw [hv, ((h p.1 v).mp hv).1]
  · intro h name value
    constructor
    · intro hchosen
      obtain ⟨hmem, hvalue⟩ := mem_nonEmpty.mp (chosen_mem hchosen)
      exact ⟨(h _ hmem hvalue).trans hchosen, hvalue⟩
    · rintro ⟨hlast, hvalue⟩
      exact (h _ (last_eq_some_mem hlast) hvalue).symm.trans hlast

/-- Where the pairs agree each is the one that is chosen. -/
theorem agree_nonEmpty (h : Agree (nonEmpty pairs)) {p : Str × Str} (hp : p ∈ nonEmpty pairs) :
    chosen true pairs p.1 = some p.2 :=
  agree_iff.mp h p hp

/-- What is stored agrees without `--force`, and otherwise if the file does. -/
theorem agree_importItems {v : Str → Option (Str × UInt8)} {tier : UInt8} :
    Agree (keyValues (taken force v (importItems pre tier pairs))) ↔
      (force = true → Agree (nonEmpty pairs)) := by
  cases force with
  | true =>
    have hmap : keyValues (importItems pre tier pairs) =
        (nonEmpty pairs).map fun p => (pre ++ p.1, id p.2) := by
      simp [keyValues, importItems_eq]
    rw [taken, if_pos rfl, hmap, agree_map_key (append_injective pre) Function.injective_id]
    simp
  | false =>
    have hagree : Agree (keyValues (taken false v (importItems pre tier pairs))) :=
      (agree_taken_false v (importItems pre tier pairs)).map Prod.fst
    simp [hagree]

variable {path : Path} {w w' : Disk} {body body' : VaultBody} {tier : UInt8}

/-- What `exec` injects after the pairs of a file have been saved under a new
prefix. -/
theorem Saves.restoresEnv_iff [Unicode] (hupper : FixesNames)
    (hnames : ∀ p ∈ pairs, ∀ c ∈ p.1, isNameChar c = true) (hfresh : FreshPrefix pre body)
    (htier : tierAllowsExecInjection tier = true)
    (h : Saves path w body (taken force body.view (importItems pre tier pairs)) body' w') :
    RestoresEnv pre pairs (w'.fs path) ↔
      ∀ p ∈ pairs, p.2 ≠ [] → last pairs p.1 = chosen force pairs p.1 := by
  have hview : ∀ name, body'.view (pre ++ name) = (chosen force pairs name).map (·, tier) := by
    intro name
    rw [h.view_importItems, hfresh.view, chosen]
    cases force <;> simp
  have hkeys : ∀ name, body'.has (pre ++ name) = true → ∀ c ∈ name, isNameChar c = true := by
    intro name hhas c hc
    rw [← VaultBody.isSome_view, hview, Option.isSome_map] at hhas
    obtain ⟨value, hvalue⟩ := Option.isSome_iff_exists.mp hhas
    exact hnames _ (mem_nonEmpty.mp (chosen_mem hvalue)).1 c hc
  obtain ⟨injected, skipped, hexec, hnodup, hmem⟩ := execEnv_of_names hupper hkeys
  have hchosen : ∀ name value, (name, value) ∈ injected ↔ chosen force pairs name = some value := by
    intro name value
    rw [hmem, hview]
    simp [htier]
  rw [← chosen_eq_last_iff]
  constructor
  · rintro ⟨body'', injected', skipped', hafter, hexec', -, hlast⟩ name value
    cases hafter.unique h.after
    rw [hexec] at hexec'
    cases hexec'
    rw [← hchosen, hlast]
  · intro hlast
    exact ⟨body', injected, skipped, h.after, hexec, hnodup, fun name value =>
      (hchosen name value).trans (hlast name value)⟩

end

section

variable [JsonText] [Unicode] {m : Machine} {path : Path} {w : Disk} {unlock : Unlock}
    {file : FileArg}
  {pre : Str} {keep force : Bool}

/-- `import-env` and then `exec` restore the environment of a dotenv file if
and only if the assignment that is stored of every name is its last, and with
`--force` every one that has a value. -/
theorem importEnv_restoresEnv (hupper : FixesNames) (hm : m.Faultless)
    (hapart : ImportApart path file keep) {text : Str} (hfile : fileText w.fs file.path = some text)
    (hnames : ∀ p ∈ parseDotenv text, ∀ c ∈ p.1, isNameChar c = true) {body : VaultBody}
    (hopens : unlock.Opens path (w.fs path) body) (hfresh : FreshPrefix pre body) :
    (((∃ p ∈ parseDotenv text, p.2 ≠ []) →
        ((cmdImportEnv path unlock file (some pre) tierUseOnly keep force).run m w).1 = .ok ()) ∧
      (((cmdImportEnv path unlock file (some pre) tierUseOnly keep force).run m w).1 = .ok () →
        RestoresEnv pre (parseDotenv text)
          (((cmdImportEnv path unlock file (some pre) tierUseOnly keep force).run m
            w).2.fs path))) ↔
      ∀ p ∈ parseDotenv text, p.2 ≠ [] → last (parseDotenv text) p.1 =
        if force then some p.2 else first (nonEmpty (parseDotenv text)) p.1 := by
  by_cases hpairs : parseDotenv text ≠ []
  swap
  · obtain ⟨c, hcontents, htext⟩ := fileText_eq_some.mp hfile
    obtain ⟨e, v, -, hrun⟩ := @cmdImportEnv_unread _ m path w unlock file (some pre) tierUseOnly
      keep force hm fun ⟨c', text', hcontents', htext', hpairs'⟩ => by
        rw [hcontents] at hcontents'
        cases hcontents'
        rw [htext] at htext'
        cases htext'
        exact hpairs hpairs'
    rw [hrun, not_not.mp hpairs]
    simp
  obtain ⟨body', hsaves, hok⟩ := cmdImportEnv_fresh hm hapart hfile hpairs hopens hfresh
  rw [hsaves.restoresEnv_iff hupper hnames hfresh (by decide), hok, agree_importItems]
  constructor
  · rintro ⟨hsucceeds, hrestores⟩ p hp hvalue
    have hagree := hsucceeds ⟨p, hp, hvalue⟩
    rw [hrestores hagree p hp hvalue]
    cases force with
    | true => exact agree_nonEmpty (hagree rfl) (mem_nonEmpty.mpr ⟨hp, hvalue⟩)
    | false => rfl
  · intro h
    have hagree : force = true → Agree (nonEmpty (parseDotenv text)) := by
      rintro rfl p hp p' hp' hname
      have hlast := h p (mem_nonEmpty.mp hp).1 (mem_nonEmpty.mp hp).2
      rw [hname, h p' (mem_nonEmpty.mp hp').1 (mem_nonEmpty.mp hp').2] at hlast
      exact (Option.some.inj hlast).symm
    refine ⟨fun _ => hagree, fun _ p hp hvalue => (h p hp hvalue).trans ?_⟩
    cases force with
    | true => exact (agree_nonEmpty (hagree rfl) (mem_nonEmpty.mpr ⟨hp, hvalue⟩)).symm
    | false => rfl

end

/-- A file with three names, one of them twice with one value, imported beside
keys that have no prefix. -/
theorem importEnv_restoresEnv_repeated :
    letI := noJsonText
    letI := asciiUppercase
    RestoresEnv "app/".toList (parseDotenv "A=1\nB_2=x y\nA=1\nE=".toList)
      (((cmdImportEnv vaultJson pwUnlock envArg (some "app/".toList) tierUseOnly false false).run
        .quiet (vaultDisk twoTiers "A=1\nB_2=x y\nA=1\nE=".toList)).2.fs vaultJson) := by
  let _ := noJsonText
  let _ := asciiUppercase
  have hnames : (parseDotenv "A=1\nB_2=x y\nA=1\nE=".toList).all
      (fun p => p.1.all isNameChar) = true := by decide
  have hfresh : FreshPrefix "app/".toList twoTiers := freshPrefix_iff.mpr (by decide)
  refine ((importEnv_restoresEnv asciiUppercase_fixesNames Machine.quiet_faultless envArg_apart rfl
    (by simpa only [List.all_eq_true] using hnames) (vaultDisk_opens _ _) hfresh).mpr ?_).2
      (by decide)
  decide

/-- Of two values that a file has for a name `exec` injects the first. -/
theorem importEnv_not_restoresEnv :
    ¬∀ (_ : JsonText) (_ : Unicode) (m : Machine) (path : Path) (w : Disk) (unlock : Unlock)
      (file : FileArg) (pre : Str) (keep force : Bool) (text : Str) (body : VaultBody), FixesNames →
      m.Faultless → ImportApart path file keep → fileText w.fs file.path = some text →
      (∀ p ∈ parseDotenv text, ∀ c ∈ p.1, isNameChar c = true) →
      unlock.Opens path (w.fs path) body → FreshPrefix pre body →
      ((cmdImportEnv path unlock file (some pre) tierUseOnly keep force).run m w).1 = .ok () →
      RestoresEnv pre (parseDotenv text)
        (((cmdImportEnv path unlock file (some pre) tierUseOnly keep force).run m
          w).2.fs path) := by
  intro h
  let _ := noJsonText
  let _ := asciiUppercase
  have hnames : (parseDotenv "A=1\nA=2".toList).all (fun p => p.1.all isNameChar) = true := by
    decide
  obtain ⟨body, injected, skipped, hafter, hexec, -, hmem⟩ := h noJsonText asciiUppercase .quiet
    vaultJson (envDisk "A=1\nA=2".toList) pwUnlock envArg "app/".toList false false
    "A=1\nA=2".toList ∅ asciiUppercase_fixesNames Machine.quiet_faultless envArg_apart rfl
    (by simpa only [List.all_eq_true] using hnames) (.inr (.inr rfl))
    (fun _ _ => by simp [VaultBody.has]) (by decide)
  have hstored : (sealedBody (((cmdImportEnv vaultJson pwUnlock envArg (some "app/".toList)
      tierUseOnly false false).run .quiet (envDisk "A=1\nA=2".toList)).2.fs vaultJson)).map
      (fun body => collectExecEnv body "app/".toList) =
      some (.ok ([("A".toList, "1".toList)], [])) := by decide
  obtain ⟨body', hbody', hinjected⟩ := Option.map_eq_some_iff.mp hstored
  cases hafter.unique (entries_of_sealedBody hbody')
  rw [hexec] at hinjected
  cases hinjected
  have hlast := (hmem "A".toList "1".toList).mp (by decide)
  exact absurd hlast.1 (by decide)

end HearthVault
