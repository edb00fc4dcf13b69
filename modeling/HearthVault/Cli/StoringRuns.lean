/-
HearthVault.Cli.StoringRuns — `set` and `import-env`, from the vault file
before to the vault file after.

One lemma for each says how it ends (`cmdSet_ends`, `cmdImportEnv_ends`), and
one that it gets to save what it has to store (`cmdSet_reaches`,
`cmdImportEnv_reaches`).

A command is cut at the save. `cmdSet_run` follows it to the store that it has
under the lock, on any machine without faults, the loop of `Cli.Storing` says
what that store holds, and `cmdSet_commit` ends with the save and the
verification as one of the cases of `Ends`; `import-env` has the same three
parts behind the reading of its file. That a command gets to save depends on
the clock only, and `Cli.StoringTimes` has a clock for each loop.
-/
import HearthVault.Cli.Committing
import HearthVault.Cli.StoringTimes

namespace HearthVault

open Files Symbolic Calendar Bindings

/-! ### set -/

/-- The pairs that have a value. -/
def nonEmpty (pairs : List (Str × Str)) : List (Str × Str) :=
  pairs.filter fun p => p.2 ≠ []

/-- What `set` stores: the values typed, in a vault that opens, when the due
date can be read at some time and every tier is in range. -/
structure SetTask [Chrono] (path : Path) (w : Disk) (unlock : Unlock) (keys : List (Str × Str))
    (tier : Option UInt8) (expires : Option Str) (body : VaultBody)
    (items : List (Str × Str × UInt8)) : Prop where
  given : keys ≠ []
  dated : ∀ input ∈ expires, ∃ now due, parseWhen now input = .ok due
  opens : unlock.Opens path (w.fs path) body
  stored : items = setItems tier body.view (nonEmpty keys)
  tiers : ∀ i ∈ items, TierInRange i.2.2

theorem keyValues_setItems (tier : Option UInt8) (v : Str → Option (Str × UInt8))
    (pairs : List (Str × Str)) : keyValues (setItems tier v pairs) = pairs := by
  simp [keyValues, setItems, Function.comp_def]

theorem trivial_invariant : BodyInvariant fun _ => True where
  empty := trivial
  set := fun _ _ => trivial
  setRotation := fun _ _ => trivial
  setExpiry := fun _ _ => trivial
  rename := fun _ _ => trivial
  retier := fun _ _ => trivial
  delete := fun _ _ => trivial

/-- A loop over the body leaves the vault file alone, however it ends. -/
theorem VaultStore.Current.loop_fs {α : Type} {m : Machine} {path : Path} {w : Disk}
    {store : VaultStore} {x : Prog α} {A : α → Prop} (hcurrent : store.Current path w)
    (hx : GoodStore (fun _ => True) path store → Fx.Keeps m path (· = w.fs path) x A) :
    (x.run m w).2.fs path = w.fs path :=
  (hx ⟨hcurrent.place, trivial⟩).run rfl

theorem VaultStore.Current.of_fs {store : VaultStore} {path : Path} {v w : Disk}
    (h : store.Current path w) (hfs : v.fs path = w.fs path) : store.Current path v := by
  obtain ⟨hplace, file, hfile, hrest⟩ := h
  exact ⟨hplace, file, hfs.trans hfile, hrest⟩

section

variable [Chrono] {m : Machine} {path : Path} {w : Disk} {unlock : Unlock}
  {keys : List (Str × Str)} {tier : Option UInt8} {days : Option UInt32} {expires : Option Str}

/-- The due date, at the first reading of the clock. -/
theorem explicitExpiry_run : (explicitExpiry expires).run m w =
    match expires with
    | none => (.ok none, w)
    | some input =>
        ((parseWhen (m.clock w.ticks) input).map some, { w with ticks := w.ticks + 1 }) := by
  cases expires with
  | none => rfl
  | some input =>
    unfold explicitExpiry
    dsimp only
    rw [Fx.bind_run_ok (Fx.now_run m w), Fx.bind_run, Fx.ofResult_run]
    cases parseWhen (m.clock w.ticks) input <;> rfl

/-- The due date is read, and no file. -/
theorem explicitExpiry_fs {r : Result (Option Str)} {w₁ : Disk}
    (h : (explicitExpiry expires).run m w = (r, w₁)) : w₁.fs = w.fs := by
  rw [explicitExpiry_run] at h
  cases expires <;> cases h <;> rfl

theorem explicitExpiry_dated {due : Option Str} {w₁ : Disk}
    (h : (explicitExpiry expires).run m w = (.ok due, w₁)) :
    ∀ input ∈ expires, ∃ now due, parseWhen now input = .ok due := by
  rintro input ⟨⟩
  rw [explicitExpiry_run] at h
  dsimp only at h
  cases hparse : parseWhen (m.clock w.ticks) input with
  | error e =>
    rw [hparse] at h
    cases h
  | ok due => exact ⟨_, due, hparse⟩

variable (hm : m.Faultless)

include hm

/-- Up to the loop: the vault is open and locked. -/
theorem cmdSet_run {body : VaultBody} {due : Option Str} {w₁ : Disk} (hkeys : keys ≠ [])
    (hdue : (explicitExpiry expires).run m w = (.ok due, w₁))
    (hopens : unlock.Opens path (w₁.fs path) body) (hpending : nonEmpty keys ≠ []) :
    ∃ store v, store.Current path v ∧ store.body = body ∧ v.ticks = w₁.ticks ∧
      (cmdSet path unlock keys tier days expires).run m w = (do
        let store ← setAll tier days due (nonEmpty keys) store
        let store ← store.save
        store.verifyPersisted (nonEmpty keys) : Prog Unit).run m v := by
  obtain ⟨opened, v₁, hopen, hcurrent, hbody, hticks, -⟩ := openVault_found hm hopens
  obtain ⟨store, v, hrefresh, hframe, hcurrent', hbody', -⟩ := hcurrent.lockAndRefresh hm
  refine ⟨store, v, hcurrent', hbody'.trans hbody, hframe.ticks.trans hticks, ?_⟩
  have hpending' : (keys.filter fun p => p.2 ≠ []) ≠ [] := hpending
  unfold cmdSet
  rw [Fx.bind_run_ok (Fx.ensure_run hkeys _ m w), Fx.bind_run_ok hdue, Fx.bind_run_ok hopen]
  dsimp only
  rw [Fx.when, if_pos hpending', Fx.bind_run_ok hrefresh]
  rfl

omit [Chrono] in
/-- From the loop on: the values are saved, and verified if they agree. -/
theorem cmdSet_commit {store store' : VaultStore} {due : Option Str} {pairs : List (Str × Str)}
    {v : Disk} (hcurrent : store.Current path w)
    (hloop : (setAll tier days due pairs store).run m w = (.ok store', v)) :
    ∃ msg u, Saves path w store.body (setItems tier store.body.view pairs) store'.body u ∧ (do
        let store ← setAll tier days due pairs store
        let store ← store.save
        store.verifyPersisted pairs : Prog Unit).run m w =
      (if Agree pairs then .ok () else bail msg, u) := by
  obtain ⟨hstoring, htime⟩ := setAll_eq_ok hloop
  have hcurrent' : store.Current path v := hcurrent.of_fs (by rw [htime.fs])
  obtain ⟨saved, u, hsave, hentries, -, msg, u', hverify, hu'⟩ := commit_run hm hcurrent' hstoring
  rw [keyValues_setItems] at hverify
  refine ⟨msg, u', ⟨hcurrent.entries, ?_, hstoring.view⟩, ?_⟩
  · rw [hu'.fs path (by simp)]
    exact hentries
  · rw [Fx.bind_run_ok hloop, Fx.bind_run_ok hsave, hverify]

variable {w₁ : Disk} {due : Option Str} {body : VaultBody}

/-- Values that were typed are stored, unless one cannot be set. -/
theorem cmdSet_ends_pending (hkeys : keys ≠ [])
    (hexpiry : (explicitExpiry expires).run m w = (.ok due, w₁))
    (hopens : unlock.Opens path (w₁.fs path) body) (hpending : nonEmpty keys ≠ []) :
    Ends path w (SetTask path w unlock keys tier expires) (fun _ _ => True)
      ((cmdSet path unlock keys tier days expires).run m w).1
      ((cmdSet path unlock keys tier days expires).run m w).2 := by
  have hfs : w₁.fs path = w.fs path := congrFun (explicitExpiry_fs hexpiry) path
  have hbefore : Entries (w.fs path) body := hfs ▸ hopens.entries
  obtain ⟨store, v, hcurrent, rfl, -, hrun⟩ :=
    @cmdSet_run _ m path w unlock keys tier days expires hm _ _ _ hkeys hexpiry hopens hpending
  rw [hrun]
  rcases hloop : (setAll tier days due (nonEmpty keys) store).run m v with ⟨r, v'⟩
  cases r with
  | error e =>
    have hkept : ((setAll tier days due (nonEmpty keys) store).run m v).2.fs path = v.fs path :=
      hcurrent.loop_fs (setAll_keeps trivial_invariant)
    rw [hloop] at hkept
    rw [Fx.bind_run_error hloop]
    exact .failed (.of_entries hbefore (hkept ▸ hcurrent.entries))
  | ok store' =>
    obtain ⟨msg, u, hsaves, hcommit⟩ := cmdSet_commit hm hcurrent hloop
    have htask : SetTask path w unlock keys tier expires store.body
        (setItems tier store.body.view (nonEmpty keys)) :=
      ⟨hkeys, explicitExpiry_dated hexpiry, hfs ▸ hopens, rfl, (setAll_eq_ok hloop).1.tiers⟩
    rw [hcommit]
    by_cases hagree : Agree (nonEmpty keys)
    · rw [if_pos hagree]
      exact .stored htask ⟨hbefore, hsaves.after, hsaves.view⟩
        (by rwa [keyValues_setItems]) trivial
    · rw [if_neg hagree]
      exact .unverified htask ⟨hbefore, hsaves.after, hsaves.view⟩
        (by rwa [keyValues_setItems])

/-- Where no value was typed the vault is opened and nothing is stored. -/
theorem cmdSet_ends_idle (hkeys : keys ≠ [])
    (hexpiry : (explicitExpiry expires).run m w = (.ok due, w₁))
    (hopens : unlock.Opens path (w₁.fs path) body) (hpending : nonEmpty keys = []) :
    Ends path w (SetTask path w unlock keys tier expires) (fun _ _ => True)
      ((cmdSet path unlock keys tier days expires).run m w).1
      ((cmdSet path unlock keys tier days expires).run m w).2 := by
  have hfs : w₁.fs path = w.fs path := congrFun (explicitExpiry_fs hexpiry) path
  obtain ⟨store, v, hopen, hcurrent, rfl, -, -⟩ := openVault_found hm hopens
  have hnothing : (cmdSet path unlock keys tier days expires).run m w = (.ok (), v) := by
    have hpending' : ¬(keys.filter fun p => p.2 ≠ []) ≠ [] := not_not.mpr hpending
    unfold cmdSet
    rw [Fx.bind_run_ok (Fx.ensure_run hkeys _ m w), Fx.bind_run_ok hexpiry, Fx.bind_run_ok hopen]
    dsimp only
    rw [Fx.when, if_neg hpending']
    rfl
  rw [hnothing]
  refine .idle (.of_entries (hfs ▸ hopens.entries) hcurrent.entries) trivial ?_
  rintro body items ⟨-, -, -, rfl, -⟩
  rw [hpending]
  rfl

theorem cmdSet_ends :
    Ends path w (SetTask path w unlock keys tier expires) (fun _ _ => True)
      ((cmdSet path unlock keys tier days expires).run m w).1
      ((cmdSet path unlock keys tier days expires).run m w).2 := by
  by_cases hkeys : keys ≠ []
  swap
  · have hfail : (cmdSet path unlock keys tier days expires).run m w =
        (bail "provide at least one key name", w) := by
      unfold cmdSet
      rw [Fx.ensure, if_neg hkeys]
      rfl
    rw [hfail]
    exact .failed (.of_fs rfl)
  rcases hexpiry : (explicitExpiry expires).run m w with ⟨r, w₁⟩
  have hfs : w₁.fs path = w.fs path := congrFun (explicitExpiry_fs hexpiry) path
  cases r with
  | error e =>
    have hfail : (cmdSet path unlock keys tier days expires).run m w = (.error e, w₁) := by
      unfold cmdSet
      rw [Fx.bind_run_ok (Fx.ensure_run hkeys _ m w), Fx.bind_run_error hexpiry]
    rw [hfail]
    exact .failed (.of_fs hfs)
  | ok due =>
    by_cases hopens : ∃ body, unlock.Opens path (w₁.fs path) body
    · obtain ⟨body, hopens⟩ := hopens
      by_cases hpending : nonEmpty keys = []
      · exact cmdSet_ends_idle hm hkeys hexpiry hopens hpending
      · exact cmdSet_ends_pending hm hkeys hexpiry hopens hpending
    · obtain ⟨msg, v, hopen, hkept⟩ := openVault_refused hm (not_exists.mp hopens)
      have hfail :
          (cmdSet path unlock keys tier days expires).run m w = (.error (.err msg), v) := by
        unfold cmdSet
        rw [Fx.bind_run_ok (Fx.ensure_run hkeys _ m w), Fx.bind_run_ok hexpiry,
          Fx.bind_run_error hopen]
      rw [hfail]
      exact .failed (.of_fs (hkept.trans hfs))

end

theorem cmdSet_reaches [Chrono] {path : Path} {w : Disk} {unlock : Unlock}
    {keys : List (Str × Str)} {tier : Option UInt8} {days : Option UInt32} {expires : Option Str}
    {body : VaultBody} {items : List (Str × Str × UInt8)}
    (htask : SetTask path w unlock keys tier expires body items) (hitems : items ≠ []) :
    ∃ m, Machine.Faultless m ∧
      Commits path w body items ((cmdSet path unlock keys tier days expires).run m w).2 := by
  obtain ⟨hkeys, hdated, hopens, rfl, htiers⟩ := htask
  have hpending : nonEmpty keys ≠ [] := by
    rintro hnil
    exact hitems (by simp [setItems, hnil])
  obtain ⟨times, due, hdue⟩ : ∃ times due, Fx.Timed times (explicitExpiry expires) due := by
    cases expires with
    | none => exact ⟨[], none, Fx.Timed.pure⟩
    | some input =>
      obtain ⟨now, due, hdue⟩ := hdated input rfl
      exact ⟨[now], some due, (Fx.Timed.now now).bind
        ((Fx.Timed.ofResult hdue).bind Fx.Timed.pure)⟩
  obtain ⟨times', body', hloop, hend⟩ :=
    @setAll_timed body body tier days due (nonEmpty keys) htiers
  have hne : body' ≠ body := (hend.resolve_left fun h => hpending h.1).ne
  -- The readings of the due date come first, and then those of the loop.
  set m : Machine := .at w.ticks (times ++ times') with hm
  have hexpiry := hdue m w fun i t ht => Machine.at_clock (by
    rw [List.getElem?_append_left (List.getElem?_eq_some_iff.mp ht).1, ht])
  obtain ⟨store, v, hcurrent, rfl, hticks, hrun⟩ := @cmdSet_run _ m path w unlock keys tier days
    expires (Machine.at_faultless _ _) body due _ hkeys hexpiry hopens hpending
  have hset := hloop store rfl m v fun i t ht => by
    rw [hticks, Nat.add_assoc]
    refine Machine.at_clock ?_
    rw [List.getElem?_append_right (by omega), Nat.add_sub_cancel_left, ht]
  obtain ⟨msg, u, hsaves, hcommit⟩ := cmdSet_commit (Machine.at_faultless _ _) hcurrent hset
  refine ⟨m, Machine.at_faultless _ _, body', ?_, hne⟩
  rw [hrun, hcommit]
  exact hsaves.from hopens.entries

/-! ### import-env -/

/-- What `import-env` stores: the first assignment of each new key, or with
`--force` every assignment, of a file that can be read, in a vault that opens. -/
structure ImportEnvTask [JsonText] (path : Path) (w : Disk) (unlock : Unlock) (file : FileArg)
    (pre : Option Str) (tier : UInt8) (force : Bool) (text : Str) (body : VaultBody)
    (items : List (Str × Str × UInt8)) : Prop where
  file : ∃ c, w.fs file.path = some c ∧ c.asText = .ok text
  given : parseDotenv text ≠ []
  opens : unlock.Opens path (w.fs path) body
  stored : items = taken force body.view (importItems (pre.getD []) tier (parseDotenv text))
  tiers : ∀ i ∈ items, TierInRange i.2.2

section

variable [JsonText] {m : Machine} {path : Path} {w : Disk} {unlock : Unlock} {file : FileArg}
  {pre : Option Str} {tier : UInt8} {keep force : Bool}

/-- The files that `import-env` writes besides the vault are not the vault's. -/
structure ImportApart (path : Path) (file : FileArg) (keep : Bool) : Prop where
  gitignore : path ≠ gitignore
  source : keep = false → file.path ∉ vaultFiles path

/-- What `import-env` does with the text it has read. -/
def importEnvText (path : Path) (unlock : Unlock) (file : FileArg) (pre : Option Str) (tier : UInt8)
    (keep force : Bool) (text : Str) : Prog Unit := do
  let pairs := parseDotenv text
  Fx.ensure (pairs ≠ []) s!"no KEY=value pairs found in {String.ofList file.text}"
  let store ← openVault path unlock
  let store ← store.lockAndRefresh
  let (store, expected) ← importPairs (pre.getD []) tier force pairs store
  let store ← store.save
  store.verifyPersisted expected
  addToGitignore file.text
  Fx.when (keep = false) (secureDeleteFile file.path)

theorem cmdImportEnv_eq : cmdImportEnv path unlock file pre tier keep force =
    readSource file (importEnvText path unlock file pre tier keep force) :=
  rfl

variable (hm : m.Faultless)

include hm

/-- A source that can be read is read, and then the vault is opened. -/
theorem cmdImportEnv_reads {c : Contents} {text : Str} (hfile : w.fs file.path = some c)
    (htext : c.asText = .ok text) (hpairs : parseDotenv text ≠ []) : ∃ v, w.Frame ∅ v ∧
      (cmdImportEnv path unlock file pre tier keep force).run m w = (do
        let store ← openVault path unlock
        let store ← store.lockAndRefresh
        let (store, expected) ← importPairs (pre.getD []) tier force (parseDotenv text) store
        let store ← store.save
        store.verifyPersisted expected
        addToGitignore file.text
        Fx.when (keep = false) (secureDeleteFile file.path) : Prog Unit).run m v := by
  obtain ⟨v, hv, hrun⟩ := readSource_run hm hfile htext
    (importEnvText path unlock file pre tier keep force)
  refine ⟨v, hv, ?_⟩
  rw [cmdImportEnv_eq, hrun, importEnvText]
  dsimp only
  rw [Fx.bind_run_ok (Fx.ensure_run hpairs _ m v)]

/-- Up to the loop: the file is read, the vault is open and locked. -/
theorem cmdImportEnv_run {c : Contents} {text : Str} {body : VaultBody}
    (hfile : w.fs file.path = some c) (htext : c.asText = .ok text)
    (hpairs : parseDotenv text ≠ []) (hopens : unlock.Opens path (w.fs path) body) :
    ∃ store v, store.Current path v ∧ store.body = body ∧ v.ticks = w.ticks ∧
      (∀ q ∉ vaultFiles path, v.fs q = w.fs q) ∧
      (cmdImportEnv path unlock file pre tier keep force).run m w = (do
        let (store, expected) ← importPairs (pre.getD []) tier force (parseDotenv text) store
        let store ← store.save
        store.verifyPersisted expected
        addToGitignore file.text
        Fx.when (keep = false) (secureDeleteFile file.path) : Prog Unit).run m v := by
  obtain ⟨w₁, hw₁, hreads⟩ := @cmdImportEnv_reads _ m path w unlock file pre tier keep force hm _ _
    hfile htext hpairs
  rw [← hw₁.fs path (by simp)] at hopens
  obtain ⟨opened, w₂, hopen, hcurrent, hbody, hticks, hothers⟩ := openVault_found hm hopens
  obtain ⟨store, v, hrefresh, hframe, hcurrent', hbody', -⟩ := hcurrent.lockAndRefresh hm
  refine ⟨store, v, hcurrent', hbody'.trans hbody, ?_, fun q hq => ?_, ?_⟩
  · rw [hframe.ticks, hticks, hw₁.ticks]
  · rw [hframe.fs q (by simp), hothers q hq, hw₁.fs q (by simp)]
  · rw [hreads, Fx.bind_run_ok hopen, Fx.bind_run_ok hrefresh]

/-- From the loop on: the values are saved, and verified if they agree, and
then the source is deleted. -/
theorem cmdImportEnv_commit {store store' : VaultStore} {pairs expected : List (Str × Str)}
    {v : Disk} (hcurrent : store.Current path w) (hapart : ImportApart path file keep)
    (hsource : keep = false → (w.fs file.path).isSome = true)
    (hloop : (importPairs (pre.getD []) tier force pairs store).run m w =
      (.ok (store', expected), v)) :
    ∃ msg u, Saves path w store.body
        (taken force store.body.view (importItems (pre.getD []) tier pairs)) store'.body u ∧
      (keep = false → (u.fs file.path = none ↔ Agree expected)) ∧ (do
        let (store, expected) ← importPairs (pre.getD []) tier force pairs store
        let store ← store.save
        store.verifyPersisted expected
        addToGitignore file.text
        Fx.when (keep = false) (secureDeleteFile file.path) : Prog Unit).run m w =
      (if Agree expected then .ok () else bail msg, u) := by
  obtain ⟨hstoring, rfl, htime⟩ := importPairs_eq_ok hloop
  have hcurrent' : store.Current path v := hcurrent.of_fs (by rw [htime.fs])
  obtain ⟨saved, u, hsave, hentries, hothers, msg, u', hverify, hu'⟩ :=
    commit_run hm hcurrent' hstoring
  have hsome : keep = false → (u'.fs file.path).isSome = true := by
    intro hkeep
    rw [hu'.fs file.path (by simp), hothers file.path (hapart.source hkeep), htime.fs,
      hsource hkeep]
  by_cases hagree : Agree (keyValues
      (taken force store.body.view (importItems (pre.getD []) tier pairs)))
  · rw [if_pos hagree] at hverify
    obtain ⟨u₁, hignore, hkept, hthere⟩ := addToGitignore_run hm (w := u') file.text
    have hpath : u₁.fs path = u.fs path := by
      rw [hkept path hapart.gitignore, hu'.fs path (by simp)]
    -- The source is still there, whichever file it is.
    have hpresent : keep = false → ∃ c, u₁.fs file.path = some c := by
      intro hkeep
      refine Option.isSome_iff_exists.mp ?_
      by_cases hq : file.path = gitignore
      · rw [hq, hthere, ← hq, hsome hkeep]
      · rw [hkept file.path hq, hsome hkeep]
    obtain ⟨z, hlast, hz, hgone⟩ : ∃ z : Disk,
        (Fx.when (keep = false) (secureDeleteFile file.path) : Prog Unit).run m u₁ = (.ok (), z) ∧
          z.fs path = u₁.fs path ∧ (keep = false → z.fs file.path = none) := by
      by_cases hkeep : keep = false
      · obtain ⟨c, hc⟩ := hpresent hkeep
        obtain ⟨z, hdelete, hz⟩ := secureDeleteFile_run hm hc
        have hne : path ≠ file.path := fun h => hapart.source hkeep (h ▸ .inl rfl)
        exact ⟨z, by rw [Fx.when, if_pos hkeep, hdelete], by rw [hz, Function.update_of_ne hne],
          fun _ => by rw [hz, Function.update_self]⟩
      · exact ⟨u₁, by rw [Fx.when, if_neg hkeep]; rfl, rfl, fun h => absurd h hkeep⟩
    refine ⟨msg, z, ⟨hcurrent.entries, ?_, hstoring.view⟩,
      fun hkeep => iff_of_true (hgone hkeep) hagree, ?_⟩
    · rw [hz, hpath]
      exact hentries
    · rw [if_pos hagree, Fx.bind_run_ok hloop]
      dsimp only
      rw [Fx.bind_run_ok hsave, Fx.bind_run_ok hverify, Fx.bind_run_ok hignore, hlast]
  · rw [if_neg hagree] at hverify
    refine ⟨msg, u', ⟨hcurrent.entries, ?_, hstoring.view⟩,
      fun hkeep => iff_of_false (fun hnone => ?_) hagree, ?_⟩
    · rw [hu'.fs path (by simp)]
      exact hentries
    · have hthere := hsome hkeep
      rw [hnone] at hthere
      cases hthere
    · rw [Fx.bind_run_ok hloop]
      dsimp only
      rw [Fx.bind_run_ok hsave, Fx.bind_run_error hverify, if_neg hagree]
      rfl

/-- The source is not there, or it is no text, or it has no assignment. -/
theorem cmdImportEnv_unread (h : ¬∃ c text, w.fs file.path = some c ∧ c.asText = .ok text ∧
    parseDotenv text ≠ []) : ∃ e v, w.Frame ∅ v ∧
      (cmdImportEnv path unlock file pre tier keep force).run m w = (.error e, v) := by
  by_cases hread : ∃ c text, w.fs file.path = some c ∧ c.asText = .ok text
  · obtain ⟨c, text, hfile, htext⟩ := hread
    have hpairs : ¬parseDotenv text ≠ [] := fun hpairs => h ⟨c, text, hfile, htext, hpairs⟩
    obtain ⟨v, hv, hrun⟩ := readSource_run hm hfile htext
      (importEnvText path unlock file pre tier keep force)
    refine ⟨.err s!"no KEY=value pairs found in {String.ofList file.text}", v, hv, hrun.trans ?_⟩
    rw [importEnvText, Fx.ensure, if_neg hpairs]
    rfl
  · obtain ⟨e, v, hrun, hv⟩ := readSource_unread hm hread
      (importEnvText path unlock file pre tier keep force)
    exact ⟨e, v, hv, hrun⟩

theorem cmdImportEnv_ends (hapart : ImportApart path file keep) : Ends path w
    (fun body items => ∃ text, ImportEnvTask path w unlock file pre tier force text body items)
    (fun _ _ => True) ((cmdImportEnv path unlock file pre tier keep force).run m w).1
    ((cmdImportEnv path unlock file pre tier keep force).run m w).2 := by
  by_cases hread : ∃ c text, w.fs file.path = some c ∧ c.asText = .ok text ∧ parseDotenv text ≠ []
  swap
  · obtain ⟨e, v, hframe, hrun⟩ := cmdImportEnv_unread hm hread
    rw [hrun]
    exact .failed (.of_fs (hframe.fs path (by simp)))
  obtain ⟨c, text, hfile, htext, hpairs⟩ := hread
  by_cases hopens : ∃ body, unlock.Opens path (w.fs path) body
  · obtain ⟨body, hopens⟩ := hopens
    obtain ⟨store, v, hcurrent, rfl, -, hothers, hrun⟩ :=
      @cmdImportEnv_run _ m path w unlock file pre tier keep force hm _ _ _
        hfile htext hpairs hopens
    rw [hrun]
    rcases hloop : (importPairs (pre.getD []) tier force (parseDotenv text) store).run m v with
      ⟨r, v'⟩
    cases r with
    | error e =>
      have hkept :
          ((importPairs (pre.getD []) tier force (parseDotenv text) store).run m v).2.fs path =
          v.fs path := hcurrent.loop_fs (importPairs_keeps trivial_invariant)
      rw [hloop] at hkept
      rw [Fx.bind_run_error hloop]
      exact .failed (.of_entries hopens.entries (hkept ▸ hcurrent.entries))
    | ok result =>
      obtain ⟨store', expected⟩ := result
      have hsource : keep = false → (v.fs file.path).isSome = true := by
        intro hkeep
        rw [hothers file.path (hapart.source hkeep), hfile]
        rfl
      obtain ⟨msg, u, hsaves, -, hcommit⟩ := cmdImportEnv_commit hm hcurrent hapart hsource hloop
      obtain ⟨hstoring, rfl, -⟩ := importPairs_eq_ok hloop
      have htask : ImportEnvTask path w unlock file pre tier force text store.body
          (taken force store.body.view (importItems (pre.getD []) tier (parseDotenv text))) :=
        ⟨⟨c, hfile, htext⟩, hpairs, hopens, rfl, hstoring.tiers⟩
      have hsaved := hsaves.from hopens.entries
      rw [hcommit]
      by_cases hagree : Agree (keyValues
          (taken force store.body.view (importItems (pre.getD []) tier (parseDotenv text))))
      · rw [if_pos hagree]
        exact .stored ⟨text, htask⟩ hsaved hagree trivial
      · rw [if_neg hagree]
        exact .unverified ⟨text, htask⟩ hsaved hagree
  · obtain ⟨w₁, hw₁, hreads⟩ :=
      @cmdImportEnv_reads _ m path w unlock file pre tier keep force hm _ _ hfile htext hpairs
    have hfs : w₁.fs path = w.fs path := hw₁.fs path (by simp)
    obtain ⟨msg, v, hopen, hkept⟩ := openVault_refused hm (hfs ▸ not_exists.mp hopens)
    rw [hreads, Fx.bind_run_error hopen]
    exact .failed (.of_fs (hkept.trans hfs))

end

theorem cmdImportEnv_reaches [JsonText] {path : Path} {w : Disk} {unlock : Unlock} {file : FileArg}
    {pre : Option Str} {tier : UInt8} {keep force : Bool} (hapart : ImportApart path file keep)
    {text : Str} {body : VaultBody} {items : List (Str × Str × UInt8)}
    (htask : ImportEnvTask path w unlock file pre tier force text body items)
    (hitems : items ≠ []) :
    ∃ m, Machine.Faultless m ∧
      Commits path w body items
        ((cmdImportEnv path unlock file pre tier keep force).run m w).2 := by
  obtain ⟨⟨c, hfile, htext⟩, hpairs, hopens, rfl, htiers⟩ := htask
  obtain ⟨times, body', expected, hloop, hend⟩ := importPairs_timed body htiers
  have hne : body' ≠ body := (hend.resolve_left fun h => hitems h.1).ne
  set m : Machine := .at w.ticks times with hm
  obtain ⟨store, v, hcurrent, rfl, hticks, hothers, hrun⟩ :=
    @cmdImportEnv_run _ m path w unlock file pre tier keep force (Machine.at_faultless _ _) _ _ _
      hfile htext hpairs hopens
  have himport := hloop store rfl m v fun i t ht => by
    rw [hticks]
    exact Machine.at_clock ht
  have hsource : keep = false → (v.fs file.path).isSome = true := by
    intro hkeep
    rw [hothers file.path (hapart.source hkeep), hfile]
    rfl
  obtain ⟨msg, u, hsaves, -, hcommit⟩ :=
    cmdImportEnv_commit (Machine.at_faultless _ _) hcurrent hapart hsource himport
  obtain ⟨-, rfl, -⟩ := importPairs_eq_ok himport
  refine ⟨m, Machine.at_faultless _ _, body', ?_, hne⟩
  rw [hrun, hcommit]
  exact hsaves.from hopens.entries

/-! ### A file to import -/

/-- A file `.env`. -/
def envArg : FileArg :=
  ⟨".env".toList, ⟨".".toList, ".env".toList⟩⟩

/-- A disk with nothing but a file `.env`. -/
def envDisk (text : Str) : Disk :=
  World.single envArg.path (.text text) 0

def pwUnlock : Unlock :=
  ⟨none, none, "pw".toList⟩

/-- A vault with these entries, as it was saved before, and a file `.env`. -/
def vaultDisk (body : VaultBody) (text : Str) : Disk :=
  (envDisk text).put vaultJson
    (.v2 (({ VaultStore.created vaultJson "pw".toList 100 with body } : VaultStore).toFile 103))

theorem vaultDisk_opens (body : VaultBody) (text : Str) :
    pwUnlock.Opens vaultJson ((vaultDisk body text).fs vaultJson) body :=
  .inr (.inr ⟨_, rfl, rfl⟩)

/-- What an import has to store there. -/
theorem ImportEnvTask.of_vaultDisk [JsonText] {body body' : VaultBody} {text text' : Str}
    {pre : Option Str} {tier : UInt8} {force : Bool} {items : List (Str × Str × UInt8)}
    (h : ImportEnvTask vaultJson (vaultDisk body text) pwUnlock envArg pre tier force text' body'
      items) :
    text' = text ∧ body' = body ∧
      items = taken force body.view (importItems (pre.getD []) tier (parseDotenv text)) := by
  obtain rfl : body' = body := h.opens.entries.unique (vaultDisk_opens body text).entries
  obtain ⟨c, hfile, htext⟩ := h.file
  cases hfile
  cases htext
  exact ⟨rfl, rfl, h.stored⟩

/-- A vault with `A` at tier 3 and `B` at tier 4. -/
def twoTiers : VaultBody :=
  ((∅ : VaultBody).insert "A".toList ⟨"0".toList, 3, [], [], none, none⟩).insert
    "B".toList ⟨"9".toList, 4, [], [], none, none⟩

theorem envArg_apart {keep : Bool} : ImportApart vaultJson envArg keep := by
  refine ⟨by decide, fun _ h => ?_⟩
  have hdir : ∀ q ∈ vaultFiles vaultJson, q.dir = "d".toList := by
    rintro q (rfl | rfl | ⟨pid, rfl⟩) <;> rfl
  exact absurd (hdir _ h) (by decide)

end HearthVault
