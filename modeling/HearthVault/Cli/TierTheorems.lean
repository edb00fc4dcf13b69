/-
HearthVault.Cli.TierTheorems — which tiers a vault can hold.

`validate_tier` guards `set` and `retier`, and every other body operation
copies a tier from an entry that has one, so the range of the tiers is a
body invariant (`tiersInRange_invariant`). The one way around it is the
migration of a v1 file, which copies the tiers it finds.
-/
import HearthVault.Cli.BodyInvariants
import HearthVault.Store.MigrateTheorems

namespace HearthVault

open Files Symbolic Calendar

/-! ## Runs of commands -/

/-- One run of a command: the machine, what unlocks the vault, the command. -/
structure Invocation where
  machine : Machine
  unlock : Unlock
  command : Command

section

variable [JsonText] [Chrono]

/-- The disk after a command, whether it succeeds, fails or is killed. -/
def Invocation.exec (path : Path) (inv : Invocation) (w : Disk) : Disk :=
  ((inv.command.run path inv.unlock).run inv.machine w).2

/-- The disks that commands on the vault at `path` lead to, when each step
satisfies `ok`. -/
inductive Reachable (path : Path) (start : Disk → Prop) (ok : Invocation → Disk → Prop) :
    Disk → Prop where
  | start {w : Disk} : start w → Reachable path start ok w
  | step {w : Disk} (inv : Invocation) : Reachable path start ok w → ok inv w →
      Reachable path start ok (inv.exec path w)

/-- Every step keeps the body of the vault file within a body invariant, when
a v1 file it migrates converts to such a body. -/
theorem Reachable.holdsBody {I : VaultBody → Prop} (hI : BodyInvariant I) {path : Path}
    {start : Disk → Prop} {ok : Invocation → Disk → Prop}
    (hstart : ∀ w, start w → ∀ body, sealedBody (w.fs path) = some body → I body)
    (hok : ∀ inv w, ok inv w → ∀ text file passphrase body, w.fs path = some (.v1 text file) →
      passphrase ∈ unlockPassphrases inv.unlock → convertV1 file passphrase = .ok body → I body)
    {w : Disk} (h : Reachable path start ok w) :
    ∀ body, sealedBody (w.fs path) = some body → I body := by
  induction h with
  | start hw => exact hstart _ hw
  | @step v inv hv hinv ih =>
    have hrun : Fx.Keeps inv.machine path _ (inv.command.run path inv.unlock) _ :=
      Command.run_keeps hI inv.unlock inv.command
    have hkeep := hrun v ⟨ih, hok inv v hinv⟩
    rcases hr : (inv.command.run path inv.unlock).run inv.machine v with ⟨r, v'⟩
    rw [hr] at hkeep
    rw [Invocation.exec, hr]
    cases r with
    | ok u => exact hkeep.2.1
    | error e => exact hkeep.1

/-! ## Tiers -/

omit [JsonText] [Chrono] in
theorem tiersInRange_invariant : BodyInvariant VaultBody.TiersInRange where
  empty := VaultBody.tiersInRange_empty
  set hbody h := setEntry_tiersInRange hbody h
  setRotation hbody h := by
    refine modifyEntry_tiersInRange hbody (fun old new hnew => ?_) h
    simp only [result_bind_eq_ok] at hnew
    obtain ⟨_, _, hnew⟩ := hnew
    cases hnew
    rfl
  setExpiry hbody h := modifyEntry_tiersInRange hbody (fun old new hnew => by cases hnew; rfl) h
  rename hbody h := renameEntry_tiersInRange hbody h
  retier hbody h := retierEntry_tiersInRange hbody h
  delete key hbody := hbody.erase key

/-- The command migrates no v1 file with a tier out of range: if a passphrase at
hand decrypts all its entries, they have tiers in range. -/
def MigratesInRange (path : Path) (inv : Invocation) (w : Disk) : Prop :=
  ∀ text file passphrase, w.fs path = some (.v1 text file) →
    passphrase ∈ unlockPassphrases inv.unlock →
    (∀ (name : Str) (old : EncryptedEntryV1), file.entries[name]? = some old →
      ∃ value, V1Value file passphrase old value) →
    ∀ (name : Str) (old : EncryptedEntryV1), file.entries[name]? = some old → TierInRange old.tier

omit [JsonText] [Chrono] in
/-- A v1 file whose tiers are in range converts to such a body. -/
theorem convertV1_tiersInRange {file : VaultFileV1} {passphrase : Str} {body : VaultBody}
    (h : convertV1 file passphrase = .ok body)
    (hfile : ∀ (name : Str) (old : EncryptedEntryV1), file.entries[name]? = some old →
      TierInRange old.tier) : body.TiersInRange := by
  intro key entry hentry
  obtain ⟨old, value, hold, _, rfl⟩ := ((convertV1_eq_ok h).entries key entry).mp hentry
  exact hfile key old hold

/-- There is no v2 vault, or one whose tiers are in range. -/
def StartsInRange (path : Path) (w : Disk) : Prop :=
  ∀ body, sealedBody (w.fs path) = some body → body.TiersInRange

omit [JsonText] [Chrono] in
/-- What is converted was decrypted. -/
theorem Converted.decrypted {file : VaultFileV1} {passphrase : Str} {body : VaultBody}
    (h : Converted file passphrase body) {name : Str} {old : EncryptedEntryV1}
    (hold : file.entries[name]? = some old) : ∃ value, V1Value file passphrase old value := by
  have hsome := h.complete name
  rw [hold, Option.isSome_some] at hsome
  obtain ⟨entry, hentry⟩ := Option.isSome_iff_exists.mp hsome
  obtain ⟨old', value, hold', hvalue, -⟩ := (h.entries name entry).mp hentry
  cases hold.symm.trans hold'
  exact ⟨value, hvalue⟩

/-- In every run that starts with tiers in range, and whose migrations find only
such, every tier in the vault file is in range. -/
theorem reachable_tiersInRange {path : Path} {w : Disk}
    (h : Reachable path (StartsInRange path) (MigratesInRange path) w) {body : VaultBody}
    (hbody : sealedBody (w.fs path) = some body) {key : Str} {entry : BodyEntry}
    (hentry : body[key]? = some entry) : TierInRange entry.tier := by
  refine h.holdsBody tiersInRange_invariant (fun w hw => hw) (fun inv w hinv => ?_) body
    hbody key entry hentry
  intro text file passphrase body hfile hp hconv
  exact convertV1_tiersInRange hconv (hinv text file passphrase hfile hp
    fun _ _ hold => (convertV1_eq_ok hconv).decrypted hold)

end

/-! ## A migration of a tier out of range -/

/-- There is no v2 vault yet. -/
def NoVault (path : Path) (w : Disk) : Prop :=
  ∀ file, w.fs path ≠ some (.v2 file)

/-- The layout of JSON and the dates play no part in the runs below. -/
@[reducible] def noJsonText : JsonText :=
  ⟨fun _ => [], fun _ => []⟩

@[reducible] def noDates : Chrono :=
  ⟨fun _ => none⟩

/-- A run of `rename k j` with the passphrase `pw`. -/
def renameK : Invocation :=
  ⟨.quiet, ⟨none, none, "pw".toList⟩, .rename "k".toList "j".toList⟩

theorem reachable_tiersInRange_rename :
    letI := noJsonText
    letI := noDates
    ∃ body entry, sealedBody ((renameK.exec vaultJson (singleV1Disk 2)).fs vaultJson) = some body ∧
      body["j".toList]? = some entry ∧ TierInRange entry.tier := by
  let _ := noJsonText
  let _ := noDates
  have hkey : ((sealedBody ((renameK.exec vaultJson (singleV1Disk 2)).fs vaultJson)).bind
      fun body => body["j".toList]?).isSome = true := by decide
  obtain ⟨entry, hkey⟩ := Option.isSome_iff_exists.mp hkey
  obtain ⟨body, hbody, hentry⟩ := Option.bind_eq_some_iff.mp hkey
  refine ⟨body, entry, hbody, hentry, reachable_tiersInRange (.step renameK (.start ?_) ?_) hbody
    hentry⟩
  · intro body hsealed
    cases hsealed
  · intro text file passphrase hfile hp _ name old hold
    cases hfile
    simp only [singleV1, Std.ExtTreeMap.getElem?_insert] at hold
    split at hold
    · cases hold
      decide
    · simp at hold

/-- Migrating a v1 file with a tier 0 leaves a vault with a tier 0. -/
theorem migrated_tier_out_of_range :
    ¬∀ (_ : JsonText) (_ : Chrono) (path : Path) (w : Disk),
      Reachable path (NoVault path) (fun _ _ => True) w →
        ∀ body, sealedBody (w.fs path) = some body → ∀ (key : Str) (entry : BodyEntry),
          body[key]? = some entry → TierInRange entry.tier := by
  intro h
  let _ := noJsonText
  let _ := noDates
  have hkey : ((sealedBody ((renameK.exec vaultJson (singleV1Disk 0)).fs vaultJson)).bind
      fun body => body["j".toList]?).map BodyEntry.tier = some 0 := by decide
  obtain ⟨entry, hkey, htier⟩ := Option.map_eq_some_iff.mp hkey
  obtain ⟨body, hbody, hentry⟩ := Option.bind_eq_some_iff.mp hkey
  have hrange := h noJsonText noDates vaultJson _ (.step renameK (.start ?_) trivial) body hbody
    _ _ hentry
  · rw [htier] at hrange
    exact absurd hrange (by decide)
  · intro file h
    cases h

end HearthVault
