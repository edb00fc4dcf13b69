/-
HearthVault.Cli.Footprints — the files that each command may change.

A vault at `path` is kept in the files of `vaultFiles path`: the vault file,
the backup of a migration and temporary files. Opening and saving change no
others. Stores are followed by their path, so that a save is known to be one
of the same vault: every rule about a store ends with one `At path`.

The lemmas follow the programs line by line, as `Lib.Footprint` has a rule for
each; what is larger than a vault's own files is a set `S` that contains them.
-/
import HearthVault.Cli.BodyInvariants
import HearthVault.Lib.Footprint

namespace HearthVault

open Files Symbolic Calendar

/-- The destination of `write_private` and its temporary files. -/
def privateFiles (path : Path) : Set Path :=
  {q | q = path ∨ ∃ i, q = tmpPath path i}

/-- The files of a vault. -/
def vaultFiles (path : Path) : Set Path :=
  {q | q = path ∨ q = backupPathFor path ∨ ∃ i, q = tmpPath path i}

/-- What `write_private` touches for the vault file are files of the vault. -/
theorem privateFiles_subset (path : Path) : privateFiles path ⊆ vaultFiles path := by
  rintro q (rfl | ⟨i, rfl⟩)
  · exact .inl rfl
  · exact .inr (.inr ⟨i, rfl⟩)

/-- Temporary names begin with a dot, names of snapshots do not. -/
theorem tmpPath_ne_backupTarget (path vaultPath : Path) (pid : Nat) (now : DateTime) :
    tmpPath path pid ≠ backupTarget vaultPath now := by
  intro h
  have hhead := congrArg (fun p => p.name.head?) h
  simp [tmpPath, backupTarget, Path.withFileName] at hhead

/-- A snapshot has a hyphen where `vault.json` has its dot. -/
theorem backupTarget_ne_vaultJson (now : DateTime) : backupTarget vaultJson now ≠ vaultJson := by
  intro h
  have hchar := congrArg (fun p => p.name[5]?) h
  simp [backupTarget, vaultJson, Path.withFileName] at hchar

/-- A snapshot is none of the files of a vault that is not named like one. -/
theorem backupTarget_notMem_vaultFiles {path : Path} {now : DateTime}
    (h : backupTarget path now ≠ path) : backupTarget path now ∉ vaultFiles path := by
  rintro (heq | heq | ⟨i, heq⟩)
  · exact h heq
  · have hlast := congrArg (fun p => p.name.reverse.head?) heq
    simp [backupTarget, backupPathFor, Path.withFileName] at hlast
  · exact tmpPath_ne_backupTarget path path i now heq.symm

section

variable {S : Set Path} {timed : Bool} {path : Path}

/-! ## The programs of the store -/

/-- The temporary file is removed, created, filled, renamed or cleaned up, and
nothing else is written. -/
theorem writePrivate_footprint (hS : privateFiles path ⊆ S) (bytes : Contents) :
    (writePrivate path bytes).Footprint S timed fun _ => True := by
  have hpath : path ∈ S := hS (.inl rfl)
  have htemp : ∀ i, tmpPath path i ∈ S := fun i => hS (.inr ⟨i, rfl⟩)
  have hclean : ∀ i e, (do
      let _ ← Fx.attempt (Fx.remove (tmpPath path i))
      Fx.ofResult (bail e) : Prog Unit).Footprint S timed fun _ => True :=
    fun i e => (Fx.Footprint.remove (htemp i)).attempt.bind fun _ _ => .ofResult fun _ _ => trivial
  refine Fx.Footprint.pid.bind fun i _ => (Fx.Footprint.remove (htemp i)).attempt.bind fun _ _ => ?_
  refine (Fx.Footprint.createNew (htemp i)).bind fun _ _ => ?_
  have hfill : (do Fx.fill (tmpPath path i) bytes; Fx.sync (tmpPath path i) : Prog Unit).Footprint
      S timed fun _ => True :=
    (Fx.Footprint.fill (htemp i) bytes).bind fun _ _ => .check fun _ => rfl
  -- filled or not, renamed or not, synced or not
  refine hfill.attempt.bind fun r _ => ?_
  cases r with
  | error e => exact hclean i e
  | ok u =>
    refine (Fx.Footprint.rename (htemp i) hpath).attempt.bind fun r _ => ?_
    cases r with
    | error e => exact hclean i e
    | ok u =>
      refine (Fx.Footprint.check fun _ => rfl).attempt.bind fun r _ => ?_
      cases r with
      | error e => exact .pure trivial
      | ok u => exact .check fun _ => rfl

/-- The lock file is no file that anything is said of. -/
theorem acquire_footprint : (acquire path).Footprint S timed fun _ => True :=
  (Fx.Footprint.check fun _ => rfl).bind fun _ _ => .check fun _ => rfl

theorem underLock_footprint {α : Type} {held : Bool} {x : Prog α} {A : α → Prop}
    (hx : x.Footprint S timed A) : (underLock held path x).Footprint S timed A := by
  cases held with
  | true => exact hx
  | false => exact acquire_footprint.bind fun _ _ => hx.releasing

theorem readToString_footprint : (readToString path).Footprint S timed fun _ => True := by
  refine Fx.Footprint.read.bind fun c _ => ?_
  cases c <;> exact .ofResult fun _ _ => trivial

theorem restrictToOwner_footprint : (restrictToOwner path).Footprint S timed fun _ => True :=
  (Fx.Footprint.check fun _ => rfl).bind fun _ _ => .check fun _ => rfl

/-- A migration writes the backup, and then over the vault file. -/
theorem migrateV1ToV2_footprint (hS : vaultFiles path ⊆ S) (passphrase : Str) :
    (migrateV1ToV2 path passphrase).Footprint S timed fun _ => True := by
  have hpath : path ∈ S := hS (.inl rfl)
  have hbackup : backupPathFor path ∈ S := hS (.inr (.inl rfl))
  have hresult : ∀ {α : Type} (r : Result α),
      (Fx.ofResult r : Prog α).Footprint S timed fun _ => True :=
    fun _ => .ofResult fun _ _ => trivial
  refine Fx.Footprint.bind (A := fun _ => True) ?_ fun body _ => ?_
  · refine readToString_footprint.bind fun c _ => (hresult _).bind fun v1 _ => ?_
    refine (hresult _).bind fun body _ => (Fx.Footprint.write hbackup c).bind fun _ _ => ?_
    exact restrictToOwner_footprint.mapErr.bind fun _ _ => .pure trivial
  · refine Fx.Footprint.random.bind fun _ _ => Fx.Footprint.random.bind fun _ _ => ?_
    refine Fx.Footprint.random.bind fun _ _ => Fx.Footprint.random.bind fun _ _ => ?_
    refine (hresult _).bind fun file _ => (Fx.Footprint.write hpath _).bind fun _ _ => ?_
    exact restrictToOwner_footprint.mapErr

namespace VaultStore

/-- A store of the vault. -/
abbrev At (path : Path) (store : VaultStore) : Prop :=
  store.path = path

/-- A save writes the files of its own store. -/
theorem save_footprint (hS : privateFiles path ⊆ S) {store : VaultStore} (h : store.At path) :
    store.save.Footprint S timed (At path) := by
  subst h
  refine underLock_footprint ((Fx.Footprint.when fun _ => ?_).bind fun _ _ => ?_)
  · exact Fx.Footprint.read.attempt.bind fun _ _ => Fx.Footprint.ensure.any
  · refine (Fx.Footprint.check fun _ => rfl).bind fun _ _ => Fx.Footprint.random.bind fun _ _ => ?_
    exact (writePrivate_footprint hS _).mapErr.bind fun _ _ => .pure rfl

theorem lockAndRefresh_footprint {store : VaultStore} (h : store.At path) :
    store.lockAndRefresh.Footprint S timed (At path) := by
  subst h
  refine (Fx.Footprint.when fun _ => acquire_footprint).bind fun _ _ => ?_
  refine readToString_footprint.mapErr.bind fun c _ => .ofResult fun store' h => ?_
  exact (refresh_eq_ok h).1

theorem verifyPersisted_footprint {store : VaultStore} {expected : List (Str × Str)} :
    (store.verifyPersisted expected).Footprint S timed fun _ => True :=
  readToString_footprint.mapErr.bind fun _ _ => .ofResult fun _ _ => trivial

theorem loadV2_footprint (passphrase : Str) :
    (loadV2 path passphrase).Footprint S timed (At path) :=
  readToString_footprint.bind fun _ _ => .ofResult fun _ h => (loadV2Contents_eq_ok h).1

theorem openAtWithWrapKey_footprint (key : Key) :
    (openAtWithWrapKey path key).Footprint S timed (At path) :=
  readToString_footprint.bind fun _ _ => .ofResult fun _ h => (openWrapKeyContents_eq_ok h).1

/-- Creating a vault is saving an empty one. -/
theorem createNew_footprint (hS : privateFiles path ⊆ S) (passphrase : Str) :
    (createNew path passphrase).Footprint S timed (At path) := by
  refine Fx.Footprint.random.bind fun key _ => Fx.Footprint.random.bind fun salt _ => ?_
  refine Fx.Footprint.random.bind fun nonce _ => ?_
  refine Fx.Footprint.bind (A := At path) (.ofResult fun store hstore => ?_) fun store h => ?_
  · simp only [fresh, result_bind_eq_ok] at hstore
    obtain ⟨slot, -, ⟨⟩⟩ := hstore
    rfl
  · exact (save_footprint hS h).bind fun store h => .pure h

/-- Opening may migrate or create, so it may write all the files of a vault. -/
theorem openAtWithPassphrase_footprint (hS : vaultFiles path ⊆ S) (passphrase : Str) :
    (openAtWithPassphrase path passphrase).Footprint S timed (At path) := by
  have hversion : ∀ c, (Fx.ofResult (hasVersion c) : Prog Bool).Footprint S timed fun _ => True :=
    fun _ => .ofResult fun _ _ => trivial
  refine Fx.Footprint.pathExists.bind fun existed _ => ?_
  cases existed with
  | true =>
    refine readToString_footprint.bind fun c _ => (hversion c).bind fun versioned _ => ?_
    refine Fx.Footprint.bind (Fx.Footprint.when fun _ => underLock_footprint ?_)
      fun _ _ => loadV2_footprint passphrase
    refine readToString_footprint.bind fun c _ => (hversion c).bind fun _ _ => ?_
    exact .when fun _ => migrateV1ToV2_footprint hS passphrase
  | false =>
    refine acquire_footprint.bind fun _ _ => Fx.Footprint.pathExists.bind fun existed _ => ?_
    cases existed with
    | true => exact Fx.Footprint.unlock.bind fun _ _ => loadV2_footprint passphrase
    | false =>
        exact (createNew_footprint ((privateFiles_subset path).trans hS) passphrase).releasing

end VaultStore

/-! ## The commands -/

/-- Ways to open that fail have the same footprint as the one that does not. -/
theorem openOr_footprint {A : VaultStore → Prop} {attempt? : Option (Prog VaultStore)}
    {next : Prog VaultStore} (hattempt : ∀ x, attempt? = some x → x.Footprint S timed A)
    (hnext : next.Footprint S timed A) : (openOr attempt? next).Footprint S timed A := by
  cases attempt? with
  | none => exact hnext
  | some x =>
    refine (hattempt x rfl).attempt.bind fun r hr => ?_
    cases r with
    | error e => exact hnext
    | ok store => exact .pure (hr store rfl)

/-- `open_vault`, whichever way it goes. -/
theorem openVault_footprint (hS : vaultFiles path ⊆ S) (unlock : Unlock) :
    (openVault path unlock).Footprint S timed (VaultStore.At path) := by
  refine openOr_footprint (fun x hx => ?_) (openOr_footprint (fun x hx => ?_) ?_)
  · obtain ⟨p, -, rfl⟩ := Option.map_eq_some_iff.mp hx
    exact VaultStore.openAtWithPassphrase_footprint hS p
  · obtain ⟨key, -, rfl⟩ := Option.map_eq_some_iff.mp hx
    exact VaultStore.openAtWithWrapKey_footprint key
  · exact VaultStore.openAtWithPassphrase_footprint hS unlock.passphrase

/-- The store that a change of the body makes. -/
theorem VaultStore.At.onBody {store : VaultStore} (h : store.At path)
    {f : VaultBody → Result VaultBody} :
    (Fx.ofResult (store.onBody f) : Prog VaultStore).Footprint S timed (VaultStore.At path) :=
  .ofResult fun _ h' => (VaultStore.onBody_eq_ok h').1.trans h

/-- Setting a key reads the clock, and that is all. -/
theorem VaultStore.At.set {store : VaultStore} (h : store.At path) {key value : Str}
    {tier : UInt8} : (store.set key value tier).Footprint S true (VaultStore.At path) :=
  Fx.Footprint.now.bind fun _ _ => h.onBody

/-- On the pairs; each may read the clock up to twice. -/
theorem setAll_footprint {tier : Option UInt8} {days : Option UInt32} {due : Option Str}
    {pairs : List (Str × Str)} {store : VaultStore} (h : store.At path) :
    (setAll tier days due pairs store).Footprint S true (VaultStore.At path) := by
  have hrotate : ∀ {store : VaultStore} {key : Str}, store.At path →
      (applyRotation days key store).Footprint S true (VaultStore.At path) := by
    intro store key h
    cases days with
    | none => exact .pure h
    | some days => exact Fx.Footprint.now.bind fun _ _ => h.onBody
  have hexpire : ∀ {store : VaultStore} {key : Str}, store.At path →
      (applyExpiry due key store).Footprint S true (VaultStore.At path) := by
    intro store key h
    cases due with
    | none => exact .pure h
    | some due => exact h.onBody
  induction pairs generalizing store with
  | nil => exact .pure h
  | cons pair rest ih =>
    exact h.set.bind fun _ h => (hrotate h).bind fun _ h => (hexpire h).bind fun _ h => ih h

/-- On the pairs; what is skipped does not read the clock. -/
theorem importPairs_footprint {pre : Str} {tier : UInt8} {force : Bool} {pairs : List (Str × Str)}
    {store : VaultStore} (h : store.At path) :
    (importPairs pre tier force pairs store).Footprint S true fun r => r.1.At path := by
  induction pairs generalizing store with
  | nil => exact .pure h
  | cons pair rest ih =>
    obtain ⟨name, value⟩ := pair
    unfold importPairs
    dsimp only
    split
    · exact ih h
    · exact h.set.bind fun _ h => (ih h).bind fun _ h => .pure h

theorem cmdSet_footprint [Chrono] {unlock : Unlock} {keys : List (Str × Str)}
    {tier : Option UInt8} {days : Option UInt32} {expires : Option Str} :
    (cmdSet path unlock keys tier days expires).Footprint (vaultFiles path) true
      fun _ => True := by
  refine Fx.Footprint.ensure.bind fun _ _ => ?_
  refine Fx.Footprint.bind (A := fun _ => True) ?_ fun expiry _ => ?_
  · cases expires with
    | none => exact .pure trivial
    | some input =>
      exact Fx.Footprint.now.bind fun _ _ => Fx.Footprint.bind (A := fun _ => True)
        (.ofResult fun _ _ => trivial) fun _ _ => .pure trivial
  refine (openVault_footprint subset_rfl unlock).bind fun store h => .when fun _ => ?_
  refine (VaultStore.lockAndRefresh_footprint h).bind fun store h => (setAll_footprint h).bind ?_
  exact fun store h => (VaultStore.save_footprint (privateFiles_subset path) h).bind fun _ _ =>
    VaultStore.verifyPersisted_footprint

theorem cmdRename_footprint {unlock : Unlock} {source target : Str} :
    (cmdRename path unlock source target).Footprint (vaultFiles path) timed fun _ => True := by
  refine (openVault_footprint subset_rfl unlock).bind fun store h => ?_
  refine (VaultStore.lockAndRefresh_footprint h).bind fun store h => h.onBody.bind fun store h => ?_
  exact (VaultStore.save_footprint (privateFiles_subset path) h).bind fun _ _ => .pure trivial

theorem cmdRetier_footprint {unlock : Unlock} {key : Str} {tier : UInt8} :
    (cmdRetier path unlock key tier).Footprint (vaultFiles path) true fun _ => True := by
  refine (openVault_footprint subset_rfl unlock).bind fun store h => ?_
  refine (VaultStore.lockAndRefresh_footprint h).bind fun store h => ?_
  refine Fx.Footprint.bind (A := fun _ => True) (.ofResult fun _ _ => trivial) fun _ _ => ?_
  refine Fx.Footprint.now.bind fun _ _ => h.onBody.bind fun store h => ?_
  exact (VaultStore.save_footprint (privateFiles_subset path) h).bind fun _ _ => .pure trivial

section Import

variable [JsonText]

/-- The file itself is overwritten and removed. -/
theorem secureDeleteFile_footprint (hpath : path ∈ S) :
    (secureDeleteFile path).Footprint S timed fun _ => True := by
  refine (Fx.Footprint.check fun _ => rfl).bind fun size _ => ?_
  refine (Fx.Footprint.check fun _ => rfl).bind fun _ _ => (Fx.Footprint.fill hpath _).bind ?_
  exact fun _ _ => (Fx.Footprint.check fun _ => rfl).bind fun _ _ => .remove hpath

/-- `import`, which also deletes its source. -/
theorem cmdImport_footprint {unlock : Unlock} {file : FileArg} {key : Str} {tier : UInt8} :
    (cmdImport path unlock file key tier).Footprint (insert file.path (vaultFiles path)) true
      fun _ => True := by
  have hS : vaultFiles path ⊆ insert file.path (vaultFiles path) := Set.subset_insert _ _
  refine Fx.Footprint.pathExists.bind fun _ _ => Fx.Footprint.ensure.bind fun _ _ => ?_
  refine Fx.Footprint.bind (A := fun _ => True) ?_ fun text _ => ?_
  · exact Fx.Footprint.read.bind fun _ _ => .ofResult fun _ _ => trivial
  refine Fx.Footprint.ensure.bind fun _ _ => (openVault_footprint hS unlock).bind fun store h => ?_
  refine (VaultStore.lockAndRefresh_footprint h).bind fun store h => h.set.bind fun store h => ?_
  refine (VaultStore.save_footprint ((privateFiles_subset _).trans hS) h).bind fun store _ => ?_
  refine VaultStore.verifyPersisted_footprint.mapErr.bind fun _ _ => ?_
  exact secureDeleteFile_footprint (Set.mem_insert _ _)

end Import

/-- `delete`, but for the snapshot it takes. -/
theorem cmdDelete_footprint {unlock : Unlock} {key : Str} :
    (cmdDelete path unlock key true).Footprint (vaultFiles path) timed fun _ => True := by
  refine (openVault_footprint subset_rfl unlock).bind fun store h => ?_
  refine (VaultStore.lockAndRefresh_footprint h).bind fun store h => ?_
  refine Fx.Footprint.ensure.bind fun _ _ => Fx.Footprint.bind (A := fun _ => True)
    (.when nofun) fun _ _ => ?_
  have hdeleted : VaultStore.At path { store with body := (deleteEntry key store.body).1 } := h
  exact (VaultStore.save_footprint (privateFiles_subset path) hdeleted).bind fun _ _ =>
    .pure trivial

end

end HearthVault
