/-
HearthVault.Cli.MigrateCommand — where `migrate` moves a vault to.

`cmdMigrate` asks `defaultPath` for its target, and that resolver names the
legacy file itself when there is no vault in the platform directory; a target
that exists is refused. So with `HEARTH_VAULT_HOME` unset a legacy vault is
never migrated, and with it set the conversion takes place in the legacy file
while the success is reported for a target that nothing has written
(`migrate_never_moves`). `migrateV1ToV2` writes the legacy file and its backup
only, whatever the target.
-/
import HearthVault.Cli.Footprints
import HearthVault.Cli.Opening

namespace HearthVault

open Files Symbolic

/-! ## The paths -/

/-- The directories of a user: `$HEARTH_VAULT_HOME`, and what `ProjectDirs`
and `BaseDirs` answer. -/
structure UserDirs where
  vaultHome : Option Str
  dataDir : Option Str
  homeDir : Option Str
  deriving DecidableEq, Repr

/-- `vault.json` in a directory. -/
def vaultIn (dir : Str) : Path :=
  ⟨dir, "vault.json".toList⟩

/-- The vault of the versions before this one. -/
def legacyIn (home : Str) : Path :=
  vaultIn (home ++ "/.hearth".toList)

/-- `legacy_vault_path`. -/
def legacyVaultPath (dirs : UserDirs) : Result Path :=
  match dirs.homeDir with
  | some home => .ok (legacyIn home)
  | none => bail "could not determine home directory"

/-- A path, where there is one and a file at it. -/
def ifThere : Option Path → Prog (Option Path)
  | none => pure none
  | some p => do
    let found ← Fx.pathExists p
    pure (if found then some p else none)

/-- `VaultStore::default_path`. -/
def defaultPath (dirs : UserDirs) : Prog Path :=
  match dirs.vaultHome with
  | some dir => pure (vaultIn dir)
  | none => do
    match ← ifThere (dirs.dataDir.map vaultIn) with
    | some platform => pure platform
    | none =>
      match ← ifThere (dirs.homeDir.map legacyIn) with
      | some legacy => pure legacy
      | none =>
        match dirs.dataDir with
        | some dir => pure (vaultIn dir)
        | none => Fx.ofResult (bail "could not determine platform data directory")

/-- The refusal of a target that exists. -/
def alreadyThere (target : Path) : String :=
  s!"a vault already exists at {String.ofList target.display} — refusing to overwrite it. " ++
    "Move it aside first if you really want to replace it."

/-- `cmd_migrate`. It answers the target for which it reports success. -/
def cmdMigrate (dirs : UserDirs) (passphrase : Str) : Prog Path := do
  let legacy ← Fx.ofResult (legacyVaultPath dirs)
  Fx.ensure (← Fx.pathExists legacy)
    s!"no legacy vault found at {String.ofList legacy.display} — nothing to migrate."
  let target ← defaultPath dirs
  Fx.ensure (¬(← Fx.pathExists target)) (alreadyThere target)
  migrateV1ToV2 legacy passphrase
  pure target

/-! ## What a migration should do -/

/-- A v2 vault that a passphrase opens to a body. -/
def HoldsVault (path : Path) (passphrase : Str) (body : VaultBody) (w : Disk) : Prop :=
  ∃ file store, w.fs path = some (.v2 file) ∧
    VaultStore.loadV2Contents path passphrase (.v2 file) = .ok store ∧ store.body = body

/-- The command succeeds, and the platform path holds the vault. -/
def MovesVault (dirs : UserDirs) (passphrase : Str) (body : VaultBody) (m : Machine) (w : Disk) :
    Prop :=
  ∃ target w' dir, (cmdMigrate dirs passphrase).run m w = (.ok target, w') ∧
    dirs.dataDir = some dir ∧ HoldsVault (vaultIn dir) passphrase body w'

/-! ## What it does -/

theorem vaultIn_notMem_vaultFiles {dir legacy : Str} (h : vaultIn dir ≠ vaultIn legacy) :
    vaultIn dir ∉ vaultFiles (vaultIn legacy) := by
  rintro (heq | heq | ⟨i, heq⟩)
  · exact h heq
  · have hlen := congrArg (fun p => p.name.length) heq
    simp [vaultIn, backupPathFor, Path.withFileName] at hlen
  · have hhead := congrArg (fun p => p.name.head?) heq
    simp [vaultIn, tmpPath, Path.withFileName] at hhead

section

variable {dirs : UserDirs} {home passphrase : Str} {m : Machine} {w : Disk} {S : Set Path}
  {timed : Bool}

/-- What `defaultPath` names is called `vault.json`. -/
theorem defaultPath_footprint :
    (defaultPath dirs).Footprint S timed fun p => ∃ dir, p = vaultIn dir := by
  have hthere : ∀ dir?, (ifThere (Option.map vaultIn dir?)).Footprint S timed
      fun p? => ∀ p, p? = some p → ∃ dir, p = vaultIn dir := by
    intro dir?
    cases dir? with
    | none => exact .pure nofun
    | some dir =>
      refine Fx.Footprint.pathExists.bind fun found _ => .pure fun p hp => ?_
      cases found with
      | false => cases hp
      | true => exact ⟨dir, (Option.some.inj hp).symm⟩
  have hlegacy : dirs.homeDir.map legacyIn =
      Option.map vaultIn (dirs.homeDir.map fun home => home ++ "/.hearth".toList) := by
    rw [Option.map_map]
    rfl
  unfold defaultPath
  cases dirs.vaultHome with
  | some dir => exact .pure ⟨dir, rfl⟩
  | none =>
    refine (hthere _).bind fun platform? hplatform => ?_
    cases platform? with
    | some platform => exact .pure (hplatform platform rfl)
    | none =>
      rw [hlegacy]
      refine (hthere _).bind fun legacy? hlegacy => ?_
      cases legacy? with
      | some legacy => exact .pure (hlegacy legacy rfl)
      | none =>
        cases dirs.dataDir with
        | some dir => exact .pure ⟨dir, rfl⟩
        | none => exact .ofResult nofun

/-- The command changes the files of the legacy vault only. -/
theorem cmdMigrate_footprint (hhome : dirs.homeDir = some home) :
    (cmdMigrate dirs passphrase).Footprint (vaultFiles (legacyIn home)) timed fun _ => True := by
  rw [cmdMigrate, legacyVaultPath, hhome, Fx.ofResult_ok_bind]
  refine Fx.Footprint.pathExists.bind fun _ _ => Fx.Footprint.ensure.bind fun _ _ => ?_
  refine defaultPath_footprint.bind fun target _ => Fx.Footprint.pathExists.bind fun _ _ => ?_
  refine Fx.Footprint.ensure.bind fun _ _ => ?_
  exact (migrateV1ToV2_footprint (Set.Subset.refl _) passphrase).bind fun _ _ => .pure trivial

section

variable (hm : m.Faultless)

include hm

theorem ifThere_answers (p? : Option Path) :
    Fx.Answers m (ifThere p?) w (.ok (p?.filter fun p => (w.fs p).isSome)) := by
  cases p? with
  | none => exact ⟨w, rfl, .refl ∅ w⟩
  | some p =>
    refine (Fx.Answers.pathExists hm p).bind fun v _ => ⟨v, ?_, .refl ∅ v⟩
    rw [Fx.pure_run]
    cases hp : (w.fs p).isSome <;> simp [Option.filter, hp]

/-- Without a vault in the platform directory the legacy vault is the default. -/
theorem defaultPath_legacy {dir : Str} {c : Contents} (hvault : dirs.vaultHome = none)
    (hhome : dirs.homeDir = some home) (hdata : dirs.dataDir = some dir)
    (hlegacy : w.fs (legacyIn home) = some c) (hfree : w.fs (vaultIn dir) = none) :
    Fx.Answers m (defaultPath dirs) w (.ok (legacyIn home)) := by
  unfold defaultPath
  rw [hvault, hhome, hdata]
  have hplatform : Fx.Answers m (ifThere ((some dir).map vaultIn)) w (.ok none) := by
    have := ifThere_answers hm (w := w) ((some dir).map vaultIn)
    simpa [Option.filter, hfree] using this
  refine hplatform.bind fun v hv => ?_
  have hthere :
      Fx.Answers m (ifThere ((some home).map legacyIn)) v (.ok (some (legacyIn home))) := by
    have := ifThere_answers hm (w := v) ((some home).map legacyIn)
    simpa [Option.filter, hv.fs _, hlegacy] using this
  exact hthere.bind fun _ _ => Fx.Answers.pure

/-- Without `HEARTH_VAULT_HOME` the legacy vault stands in its own way. -/
theorem cmdMigrate_refused {dir : Str} {c : Contents} (hvault : dirs.vaultHome = none)
    (hhome : dirs.homeDir = some home) (hdata : dirs.dataDir = some dir)
    (hlegacy : w.fs (legacyIn home) = some c) (hfree : w.fs (vaultIn dir) = none) :
    Fx.Answers m (cmdMigrate dirs passphrase) w (bail (alreadyThere (legacyIn home))) := by
  rw [cmdMigrate, legacyVaultPath, hhome, Fx.ofResult_ok_bind]
  refine (Fx.Answers.pathExists hm (legacyIn home)).bind fun v hv => ?_
  rw [hlegacy, Option.isSome_some]
  refine Fx.Answers.bind (a := ()) ⟨v, Fx.ensure_run rfl _ m v, .refl ∅ v⟩ fun v₁ hv₁ => ?_
  have hfs : v₁.fs = w.fs := by
    funext p
    rw [hv₁.fs p (by simp), hv.fs p (by simp)]
  refine (defaultPath_legacy hm hvault hhome hdata (hfs ▸ hlegacy) (hfs ▸ hfree)).bind
    fun v₂ hv₂ => (Fx.Answers.pathExists hm (legacyIn home)).bind fun v₃ hv₃ => ?_
  rw [hv₂.fs _ (by simp), hfs, hlegacy, Option.isSome_some]
  exact Fx.Answers.bind_error Fx.Answers.ofResult

/-- Where success is reported, the vault has been converted where it was, and
there is no file at the target. -/
theorem cmdMigrate_eq_ok {text : Str} {file : VaultFileV1} {body : VaultBody} {target : Path}
    {w' : Disk} (hhome : dirs.homeDir = some home)
    (hlegacy : w.fs (legacyIn home) = some (.v1 text file))
    (hconv : convertV1 file passphrase = .ok body)
    (h : (cmdMigrate dirs passphrase).run m w = (.ok target, w')) :
    w'.fs target = none ∧ HoldsVault (legacyIn home) passphrase body w' := by
  rw [cmdMigrate, legacyVaultPath, hhome, Fx.ofResult_ok_bind] at h
  simp only [Fx.bind_eq_ok, Fx.ensure_eq_ok, Fx.pure_eq_ok, Fx.pathExists_run hm] at h
  obtain ⟨_, _, ⟨⟩, _, _, ⟨_, rfl⟩, target, v, htarget, _, _, ⟨⟩, _, _, ⟨hfree, rfl⟩, _, v',
    hmigrate, rfl, rfl⟩ := h
  have hfs : ∀ p, v.fs p = w.fs p := by
    intro p
    have hread := (@defaultPath_footprint dirs ∅ true).run_fs (m := m)
      (w := w.tick (.stat (legacyIn home))) (Set.notMem_empty p)
    rw [htarget] at hread
    exact hread
  obtain ⟨dir, rfl⟩ := (@defaultPath_footprint dirs ∅ true).run_value htarget
  have hgone : v.fs (vaultIn dir) = none := by
    simpa using hfree
  have hne : vaultIn dir ≠ legacyIn home := by
    intro heq
    rw [heq, hfs, hlegacy] at hgone
    cases hgone
  have hv1 : (v.tick (.stat (vaultIn dir))).fs (legacyIn home) = some (.v1 text file) := by
    rw [World.tick_fs, hfs, hlegacy]
  constructor
  · have hkept := (@migrateV1ToV2_footprint _ true (legacyIn home) (Set.Subset.refl _)
      passphrase).run_fs (m := m) (w := v.tick (.stat (vaultIn dir)))
      (vaultIn_notMem_vaultFiles hne)
    rw [hmigrate] at hkept
    exact hkept.trans hgone
  · obtain ⟨v2, key, v'', hholds, hrun, hafter⟩ := migrateV1ToV2_run hm hv1 hconv
    rw [hmigrate] at hrun
    cases hrun
    exact ⟨v2, _, hafter, (hholds.load_iff (legacyIn home) passphrase _).mpr ⟨rfl, rfl⟩, rfl⟩

end

end

/-- **`migrate` never moves a vault.** Whatever `HEARTH_VAULT_HOME` is, a valid
legacy vault does not get to the platform directory: the command is refused
where the variable is not set, and where it succeeds it has converted the
legacy file in place and reports a target at which there is no file. -/
theorem migrate_never_moves {dirs : UserDirs} {home dir passphrase text : Str}
    {file : VaultFileV1} {body : VaultBody} {m : Machine} {w : Disk} (hm : m.Faultless)
    (hhome : dirs.homeDir = some home) (hdata : dirs.dataDir = some dir)
    (hlegacy : w.fs (legacyIn home) = some (.v1 text file))
    (hconv : convertV1 file passphrase = .ok body) (hfree : w.fs (vaultIn dir) = none) :
    ¬ MovesVault dirs passphrase body m w ∧
      (dirs.vaultHome = none → ∃ w', (cmdMigrate dirs passphrase).run m w =
        (bail (alreadyThere (legacyIn home)), w') ∧ w'.fs = w.fs) ∧
      ∀ target w', (cmdMigrate dirs passphrase).run m w = (.ok target, w') →
        w'.fs target = none ∧ HoldsVault (legacyIn home) passphrase body w' := by
  refine ⟨?_, fun hvault => ?_, fun target w' h => cmdMigrate_eq_ok hm hhome hlegacy hconv h⟩
  · rintro ⟨target, w', dir', hrun, hdata', file', _, hplatform, _⟩
    rw [hdata] at hdata'
    cases hdata'
    have hne : vaultIn dir ≠ legacyIn home := by
      intro heq
      rw [heq, hlegacy] at hfree
      cases hfree
    have hkept := (@cmdMigrate_footprint dirs home passphrase true hhome).run_fs (m := m) (w := w)
      (vaultIn_notMem_vaultFiles hne)
    rw [hrun, hplatform, hfree] at hkept
    cases hkept
  · have hrefused : Fx.Answers m (cmdMigrate dirs passphrase) w
        (bail (alreadyThere (legacyIn home))) :=
      cmdMigrate_refused hm hvault hhome hdata hlegacy hfree
    obtain ⟨w', hrun, hframe⟩ := hrefused
    exact ⟨w', hrun, funext fun p => hframe.fs p (by simp)⟩

/-- The directories of a user `u`. -/
def userDirs (vaultHome : Option Str) : UserDirs where
  vaultHome := vaultHome
  dataDir := some "/home/u/.local/share/hearth-vault".toList
  homeDir := some "/home/u".toList

/-- The disk of that user, with a legacy vault of one entry. -/
def legacyDisk : Disk :=
  World.single (legacyIn "/home/u".toList) (.v1 "v1".toList (singleV1 2)) 2

/-- What the legacy vault holds. -/
def legacyBody : VaultBody :=
  (∅ : VaultBody).insert "k".toList ⟨"value".toList, 2, "2026-01-01T00:00:00+00:00".toList,
    "2026-01-01T00:00:00+00:00".toList, none, none⟩

theorem legacyDisk_legacy :
    legacyDisk.fs (legacyIn "/home/u".toList) = some (.v1 "v1".toList (singleV1 2)) := by
  simp [legacyDisk, World.single]

theorem convertV1_legacy : convertV1 (singleV1 2) "pw".toList = .ok legacyBody := by
  decide

theorem legacyDisk_platform :
    legacyDisk.fs (vaultIn "/home/u/.local/share/hearth-vault".toList) = none := by
  decide

theorem migrate_never_moves_home : ∃ w',
    (cmdMigrate (userDirs (some "/v".toList)) "pw".toList).run .quiet legacyDisk =
        (.ok (vaultIn "/v".toList), w') ∧
      w'.fs (vaultIn "/v".toList) = none ∧
      HoldsVault (legacyIn "/home/u".toList) "pw".toList legacyBody w' := by
  have hok : ((cmdMigrate (userDirs (some "/v".toList)) "pw".toList).run .quiet legacyDisk).1 =
      .ok (vaultIn "/v".toList) := by
    decide
  have hafter : ∀ target w',
      (cmdMigrate (userDirs (some "/v".toList)) "pw".toList).run .quiet legacyDisk =
        (.ok target, w') →
      w'.fs target = none ∧ HoldsVault (legacyIn "/home/u".toList) "pw".toList legacyBody w' :=
    (migrate_never_moves Machine.quiet_faultless rfl rfl legacyDisk_legacy convertV1_legacy
      legacyDisk_platform).2.2
  exact ⟨_, Prod.ext hok rfl, hafter _ _ (Prod.ext hok rfl)⟩

/-- A legacy vault and nothing else: the command is refused. -/
theorem migrate_refuses_legacy :
    ¬ ∀ (dirs : UserDirs) (home dir passphrase text : Str) (file : VaultFileV1) (body : VaultBody)
      (m : Machine) (w : Disk), m.Faultless → dirs.homeDir = some home →
      dirs.dataDir = some dir → w.fs (legacyIn home) = some (.v1 text file) →
      convertV1 file passphrase = .ok body → w.fs (vaultIn dir) = none →
      MovesVault dirs passphrase body m w := by
  intro h
  obtain ⟨target, w', _, hrun, -⟩ := h (userDirs none) _ _ "pw".toList "v1".toList (singleV1 2)
    legacyBody .quiet legacyDisk Machine.quiet_faultless rfl rfl legacyDisk_legacy convertV1_legacy
    legacyDisk_platform
  have hrefused : ((cmdMigrate (userDirs none) "pw".toList).run .quiet legacyDisk).1.toOption =
      none := by
    decide
  rw [hrun] at hrefused
  cases hrefused

end HearthVault
