/-
HearthVault.Cli.Commands — the commands of `main.rs` that write the vault.

Each command opens the vault, takes the lock and reads the file again,
changes the body, saves, and where it goes on to destroy another copy of a
value first verifies what is on disk. What a user types, what a backend
unseals and what the agent has cached are inputs (`Unlock`); what is only
printed is left out.
-/
import HearthVault.Cli.Dotenv
import HearthVault.Cli.Sinks
import HearthVault.Store.VaultStore

namespace HearthVault

open Files Symbolic Calendar

/-! ## Opening -/

/-- What `open_vault` has at hand: a passphrase a backend unsealed, a wrap key
the agent has cached, and the passphrase that is typed or in the environment. -/
structure Unlock where
  unsealed : Option Str
  agent : Option Key
  passphrase : Str

/-- One way to open that may fall back to the next. -/
def openOr (attempt? : Option (Prog VaultStore)) (next : Prog VaultStore) : Prog VaultStore :=
  match attempt? with
  | none => next
  | some attempt => do
    match ← Fx.attempt attempt with
    | .ok store => pure store
    | .error _ => next

/-- `open_vault`. -/
def openVault (path : Path) (unlock : Unlock) : Prog VaultStore :=
  openOr (unlock.unsealed.map (VaultStore.openAtWithPassphrase path))
    (openOr (unlock.agent.map (VaultStore.openAtWithWrapKey path))
      (VaultStore.openAtWithPassphrase path unlock.passphrase))

namespace VaultStore

/-- `set`, at the present time. -/
def set (store : VaultStore) (key value : Str) (tier : UInt8) : Prog VaultStore := do
  let now ← Fx.now
  Fx.ofResult (store.onBody (setEntry now key value tier))

/-- `set_rotation`, at the present time. -/
def setRotationNow (store : VaultStore) (key : Str) (days : Option UInt32) : Prog VaultStore := do
  let now ← Fx.now
  Fx.ofResult (store.onBody (setRotation now key days))

end VaultStore

/-! ## Files other than the vault -/

/-- A file named on the command line. -/
structure FileArg where
  text : Str
  path : Path
  deriving DecidableEq

section Files

variable [JsonText]

/-- The text `fs::read_to_string` answers. -/
def readText (path : Path) : Prog Str := do
  let contents ← Fx.read path
  Fx.ofResult contents.asText

/-- `secure_delete_file`: overwrite with zeros, then remove. -/
def secureDeleteFile (path : Path) : Prog Unit := do
  let size ← Fx.check (.stat path) fun w => match w.fs path with
    | some contents => .ok contents.bytes.length
    | none => bail "No such file or directory"
  Fx.openExisting path
  Fx.fill path (.text (List.replicate size (Char.ofNat 0)))
  Fx.sync path
  Fx.remove path

def gitignore : Path :=
  ⟨".".toList, ".gitignore".toList⟩

/-- `add_to_gitignore`: best effort, errors are dropped. -/
def addToGitignore (entry : Str) : Prog Unit := do
  if ← Fx.pathExists gitignore then
    match ← Fx.attempt (readText gitignore) with
    | .error _ => pure ()
    | .ok contents =>
      if (Str.lines contents).any fun line => Str.trim line = entry then pure ()
      else
        let sep : Str := if contents = [] ∨ contents.getLast? = some '\n' then [] else ['\n']
        let _ ← Fx.attempt (Fx.write gitignore (.text (contents ++ sep ++ entry ++ ['\n'])))
        pure ()

end Files

/-! ## Snapshots -/

/-- The snapshot `write_backup` writes when no destination is given. -/
def backupTarget (vaultPath : Path) (now : DateTime) : Path :=
  vaultPath.withFileName ("vault-".toList ++ compactStamp now ++ ".json".toList)

/-- `write_backup`, with no destination given. -/
def writeBackup (vaultPath : Path) : Prog Path := do
  Fx.ensure (← Fx.pathExists vaultPath)
    s!"no vault at {String.ofList vaultPath.display} to back up"
  let now ← Fx.now
  let target := backupTarget vaultPath now
  Fx.ensure (¬(← Fx.pathExists target))
    s!"refusing to overwrite existing file {String.ofList target.display}"
  let contents ← Fx.read vaultPath
  Fx.mkdir target.dir
  Fx.mapErr ("failed to write backup: " ++ ·) (writePrivate target contents)
  pure target

/-- `cmd_restore`. -/
def cmdRestore (vaultPath source : Path) (passphrase : Str) : Prog Unit := do
  Fx.ensure (← Fx.pathExists source) s!"no such snapshot: {String.ofList source.display}"
  let _ ← Fx.mapErr ("snapshot did not open, nothing was changed: " ++ ·)
    (VaultStore.openAtWithPassphrase source passphrase)
  let existed ← Fx.pathExists vaultPath
  Fx.when existed do
    let _ ← writeBackup vaultPath
  let contents ← Fx.read source
  acquire vaultPath
  Fx.mapErr ("failed to write restored vault: " ++ ·) (writePrivate vaultPath contents)

/-! ## set, import, rename, retier, delete -/

/-- `--rotate-days`, where it is given; 0 clears the policy. -/
def applyRotation (rotateDays : Option UInt32) (key : Str) (store : VaultStore) :
    Prog VaultStore :=
  match rotateDays with
  | some days => store.setRotationNow key (if days = 0 then none else some days)
  | none => pure store

/-- `--expires`, where it is given. -/
def applyExpiry (expiry : Option Str) (key : Str) (store : VaultStore) : Prog VaultStore :=
  match expiry with
  | some due => Fx.ofResult (store.onBody (setExpiry key (some due)))
  | none => pure store

/-- The loop of `cmd_set`: an explicit tier wins, an existing key keeps its
own, and a new key gets the default. -/
def setAll (tier : Option UInt8) (rotateDays : Option UInt32) (expiry : Option Str) :
    List (Str × Str) → VaultStore → Prog VaultStore
  | [], store => pure store
  | (key, value) :: rest, store => do
    let keyTier := (tier.or (store.body.tierOf key)).getD tierUseOnly
    let store ← store.set key value keyTier
    let store ← applyRotation rotateDays key store
    let store ← applyExpiry expiry key store
    setAll tier rotateDays expiry rest store

/-- The due date of `--expires`. -/
def explicitExpiry [Chrono] (expires : Option Str) : Prog (Option Str) :=
  match expires with
  | some input => do
    let now ← Fx.now
    let due ← Fx.ofResult (parseWhen now input)
    pure (some due)
  | none => pure none

/-- `cmd_set`, with the value typed for each key. -/
def cmdSet [Chrono] (path : Path) (unlock : Unlock) (keys : List (Str × Str))
    (tier : Option UInt8) (rotateDays : Option UInt32) (expires : Option Str) : Prog Unit := do
  Fx.ensure (keys ≠ []) "provide at least one key name"
  let expiry ← explicitExpiry expires
  let store ← openVault path unlock
  let pending := keys.filter fun (_, value) => value ≠ []
  Fx.when (pending ≠ []) do
    let store ← store.lockAndRefresh
    let store ← setAll tier rotateDays expiry pending store
    let store ← store.save
    store.verifyPersisted pending

/-- `cmd_import`. -/
def cmdImport [JsonText] (path : Path) (unlock : Unlock) (file : FileArg) (key : Str)
    (tier : UInt8) : Prog Unit := do
  Fx.ensure (← Fx.pathExists file.path) s!"file not found: {String.ofList file.text}"
  let text ← readText file.path
  let value := Str.trim text
  Fx.ensure (value ≠ []) "file is empty"
  let store ← openVault path unlock
  let store ← store.lockAndRefresh
  let store ← store.set key value tier
  let store ← store.save
  Fx.mapErr (· ++ s!"; source file NOT deleted: {String.ofList file.text}")
    (store.verifyPersisted [(key, value)])
  secureDeleteFile file.path

/-- `cmd_rename`. -/
def cmdRename (path : Path) (unlock : Unlock) (source target : Str) : Prog Unit := do
  let store ← openVault path unlock
  let store ← store.lockAndRefresh
  let store ← Fx.ofResult (store.onBody (renameEntry source target))
  let _ ← store.save

/-- The guard of `cmd_retier`: tier 4 is a one-way door. -/
def retierGuard (key : Str) (prevTier : Option UInt8) (tier : UInt8) : Result Unit :=
  match prevTier with
  | none => bail s!"key not found: {String.ofList key}"
  | some prev =>
    if prev = tierSignOnly ∧ tier ≠ tierSignOnly then
      bail (s!"refusing to lower '{String.ofList key}' from tier {tierSignOnly} (sign-only) " ++
        s!"to tier {tier}.\nTier {tierSignOnly} means the value is never printed and never " ++
        "injected into any process -- a downgrade would undo that with no proof you hold the " ++
        "value.\nIf you genuinely mean to, delete the key and store it again at the tier you " ++
        s!"want:\n\n    hearth-vault delete {String.ofList key}\n" ++
        s!"    hearth-vault set {String.ofList key} --tier {tier}\n")
    else .ok ()

/-- `cmd_retier`. -/
def cmdRetier (path : Path) (unlock : Unlock) (key : Str) (tier : UInt8) : Prog Unit := do
  let store ← openVault path unlock
  let store ← store.lockAndRefresh
  Fx.ofResult (retierGuard key (store.body.tierOf key) tier)
  let now ← Fx.now
  let store ← Fx.ofResult (store.onBody (retierEntry now key tier))
  let _ ← store.save

/-- `cmd_delete`: a snapshot that fails is only a warning. -/
def cmdDelete (path : Path) (unlock : Unlock) (key : Str) (noBackup : Bool) : Prog Unit := do
  let store ← openVault path unlock
  let store ← store.lockAndRefresh
  Fx.ensure (store.body.has key) s!"Key not found: {String.ofList key}"
  Fx.when (noBackup = false) do
    let _ ← Fx.attempt (writeBackup path)
  let store := { store with body := (deleteEntry key store.body).1 }
  let _ ← store.save

/-! ## import-env, receive -/

/-- The loop of `cmd_import_env`: the pairs it stores, in order. -/
def importPairs (pre : Str) (tier : UInt8) (force : Bool) :
    List (Str × Str) → VaultStore → Prog (VaultStore × List (Str × Str))
  | [], store => pure (store, [])
  | (name, value) :: rest, store => do
    let fullKey := pre ++ name
    if value = [] ∨ (store.body.has fullKey ∧ !force) then importPairs pre tier force rest store
    else
      let store ← store.set fullKey value tier
      let (store, expected) ← importPairs pre tier force rest store
      pure (store, (fullKey, value) :: expected)

/-- `cmd_import_env`. -/
def cmdImportEnv [JsonText] (path : Path) (unlock : Unlock) (file : FileArg) (pre : Option Str)
    (tier : UInt8) (keep force : Bool) : Prog Unit := do
  Fx.ensure (← Fx.pathExists file.path) s!"file not found: {String.ofList file.text}"
  let contents ← readText file.path
  let pairs := parseDotenv contents
  Fx.ensure (pairs ≠ []) s!"no KEY=value pairs found in {String.ofList file.text}"
  let store ← openVault path unlock
  let store ← store.lockAndRefresh
  let (store, expected) ← importPairs (pre.getD []) tier force pairs store
  let store ← store.save
  store.verifyPersisted expected
  addToGitignore file.text
  Fx.when (keep = false) (secureDeleteFile file.path)

/-- The name a received key is stored under. -/
def receivedName (pre : Option Str) (key : Str) : Str :=
  match pre with
  | some p => p ++ Str.afterLast '/' key
  | none => key

/-- The loop of `cmd_receive`: the pairs it stores, in order. -/
def receiveAll (pre : Option Str) (force : Bool) :
    List SharedEntry → VaultStore → Prog (VaultStore × List (Str × Str))
  | [], store => pure (store, [])
  | entry :: rest, store => do
    let key := receivedName pre entry.key
    if store.body.has key ∧ !force then receiveAll pre force rest store
    else
      let store ← store.set key entry.value entry.tier
      let (store, stored) ← receiveAll pre force rest store
      pure (store, (key, entry.value) :: stored)

/-- `serde_json::from_slice::<Bundle>`. -/
def parseBundle (raw : Contents) : Result Bundle :=
  match raw with
  | .bundle b => .ok b
  | _ => bail "not a bundle file"

/-- `cmd_receive`. -/
def cmdReceive (path : Path) (unlock : Unlock) (file : Path) (dryRun : Bool) (pre : Option Str)
    (force : Bool) : Prog Unit := do
  let raw ← Fx.mapErr (s!"cannot read bundle {String.ofList file.display}: " ++ ·) (Fx.read file)
  let bundle ← Fx.ofResult (parseBundle raw)
  let store ← openVault path unlock
  let payload ← Fx.ofResult (openBundle bundle store.shareIdentitySeed)
  Fx.when (dryRun = false) do
    let store ← store.lockAndRefresh
    let (store, stored) ← receiveAll pre force payload.entries store
    Fx.when (stored ≠ []) do
      let store ← store.save
      store.verifyPersisted stored

end HearthVault
