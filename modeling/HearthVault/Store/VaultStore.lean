/-
HearthVault.Store.VaultStore — the programs of `store.rs`: opening, creating,
refreshing, saving and verifying a vault file.

Each program reads and writes through `Prog` and leaves the computation to
the functions of `Store.Sealing` and `Store.Entries`. Taking the vault lock is
one step on the sidecar path; a store that holds it says so in its `lock`
field, and a lock that is taken for one call only is given back at its end.
-/
import HearthVault.Store.Migrate

namespace HearthVault

open Files Symbolic

/-! ## The vault lock -/

/-- `VaultLock::path_for`. -/
def lockPathFor (path : Path) : Path :=
  path.withFileName (path.name ++ ".lock".toList)

/-- `VaultLock::acquire`. -/
def acquire (path : Path) : Prog Unit := do
  Fx.mkdir path.dir
  Fx.lock (lockPathFor path)

/-- A program that runs under the vault lock and drops it at its end, unless
the lock is held already. -/
def underLock {α : Type} (held : Bool) (path : Path) (x : Prog α) : Prog α :=
  if held then x
  else do
    acquire path
    x.releasing (lockPathFor path)

namespace VaultStore

/-! ## Saving -/

/-- `save`. The store it answers knows the digest of the file it wrote. -/
def save (store : VaultStore) : Prog VaultStore :=
  underLock store.lock store.path do
    Fx.when store.loadedFp.isSome do
      let onDisk ← Fx.attempt (Fx.read store.path)
      Fx.ensure (store.unchanged onDisk.toOption)
        ("vault file changed on disk since it was opened; nothing was written " ++
          "(another process saved first) -- re-run the command")
    Fx.mkdir store.path.dir
    let nonce ← Fx.random
    let file := Contents.v2 (store.toFile nonce)
    Fx.mapErr ("failed to write vault file: " ++ ·) (writePrivate store.path file)
    pure { store with loadedFp := some ⟨file⟩ }

/-- `lock_and_refresh`. -/
def lockAndRefresh (store : VaultStore) : Prog VaultStore := do
  Fx.when (store.lock = false) (acquire store.path)
  let contents ← Fx.mapErr ("cannot re-read vault file under lock: " ++ ·)
    (readToString store.path)
  Fx.ofResult (store.refresh contents)

/-- `verify_persisted`. -/
def verifyPersisted (store : VaultStore) (expected : List (Str × Str)) : Prog Unit := do
  let contents ← Fx.mapErr ("verification could not read vault file: " ++ ·)
    (readToString store.path)
  Fx.ofResult (store.verifyContents expected contents)

/-! ## Opening -/

/-- `load_v2`. -/
def loadV2 (path : Path) (passphrase : Str) : Prog VaultStore := do
  let contents ← readToString path
  Fx.ofResult (loadV2Contents path passphrase contents)

/-- `create_new`, under the vault lock. -/
def createNew (path : Path) (passphrase : Str) : Prog VaultStore := do
  let key ← Fx.random
  let salt ← Fx.random
  let nonce ← Fx.random
  let store ← Fx.ofResult (fresh path passphrase key salt nonce)
  let store ← store.save
  pure { store with lock := false }

/-- `open_at_with_passphrase`. -/
def openAtWithPassphrase (path : Path) (passphrase : Str) : Prog VaultStore := do
  if ← Fx.pathExists path then
    let contents ← readToString path
    let versioned ← Fx.ofResult (hasVersion contents)
    Fx.when (versioned = false) <| underLock false path do
      let again ← readToString path
      let versioned ← Fx.ofResult (hasVersion again)
      Fx.when (versioned = false) (migrateV1ToV2 path passphrase)
    loadV2 path passphrase
  else
    acquire path
    if ← Fx.pathExists path then
      Fx.unlock (lockPathFor path)
      loadV2 path passphrase
    else (createNew path passphrase).releasing (lockPathFor path)

/-- `open_at_with_mnemonic`. -/
def openAtWithMnemonic [Bip39] (path : Path) (mnemonic : Str) : Prog VaultStore := do
  let phrase ← Fx.ofResult (readMnemonic mnemonic)
  let contents ← Fx.mapErr ("cannot read vault file: " ++ ·) (readToString path)
  Fx.ofResult (openMnemonicContents path phrase contents)

/-- `derive_wrap_key`. -/
def deriveWrapKey (path : Path) (passphrase : Str) : Prog Key := do
  let contents ← readToString path
  Fx.ofResult (deriveWrapKeyContents passphrase contents)

/-- `open_at_with_wrap_key`. -/
def openAtWithWrapKey (path : Path) (wrapKey : Key) : Prog VaultStore := do
  let contents ← readToString path
  Fx.ofResult (openWrapKeyContents path wrapKey contents)

/-! ## Rewrapping -/

/-- `generate_recovery_key`, and the phrase to show. -/
def generateRecoveryKey [Bip39] (store : VaultStore) : Prog (VaultStore × Str) := do
  let entropy ← Fx.random
  let phrase := Bip39.print (Bip39.fromEntropy (Octets.random32 entropy))
  let salt ← Fx.random
  let nonce ← Fx.random
  let store ← Fx.ofResult (store.rewrapRecovery phrase salt nonce)
  pure (store, phrase)

/-- `change_passphrase`. -/
def changePassphrase (store : VaultStore) (newPassphrase : Str) : Prog VaultStore := do
  let salt ← Fx.random
  let nonce ← Fx.random
  Fx.ofResult (store.rewrapPassphrase newPassphrase salt nonce)

/-- `share_identity_seed`. -/
def shareIdentitySeed (store : VaultStore) : Key :=
  deriveSubkey store.dataKey "share-identity-x25519".toList

end VaultStore

end HearthVault
