/-
HearthVault.Cli.InitMachine — `init-machine`.

A vault is made under a random passphrase, which a backend seals, and its
recovery phrase goes into a bundle. When a step fails the three files are
removed, whoever made them.
-/
import HearthVault.Hsm.OsKeyring
import HearthVault.Share.Bundle

namespace HearthVault

open Files Symbolic

/-- What the commands ask of a backend of `hsm`. -/
structure SecretBackend where
  name : Str
  tier : UInt8
  sealBlob : List UInt8 → Str → Except String (List UInt8)

/-- The bytes of the random 32-byte strings. -/
class Entropy where
  bytes : Nat → Vector UInt8 32

/-- The closure of `cmd_init_machine`: everything that is undone when it fails. -/
def makeMachineVault [Bip39] (vaultPath : Path) (hsm : SecretBackend) (passphrase : Str)
    (recoveryRecipient : Identity) (recoveryOutput : Path) : Prog Unit := do
  let store ← VaultStore.openAtWithPassphrase vaultPath passphrase
  let (store, mnemonic) ← store.generateRecoveryKey
  let _ ← store.save
  let sealedBlob ← Fx.ofResult <|
    match hsm.sealBlob (Str.utf8 passphrase) sealLabel with
    | .ok blob => .ok blob
    | .error e => bail s!"seal failed: {e}"
  writePrivate (sealedPassphrasePath vaultPath) (Contents.ofBlob sealedBlob)
  let esk ← Fx.random
  let nonce ← Fx.random
  let bundle ← Fx.ofResult <| shareSeal
    [("machine/recovery-mnemonic".toList, mnemonic, tierUseOnly)] recoveryRecipient
    (some tierUseOnly)
    (some "headless machine vault recovery; store separately from the host".toList) esk nonce
  writePrivate recoveryOutput (.bundle bundle)

/-- `cmd_init_machine`, with the backend that `resolve_backend` answers. -/
def cmdInitMachine [Bip39] [Entropy] (vaultPath : Path) (backend : Result SecretBackend)
    (recoveryRecipient : Identity) (recoveryOutput : Path) : Prog Unit := do
  Fx.ensure (¬(← Fx.pathExists vaultPath))
    s!"vault already exists at {String.ofList vaultPath.display}"
  Fx.ensure (¬(← Fx.pathExists recoveryOutput))
    (s!"recovery output already exists at {String.ofList recoveryOutput.display}; " ++
      "refusing to overwrite")
  let hsm ← Fx.ofResult backend
  Fx.ensure (hsm.tier ≤ 2)
    ("headless initialization requires a host-protected backend, " ++
      s!"got {String.ofList hsm.name} (tier {hsm.tier})")
  Fx.mkdir vaultPath.dir
  Fx.mkdir recoveryOutput.dir
  let random ← Fx.random
  let passphrase := hexEncode (Entropy.bytes random).toList
  match ← Fx.attempt
      (makeMachineVault vaultPath hsm passphrase recoveryRecipient recoveryOutput) with
  | .error e =>
    let _ ← Fx.attempt (Fx.remove vaultPath)
    let _ ← Fx.attempt (Fx.remove (sealedPassphrasePath vaultPath))
    let _ ← Fx.attempt (Fx.remove recoveryOutput)
    Fx.ofResult (bail e)
  | .ok _ => pure ()

end HearthVault
