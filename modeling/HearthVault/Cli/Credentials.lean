/-
HearthVault.Cli.Credentials — the commands of `main.rs` about passphrases and
recovery phrases.

`init`, `recover`, `new-recovery-key` and `change-passphrase` are the commands
that make a slot of the vault. What a user types is an input, what they print
of a secret is their answer; a `Task` is one of them or one of the commands
that write entries.
-/
import HearthVault.Cli.Adopt

namespace HearthVault

open Files Symbolic

/-! ## Terminals -/

/-- What `refuse_if_non_tty` looks at; `allowNonTty` is
`HEARTH_VAULT_ALLOW_NON_TTY`. -/
structure Terminal where
  stdoutIsTty : Bool
  stderrIsTty : Bool
  allowNonTty : Bool
  deriving DecidableEq, Repr

/-- `should_refuse_non_tty`. -/
def shouldRefuseNonTty (stdoutIsTty allowOverride : Bool) : Bool :=
  !stdoutIsTty && !allowOverride

/-- `refuse_if_non_tty`. -/
def refuseIfNonTty (terminal : Terminal) (cmd : String) : Prog Unit :=
  let bothAreTty := terminal.stdoutIsTty && terminal.stderrIsTty
  Fx.ensure (shouldRefuseNonTty bothAreTty terminal.allowNonTty = false)
    (s!"`{cmd}` writes a secret value and refuses to run with stdout or stderr redirected " ++
      "(not a terminal). If this is an intentional systemd/CI invocation, set " ++
      "HEARTH_VAULT_ALLOW_NON_TTY=1. If you're an automation or agent that needs the " ++
      "secret's *effect* rather than its raw value, use `hearth-vault exec --prefix " ++
      "<prefix> -- <command>` instead — it injects secrets into a child process's " ++
      "environment and never puts them on a stream you (or anything reading your output) " ++
      "can capture.")

/-! ## The commands -/

section

variable [Bip39]

/-- `cmd_init`, and the recovery phrase it shows. -/
def cmdInit (path : Path) (terminal : Terminal) (passphrase confirm : Str) :
    Prog (Option Str) := do
  refuseIfNonTty terminal "init"
  if ← Fx.pathExists path then pure none
  else
    Fx.mkdir path.dir
    Fx.ensure (passphrase ≠ []) "passphrase cannot be empty"
    Fx.ensure (passphrase = confirm) "passphrases do not match"
    let store ← VaultStore.openAtWithPassphrase path passphrase
    let store ← store.save
    let (store, mnemonic) ← store.generateRecoveryKey
    let _ ← store.save
    pure (some mnemonic)

/-- `cmd_recover`: the phrase that was typed is replaced. -/
def cmdRecover (path : Path) (terminal : Terminal) (mnemonic : Str) : Prog Str := do
  refuseIfNonTty terminal "recover"
  Fx.ensure (← Fx.pathExists path) s!"no vault found at {String.ofList path.display}"
  let store ← VaultStore.openAtWithMnemonic path mnemonic
  let store ← store.lockAndRefresh
  let (store, newMnemonic) ← store.generateRecoveryKey
  let _ ← store.save
  pure newMnemonic

/-- `cmd_new_recovery_key`. -/
def cmdNewRecoveryKey (path : Path) (terminal : Terminal) (passphrase : Str) : Prog Str := do
  refuseIfNonTty terminal "new-recovery-key"
  Fx.ensure (← Fx.pathExists path) s!"no vault found at {String.ofList path.display}"
  let store ← VaultStore.openAtWithPassphrase path passphrase
  let store ← store.lockAndRefresh
  let (store, mnemonic) ← store.generateRecoveryKey
  let _ ← store.save
  pure mnemonic

/-- `cmd_change_passphrase`: `choice` 2 opens with the recovery phrase. -/
def cmdChangePassphrase (path : Path) (unlock : Unlock)
    (choice mnemonic newPass confirm : Str) : Prog Unit := do
  Fx.ensure (← Fx.pathExists path) s!"no vault found at {String.ofList path.display}"
  let store ←
    if Str.trim choice = "2".toList then VaultStore.openAtWithMnemonic path mnemonic
    else openVault path unlock
  Fx.ensure (newPass ≠ []) "passphrase cannot be empty"
  Fx.ensure (newPass = confirm) "passphrases do not match"
  let store ← store.lockAndRefresh
  let store ← store.changePassphrase newPass
  let _ ← store.save

end

/-! ## Tasks -/

/-- A command that writes the vault, with its inputs. -/
inductive Task where
  | command (unlock : Unlock) (cmd : Command)
  | init (terminal : Terminal) (passphrase confirm : Str)
  | recover (terminal : Terminal) (mnemonic : Str)
  | newRecoveryKey (terminal : Terminal) (passphrase : Str)
  | changePassphrase (unlock : Unlock) (choice mnemonic newPass confirm : Str)

/-- The program of a task, and the recovery phrase it shows, if any. -/
def Task.run [Chrono] [JsonText] [Bip39] (path : Path) : Task → Prog (Option Str)
  | .command unlock cmd => do
    cmd.run path unlock
    pure none
  | .init terminal passphrase confirm => cmdInit path terminal passphrase confirm
  | .recover terminal mnemonic => some <$> cmdRecover path terminal mnemonic
  | .newRecoveryKey terminal passphrase => some <$> cmdNewRecoveryKey path terminal passphrase
  | .changePassphrase unlock choice mnemonic newPass confirm => do
    cmdChangePassphrase path unlock choice mnemonic newPass confirm
    pure none

/-- A task, and the machine it runs on. -/
structure Job where
  machine : Machine
  task : Task

/-- Tasks one after another, with what each of them answered. -/
def runJobs [Chrono] [JsonText] [Bip39] (path : Path) :
    List Job → Disk → List (Task × Result (Option Str)) × Disk
  | [], w => ([], w)
  | job :: rest, w =>
    let (r, w) := (job.task.run path).run job.machine w
    let (answers, w) := runJobs path rest w
    ((job.task, r) :: answers, w)

end HearthVault
