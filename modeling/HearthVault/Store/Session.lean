/-
HearthVault.Store.Session — one vault, used through any number of stores.

`Session` is the state of the code: the disk and the stores that are open.
`Vault` is what its users go by, and knows of no slot, salt or file: which
passphrase, recovery phrase and entries are in force, in the vault as it was
last saved and in each open store, and which wrap keys were handed out. An
operation runs its program on some machine (`Session.step`); its users see
the answer and whether the vault file was written, and `Vault.after` is what
they make of that.
-/
import HearthVault.Store.VaultStore

namespace HearthVault

open Files Symbolic

/-! ## Operations -/

/-- What the store with a given handle is asked to do. -/
inductive Op where
  | openPassphrase (passphrase : Str)
  | openMnemonic (mnemonic : Str)
  | openWrapKey (wrapKey : Key)
  | deriveWrapKey (passphrase : Str)
  | edit (f : VaultBody → Result VaultBody)
  | changePassphrase (passphrase : Str)
  | newRecoveryKey
  | refresh
  | save
  | close

/-- What the caller sees of it: a store that is open, a wrap key, a recovery
phrase, an error, or nothing more. -/
inductive Answer where
  | done
  | key (k : Key)
  | phrase (s : Str)
  | failed
  | died
  deriving DecidableEq

/-! ## The code -/

structure Session where
  disk : Disk
  stores : Nat → Option VaultStore

namespace Session

/-- The handle of a store that is opened, or fails to. -/
def opening (s : Session) (i : Nat) : Result VaultStore × Disk → Session × Answer
  | (.ok store, w) => (⟨w, Function.update s.stores i (some store)⟩, .done)
  | (.error _, w) => (⟨w, Function.update s.stores i none⟩, .failed)

/-- A method of an open store. An error leaves the store as it was; a process
that has panicked or was killed has no store any more. -/
def method {α : Type} (s : Session) (m : Machine) (i : Nat) (call : VaultStore → Prog α)
    (store' : α → VaultStore) (answer : α → Answer) : Session × Answer :=
  match s.stores i with
  | none => (s, .failed)
  | some store =>
    match (call store).run m s.disk with
    | (.ok a, w) => (⟨w, Function.update s.stores i (some (store' a))⟩, answer a)
    | (.error (.err _), w) => (⟨w, s.stores⟩, .failed)
    | (.error _, w) => (⟨w, Function.update s.stores i none⟩, .died)

def step [Bip39] (path : Path) (m : Machine) (i : Nat) (s : Session) : Op → Session × Answer
  | .openPassphrase passphrase =>
    s.opening i ((VaultStore.openAtWithPassphrase path passphrase).run m s.disk)
  | .openMnemonic mnemonic =>
    s.opening i ((VaultStore.openAtWithMnemonic path mnemonic).run m s.disk)
  | .openWrapKey wrapKey => s.opening i ((VaultStore.openAtWithWrapKey path wrapKey).run m s.disk)
  | .deriveWrapKey passphrase =>
    match (VaultStore.deriveWrapKey path passphrase).run m s.disk with
    | (.ok k, w) => (⟨w, s.stores⟩, .key k)
    | (.error _, w) => (⟨w, s.stores⟩, .failed)
  | .edit f => s.method m i (fun store => Fx.ofResult (store.onBody f)) id fun _ => .done
  | .changePassphrase passphrase => s.method m i (·.changePassphrase passphrase) id fun _ => .done
  | .newRecoveryKey => s.method m i (·.generateRecoveryKey) Prod.fst fun a => .phrase a.2
  | .refresh => s.method m i (·.lockAndRefresh) id fun _ => .done
  | .save => s.method m i (·.save) id fun _ => .done
  | .close => (⟨s.disk, Function.update s.stores i none⟩, .done)

end Session

/-! ## What its users go by -/

/-- What is in force in a vault. -/
structure InForce where
  passphrase : Str
  phrase : Option Str
  entries : VaultBody
  deriving DecidableEq

/-- `rekeyed` marks the stores whose passphrase was changed and not saved
since. `revoked` are the wrap keys that had been handed out when such a change
was last saved. -/
structure Vault where
  saved : Option InForce
  opened : Nat → Option InForce
  rekeyed : Nat → Bool
  cached : List Key
  revoked : List Key

namespace Vault

def empty : Vault :=
  ⟨none, fun _ => none, fun _ => false, [], []⟩

/-- A store that has just been read, or is gone. -/
def hold (v : Vault) (i : Nat) (s : Option InForce) : Vault :=
  { v with
    opened := Function.update v.opened i s
    rekeyed := Function.update v.rekeyed i false }

/-- A change to what is in force in an open store. -/
def change (v : Vault) (i : Nat) (f : InForce → InForce) : Vault :=
  { v with opened := Function.update v.opened i ((v.opened i).map f) }

/-- The vault file was written. -/
def written (v : Vault) (i : Nat) : Op → Vault
  | .openPassphrase passphrase => { v with saved := some ⟨passphrase, none, ∅⟩ }
  | .save =>
    { v with saved := v.opened i, revoked := if v.rekeyed i then v.cached else v.revoked }
  | _ => v

/-- The operation was answered. -/
def answered (v : Vault) (i : Nat) : Op → Answer → Vault
  | .openPassphrase _, .done | .openMnemonic _, .done | .openWrapKey _, .done
  | .refresh, .done => v.hold i v.saved
  | .openPassphrase _, .failed | .openMnemonic _, .failed | .openWrapKey _, .failed
  | .close, .done => v.hold i none
  | .deriveWrapKey _, .key k => { v with cached := k :: v.cached }
  | .edit f, .done =>
      v.change i fun s => { s with entries := ((f s.entries).toOption.getD s.entries) }
  | .changePassphrase passphrase, .done =>
    { v.change i (fun s => { s with passphrase }) with
      rekeyed := Function.update v.rekeyed i true }
  | .newRecoveryKey, .phrase phrase => v.change i fun s => { s with phrase := some phrase }
  | .save, .done => { v with rekeyed := Function.update v.rekeyed i false }
  | _, .died => v.hold i none
  | _, _ => v

def after (v : Vault) (i : Nat) (op : Op) (wrote : Bool) (answer : Answer) : Vault :=
  (if wrote then v.written i op else v).answered i op answer

end Vault

/-! ## Runs -/

/-- The vault file was replaced between two states. -/
def Session.wrote (path : Path) (s s' : Session) : Bool :=
  s'.disk.fs path ≠ s.disk.fs path

/-- The sessions that any operations lead to from a disk without a vault, each
on a machine of its own, and what their users go by then. -/
inductive Session.Reachable [Bip39] (path : Path) : Session → Vault → Prop
  | start {w : Disk} (h : w.fs path = none) : Reachable path ⟨w, fun _ => none⟩ .empty
  | step {s : Session} {v : Vault} (h : Reachable path s v) (m : Machine) (i : Nat) (op : Op) :
    Reachable path (s.step path m i op).1
      (v.after i op (s.wrote path (s.step path m i op).1) (s.step path m i op).2)

end HearthVault
