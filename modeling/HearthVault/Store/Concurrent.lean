/-
HearthVault.Store.Concurrent — processes that work on one vault file.

A process opens the vault or creates it, and then refreshes, changes and
saves its store in any order; each of these calls is the program of
`Store.VaultStore`, and `System.Step` interleaves their file operations in
every way. A process may end at any moment, by itself, after an error or
killed, and the locks it holds are then dropped. Processes are named by their
process ids, and an id may be used again.

Nothing in `Opened` and `Proc` but the stores and the programs is looked at by
the code: `pending` and `mark` record what has been asked for.
-/
import HearthVault.Lib.Processes
import HearthVault.Store.VaultStore

namespace HearthVault

open Files Symbolic

/-! ## Calls -/

/-- A change to an open store. -/
inductive Mutation where
  | edit (f : VaultBody → Result VaultBody)
  | changePassphrase (passphrase : Str)
  | newRecoveryKey

def Mutation.program [Bip39] (store : VaultStore) : Mutation → Prog VaultStore
  | .edit f => Fx.ofResult (store.onBody f)
  | .changePassphrase passphrase => store.changePassphrase passphrase
  | .newRecoveryKey => do
    let (store, _) ← store.generateRecoveryKey
    pure store

inductive Call where
  | openPassphrase (passphrase : Str)
  | openMnemonic (mnemonic : Str)
  | openWrapKey (wrapKey : Key)
  | refresh
  | change (mutation : Mutation)
  | save

/-- The program of a call, on the store that is open or on none. -/
def Call.program [Bip39] (path : Path) : Call → Option VaultStore → Option (Prog VaultStore)
  | .openPassphrase passphrase, none => some (VaultStore.openAtWithPassphrase path passphrase)
  | .openMnemonic mnemonic, none => some (VaultStore.openAtWithMnemonic path mnemonic)
  | .openWrapKey wrapKey, none => some (VaultStore.openAtWithWrapKey path wrapKey)
  | .refresh, some store => some store.lockAndRefresh
  | .change mutation, some store => some (mutation.program store)
  | .save, some store => some store.save
  | _, _ => none

/-- The mutations that a call leaves to be saved. -/
def Call.pending : Call → List Mutation → List Mutation
  | .change mutation, pending => pending ++ [mutation]
  | _, _ => []

/-! ## Processes -/

/-- An open store, and the mutations made to it since it was read or saved. -/
structure Opened where
  store : VaultStore
  pending : List Mutation

/-- A process is between two calls, in a call, or has ended. `mark` is what it
had written before the call. -/
inductive Proc where
  | idle (o : Option Opened)
  | calling (o : Option Opened) (call : Call) (mark : List (Commit Contents))
      (x : Prog VaultStore)
  | ended

structure System where
  shared : Shared Contents
  procs : Nat → Proc

/-- The machine of a process, on which no operation fails. -/
def process (clock : Nat → Nat → Int) (i : Nat) : Machine where
  pid := i
  clock := clock i
  faults _ _ := none

/-- One step of one process. -/
inductive System.Step [Bip39] (path : Path) (clock : Nat → Nat → Int) : System → System → Prop
  | start {σ : System} {i : Nat} (hi : σ.procs i = .ended) :
    Step path clock σ { σ with procs := Function.update σ.procs i (.idle none) }
  | call {σ : System} {i : Nat} {o : Option Opened} {call : Call} {x : Prog VaultStore}
    (hi : σ.procs i = .idle o) (hx : call.program path (o.map (·.store)) = some x) :
    Step path clock σ
      { σ with procs := Function.update σ.procs i (.calling o call (σ.shared.commits i) x) }
  | exec {σ : System} {i : Nat} {o : Option Opened} {call : Call} {mark : List (Commit Contents)}
    {x x' : Prog VaultStore} {s : Shared Contents} (hi : σ.procs i = .calling o call mark x)
    (hx : x.next path (process clock i) σ.shared = some (x', s)) :
    Step path clock σ ⟨s, Function.update σ.procs i (.calling o call mark x')⟩
  | answer {σ : System} {i : Nat} {o : Option Opened} {call : Call}
    {mark : List (Commit Contents)} {store : VaultStore}
    (hi : σ.procs i = .calling o call mark (.done (.ok store))) :
    Step path clock σ { σ with
      procs := Function.update σ.procs i
        (.idle (some ⟨store, call.pending ((o.map (·.pending)).getD [])⟩)) }
  | exit {σ : System} (i : Nat) :
    Step path clock σ ⟨σ.shared.ended i, Function.update σ.procs i .ended⟩

/-- Nobody has begun; the vault file may be anything. -/
structure System.Initial (σ : System) : Prop where
  owner : ∀ q, σ.shared.owner q = none
  log : σ.shared.log = []
  procs : ∀ i, σ.procs i = .ended

inductive System.Reachable [Bip39] (path : Path) (clock : Nat → Nat → Int) : System → Prop
  | initial {σ : System} (h : σ.Initial) : Reachable path clock σ
  | step {σ σ' : System} (h : Reachable path clock σ) (hstep : Step path clock σ σ') :
    Reachable path clock σ'

/-! ## What a save should write -/

/-- What a mutation may make of a store; a rewrap draws its salt and nonce. -/
def Mutation.Yields [Bip39] : Mutation → VaultStore → VaultStore → Prop
  | .edit f, store, store' => store.onBody f = .ok store'
  | .changePassphrase passphrase, store, store' =>
    ∃ salt nonce, store.rewrapPassphrase passphrase salt nonce = .ok store'
  | .newRecoveryKey, store, store' => ∃ entropy salt nonce, store.rewrapRecovery
      (Bip39.print (Bip39.fromEntropy (Octets.random32 entropy))) salt nonce = .ok store'

/-- What a list of mutations makes of a store, in order. -/
def Yield [Bip39] : List Mutation → VaultStore → VaultStore → Prop
  | [], store, store' => store = store'
  | mutation :: rest, store, store' => ∃ next, mutation.Yields store next ∧ Yield rest next store'

/-- One file is the mutations of the other: its entries and both its slots are
those that the mutations make of what the other holds, under its data key. -/
def Updated [Bip39] (path : Path) (pending : List Mutation) (before after : Option Contents) :
    Prop :=
  ∃ file dataKey loaded store nonce, before = some (.v2 file) ∧
    VaultStore.ofFile path (.v2 file) file dataKey = .ok loaded ∧
    Yield pending loaded store ∧ after = some (.v2 (store.toFile nonce))

end HearthVault
