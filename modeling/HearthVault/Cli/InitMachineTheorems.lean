/-
HearthVault.Cli.InitMachineTheorems — what a failing `init-machine` destroys.

`SparesOthers` is that it destroys nothing it did not create, wherever it fails
and whenever another process makes the vault. `initMachine_spares_iff` is when
that is so. Where it is not, one of two machines shows it: on `blindMachine`
every file is taken for absent and the three paths are removed; on
`jammedMachine` everything goes well up to one destination, whose temporary
file has been removed by then.

That the command spares others where nothing stands in its way is read off its
footprint, with another process let in before every step. The two machines are
run symbolically, each by one lemma for every stage of the command, of which
the next one takes the state that it leaves (`blind_makeMachineVault` and
`blind_cleanup`, `jammed_open`, `jammed_save` and `jammed_makeMachineVault`).
-/
import HearthVault.Cli.Footprints
import HearthVault.Cli.InitMachine
import HearthVault.Cli.Opening
import HearthVault.Lib.Disturbed
import HearthVault.Store.Interference

namespace HearthVault

open Files Symbolic

/-! ## What it should spare -/

/-- Another process that makes a file of the vault before operation `k`, when
there is none and the vault lock is free. -/
def newcomer (vaultPath : Path) (other : Option Contents) (k : Nat) (s : Scene Contents) : Disk :=
  match other with
  | none => s.world
  | some c =>
    if s.trace.length = k ∧ s.world.fs vaultPath = none ∧
        s.held (lockPathFor vaultPath) = false then
      s.world.put vaultPath c
    else s.world

/-- Every file that was there before a run, or that another process has made
during it, is there after it. -/
def Unharmed (w : Disk) (s : Scene Contents) : Prop :=
  ∀ p c, w.fs p = some c ∨ Appeared w.fs p c s.trace → s.world.fs p = some c

/-- A failing `init-machine` destroys nothing it did not create, wherever it fails. -/
def SparesOthers [Bip39] [Entropy] (vaultPath : Path) (backend : Result SecretBackend)
    (recoveryRecipient : Identity) (recoveryOutput : Path) (other : Option Contents)
    (w : Disk) : Prop :=
  ∀ (m : Machine) (k : Nat) (msg : String) (s : Scene Contents),
    (cmdInitMachine vaultPath backend recoveryRecipient recoveryOutput).runAmid
        (newcomer vaultPath other k) m (.start w) = (.error (.err msg), s) →
      Unharmed w s

/-- The files that `init-machine` may write or remove, once it has a backend: a
file comes with its temporary ones where it may be written. -/
def machineFiles (vaultPath : Path) (hsm : SecretBackend) (passphrase : Str)
    (recoveryRecipient : Identity) (recoveryOutput : Path) : Set Path :=
  {q | q ∈ privateFiles vaultPath ∨ q = sealedPassphrasePath vaultPath ∨ q = recoveryOutput ∨
    (∃ blob, hsm.sealBlob (Str.utf8 passphrase) sealLabel = .ok blob ∧
      (q ∈ privateFiles (sealedPassphrasePath vaultPath) ∨
        (∃ pk, parseIdentity recoveryRecipient = .ok pk) ∧ q ∈ privateFiles recoveryOutput))}

/-! ## Nothing in the way -/

/-- `exists` says no of a file that is not there, whether or not it fails. -/
theorem pathExists_absent {m : Machine} {w : Disk} {p : Path} (h : w.fs p = none) :
    (Fx.pathExists p).run m w = (.ok false, w.tick (.stat p)) ∨
      (Fx.pathExists p).run m w = (.error .killed, w.tick (.stat p)) := by
  rcases hf : m.next w (.stat p) with _ | ⟨left | left⟩ <;>
    simp [Fx.pathExists, Fx.bind_run, Fx.attempt_run, Fx.check, Fx.step_run_eq, hf, caught, h, bail]

section

variable {m : Machine} {vaultPath recoveryOutput p : Path} {hsm : SecretBackend}
  {passphrase : Str} {recoveryRecipient : Identity} {w : Disk}

/-- A vault that is made where there is none touches its own files only. -/
theorem openAtWithPassphrase_spares (h : w.fs vaultPath = none) (hp : p ∉ privateFiles vaultPath) :
    ((VaultStore.openAtWithPassphrase vaultPath passphrase).run m w).2.fs p = w.fs p := by
  rw [VaultStore.openAtWithPassphrase]
  obtain hexists | hkilled := @pathExists_absent m w vaultPath h
  swap
  · rw [Fx.bind_run_error hkilled]
    rfl
  rw [Fx.bind_run_ok hexists, if_neg (by simp)]
  have hlock : ∀ q, ((acquire vaultPath).run m (w.tick (.stat vaultPath))).2.fs q = w.fs q :=
    fun q => acquire_footprint.run_fs (Set.notMem_empty q)
  rcases hrun : (acquire vaultPath).run m (w.tick (.stat vaultPath)) with ⟨_ | _, v⟩
  · rw [hrun] at hlock
    rw [Fx.bind_run_error hrun]
    exact hlock p
  · rw [hrun] at hlock
    rw [Fx.bind_run_ok hrun]
    obtain hagain | hkilled := @pathExists_absent m v vaultPath ((hlock _).trans h)
    · rw [Fx.bind_run_ok hagain, if_neg (by simp), Fx.releasing_run,
        (VaultStore.createNew_footprint subset_rfl passphrase).run_fs hp]
      exact hlock p
    · rw [Fx.bind_run_error hkilled]
      exact hlock p

variable [Bip39]

theorem generateRecoveryKey_footprint {S : Set Path} {store : VaultStore}
    (h : store.At vaultPath) :
    store.generateRecoveryKey.Footprint S true fun r => r.1.At vaultPath := by
  refine Fx.Footprint.random.bind fun entropy _ => Fx.Footprint.random.bind fun salt _ => ?_
  refine Fx.Footprint.random.bind fun nonce _ => Fx.Footprint.bind (A := VaultStore.At vaultPath)
    (.ofResult fun store' hstore => ?_) fun store' h' => .pure h'
  simp only [VaultStore.rewrapRecovery, result_bind_eq_ok] at hstore
  obtain ⟨slot, -, ⟨⟩⟩ := hstore
  exact h

/-- Making the vault touches the files it makes only, when there is no vault. -/
theorem makeMachineVault_spares (h : w.fs vaultPath = none)
    (hp : p ∉ machineFiles vaultPath hsm passphrase recoveryRecipient recoveryOutput) :
    ((makeMachineVault vaultPath hsm passphrase recoveryRecipient recoveryOutput).run m w).2.fs p =
      w.fs p := by
  have hvault : p ∉ privateFiles vaultPath := fun hmem => hp (.inl hmem)
  have hopen := @openAtWithPassphrase_spares m vaultPath p passphrase w h hvault
  rw [makeMachineVault]
  rcases hrun : (VaultStore.openAtWithPassphrase vaultPath passphrase).run m w with ⟨_ | store, v⟩
  · rw [hrun] at hopen
    rw [Fx.bind_run_error hrun]
    exact hopen
  rw [hrun] at hopen
  rw [Fx.bind_run_ok hrun]
  have hfootprint : (VaultStore.openAtWithPassphrase vaultPath passphrase).Footprint
      (vaultFiles vaultPath) true (VaultStore.At vaultPath) :=
    VaultStore.openAtWithPassphrase_footprint subset_rfl passphrase
  have hat : store.At vaultPath := hfootprint.run_value hrun
  refine Eq.trans (Fx.Footprint.run_fs (A := fun _ => True) ?_ hp) hopen
  refine (generateRecoveryKey_footprint hat).bind fun r hr => ?_
  obtain ⟨store', mnemonic⟩ := r
  refine (VaultStore.save_footprint (fun q hq => .inl hq) hr).bind fun _ _ => ?_
  refine Fx.Footprint.bind (A := fun blob =>
    hsm.sealBlob (Str.utf8 passphrase) sealLabel = .ok blob) (.ofResult fun blob hblob => ?_)
    fun blob hblob => ?_
  · cases hseal : hsm.sealBlob (Str.utf8 passphrase) sealLabel with
    | error e => simp [hseal, bail] at hblob
    | ok blob' =>
      rw [hseal] at hblob
      cases hblob
      rfl
  refine (writePrivate_footprint (fun q hq => .inr (.inr (.inr ⟨blob, hblob, .inl hq⟩))) _).bind
    fun _ _ => ?_
  refine Fx.Footprint.random.bind fun esk _ => Fx.Footprint.random.bind fun nonce _ => ?_
  refine Fx.Footprint.bind (A := fun _ => ∃ pk, parseIdentity recoveryRecipient = .ok pk)
    (.ofResult fun bundle hbundle => ?_) fun bundle hpk => ?_
  · simp only [shareSeal, sharePayload, result_bind_eq_ok] at hbundle
    obtain ⟨_, ⟨pk, hpk, -⟩, -⟩ := hbundle
    exact ⟨pk, hpk⟩
  · exact writePrivate_footprint (fun q hq => .inr (.inr (.inr ⟨blob, hblob, .inr ⟨hpk, hq⟩⟩))) _

variable [Entropy]

/-- Where none of its files are, a run leaves all the others as they were. -/
theorem cmdInitMachine_spares (hvault : w.fs vaultPath = none)
    (hp : p ∉ machineFiles vaultPath hsm (hexEncode (Entropy.bytes w.rng).toList)
      recoveryRecipient recoveryOutput) :
    ((cmdInitMachine vaultPath (.ok hsm) recoveryRecipient recoveryOutput).run m w).2.fs p =
      w.fs p := by
  have hkept : ∀ v, w.Frame ∅ v → v.fs p = w.fs p := fun v hv => hv.fs p (by simp)
  have hexists : ∀ q, Fx.Meets m (w.Frame ∅) (Fx.pathExists q) (fun _ => w.Frame ∅)
      fun v => v.fs p = w.fs p :=
    fun q => Fx.Meets.pathExists.weaken (fun _ h => h) (fun _ _ h => h) hkept
  have hmkdir : ∀ dir, Fx.Meets m (w.Frame ∅) (Fx.mkdir dir) (fun _ => w.Frame ∅)
      fun v => v.fs p = w.fs p :=
    fun dir => (Fx.Meets.check fun _ hv => hv.tick _).weaken (fun _ h => h) (fun _ _ h => h) hkept
  have hensure : ∀ {c : Prop} [Decidable c] {msg : String}, Fx.Meets m (w.Frame ∅)
      (Fx.ensure c msg) (fun _ => w.Frame ∅) fun v => v.fs p = w.fs p :=
    fun {_} _ {_} => Fx.Meets.ensure (fun _ hv _ => hv) hkept
  have hremove : ∀ q, q ∈ machineFiles vaultPath hsm (hexEncode (Entropy.bytes w.rng).toList)
      recoveryRecipient recoveryOutput → Fx.Meets m (fun v => v.fs p = w.fs p)
        (Fx.attempt (Fx.remove q)) (fun _ v => v.fs p = w.fs p) fun v => v.fs p = w.fs p :=
    fun q hq => Fx.Meets.weaken ((Fx.Footprint.remove hq).attempt.keeps hp (K := (· = w.fs p)))
      (fun _ h => h) (fun _ _ h => h.2) fun _ h => h
  suffices h : Fx.Meets m (w.Frame ∅)
      (cmdInitMachine vaultPath (.ok hsm) recoveryRecipient recoveryOutput)
      (fun _ v => v.fs p = w.fs p) (fun v => v.fs p = w.fs p) by
    have h := h w (.refl ∅ w)
    rcases hrun : (cmdInitMachine vaultPath (.ok hsm) recoveryRecipient recoveryOutput).run m w with
      ⟨_ | _, v⟩ <;> rw [hrun] at h <;> exact h
  refine (hexists _).bind fun _ => hensure.bind fun _ => (hexists _).bind fun _ => ?_
  refine hensure.bind fun _ => ?_
  rw [Fx.ofResult_ok_bind]
  refine hensure.bind fun _ => (hmkdir _).bind fun _ => (hmkdir _).bind fun _ => ?_
  refine Fx.Meets.random ?_
  refine Fx.Meets.bind (Q := fun _ v => v.fs p = w.fs p) ?_ fun r => ?_
  · intro v hv
    have hmake := @makeMachineVault_spares m vaultPath recoveryOutput p hsm
      (hexEncode (Entropy.bytes w.rng).toList) recoveryRecipient v _
      ((hv.fs vaultPath (by simp)).trans hvault) hp
    rw [Fx.attempt_run]
    rcases hrun : (makeMachineVault vaultPath hsm (hexEncode (Entropy.bytes w.rng).toList)
      recoveryRecipient recoveryOutput).run m v with ⟨r, v'⟩
    rw [hrun] at hmake
    have hfile : v'.fs p = w.fs p := hmake.trans (hv.fs p (by simp))
    rcases r with (_ | _ | _) | _ <;> exact hfile
  · cases r with
    | ok u => exact Fx.Meets.pure fun _ h => h
    | error e =>
      refine (hremove _ (.inl (.inl rfl))).bind fun _ => ?_
      refine (hremove _ (.inr (.inl rfl))).bind fun _ => ?_
      exact (hremove _ (.inr (.inr (.inl rfl)))).bind fun _ => Fx.Meets.ofResult fun _ h => h

/-- Without a backend that protects the host nothing is touched. -/
theorem cmdInitMachine_refuses {backend : Result SecretBackend}
    (h : ∀ hsm, backend = .ok hsm → ¬hsm.tier ≤ 2) :
    (cmdInitMachine vaultPath backend recoveryRecipient recoveryOutput).Footprint ∅ true
      fun _ => False := by
  refine Fx.Footprint.pathExists.bind fun _ _ => Fx.Footprint.ensure.bind fun _ _ => ?_
  refine Fx.Footprint.pathExists.bind fun _ _ => Fx.Footprint.ensure.bind fun _ _ => ?_
  refine Fx.Footprint.bind (A := fun hsm => backend = .ok hsm) (.ofResult fun _ hsm => hsm)
    fun hsm hbackend => ?_
  exact Fx.Footprint.ensure.bind fun _ htier => absurd htier (h hsm hbackend)

end

/-! ## Failing blindly -/

/-- A machine whose `exists` and locks fail. -/
def blindMachine : Machine :=
  { Machine.quiet with
    faults op _ := match op with
      | .stat _ | .lock _ => some (.fail [])
      | _ => none }

section Blind

variable {others : Scene Contents → Disk} {P Q : Scene Contents → Prop}
  {E : Halt → Scene Contents → Prop}

theorem blind_pathExists {q : Path}
    (hQ : ∀ s, P s → Q (s.did (.stat q) (others s) false ((others s).tick (.stat q)))) :
    Fx.Amid others blindMachine P (Fx.pathExists q) (fun b s => Q s ∧ b = false) E :=
  fun s hs => ⟨hQ s hs, rfl⟩

theorem blind_mkdir {dir : Str}
    (hQ : ∀ s, P s → Q (s.did (.mkdir dir) (others s) true ((others s).tick (.mkdir dir)))) :
    Fx.Amid others blindMachine P (Fx.mkdir dir) (fun _ => Q) E :=
  fun s hs => hQ s hs

theorem blind_acquire {path : Path} (hmkdir : ∀ s, P s → P (s.did (.mkdir path.dir) (others s) true
      ((others s).tick (.mkdir path.dir))))
    (hlock : ∀ s, P s → P (s.did (.lock (lockPathFor path)) (others s) false
      ((others s).tick (.lock (lockPathFor path))))) :
    Fx.Amid others blindMachine P (acquire path) (fun _ _ => False)
      (fun e s => e = .err "I/O error" ∧ P s) :=
  fun s hs => ⟨rfl, hlock _ (hmkdir s hs)⟩

/-- The file is gone, and those that were gone are. -/
theorem blind_remove {q : Path} (hothers : ∀ s, P s → others s = s.world)
    (hP : ∀ s ok w', P s → (∀ r, s.world.fs r = none → w'.fs r = none) →
      P (s.did (.remove q) (others s) ok w')) :
    Fx.Amid others blindMachine P (Fx.attempt (Fx.remove q))
      (fun _ s => P s ∧ s.world.fs q = none) E := by
  have hremove : Fx.Amid others blindMachine P (Fx.remove q) (fun _ s => P s ∧ s.world.fs q = none)
      fun e s => (∃ msg, e = .err msg) ∧ P s ∧ s.world.fs q = none := by
    refine Fx.Amid.step (fun s hs => ?_) fun s _ left => trivial
    have hdid := fun ok w' => hP s ok w' hs
    rw [hothers s hs] at hdid ⊢
    cases hq : (s.world.tick (.remove q)).fs q with
    | none => exact ⟨⟨_, rfl⟩, hdid false _ fun _ hr => hr, hq⟩
    | some c =>
      refine ⟨hdid true _ fun r hr => ?_, by simp [Scene.did]⟩
      by_cases hrq : r = q
      · simp [hrq]
      · simp [Function.update_of_ne hrq, hr]
  refine hremove.attempt.weaken (fun _ h => h) (fun r s h => ?_) fun e s h => ?_
  · cases r with
    | ok u => exact h
    | error e => exact h.2
  · obtain ⟨⟨⟨msg, hmsg⟩, -⟩, hnot⟩ := h
    exact absurd hmsg (hnot msg)

theorem newcomer_keeps {vaultPath : Path} {other : Option Contents} {k : Nat}
    (s : Scene Contents) (p : Path) (c : Contents) (h : s.world.fs p = some c) :
    (newcomer vaultPath other k s).fs p = some c := by
  unfold newcomer
  cases other with
  | none => exact h
  | some d =>
    dsimp only
    split
    · rename_i hnow
      have hne : p ≠ vaultPath := by
        rintro rfl
        rw [hnow.2.1] at h
        cases h
      rw [World.put_fs, Function.update_of_ne hne, h]
    · exact h

/-- A process that acts before the second operation does nothing later. -/
theorem newcomer_late {vaultPath : Path} {other : Option Contents} {s : Scene Contents}
    (h : 2 ≤ s.trace.length) : newcomer vaultPath other 1 s = s.world := by
  unfold newcomer
  cases other with
  | none => rfl
  | some c => exact if_neg fun hnow => by omega

/-- The machine has looked for the vault, and nothing else. -/
def LookedOnce (w : Disk) (s : Scene Contents) : Prop :=
  s.trace.length = 1 ∧ leftBy w.fs s.trace = w.fs ∧ s.world.fs = w.fs ∧ s.held = fun _ => false

/-- The machine has looked twice, and the vault of the other process, if any, has
appeared. -/
def HasCome (vaultPath : Path) (other : Option Contents) (w : Disk)
    (trace : List (Event Contents)) : Prop :=
  2 ≤ trace.length ∧
    ∀ c, other = some c → w.fs vaultPath = none → Appeared w.fs vaultPath c trace

section Init

variable {vaultPath recoveryOutput : Path} {other : Option Contents} {w : Disk}

theorem HasCome.cons {trace : List (Event Contents)} (h : HasCome vaultPath other w trace)
    (e : Event Contents) : HasCome vaultPath other w (e :: trace) :=
  ⟨Nat.le_succ_of_le h.1, fun c hc hw => .inr (h.2 c hc hw)⟩

theorem HasCome.late {s : Scene Contents} (h : HasCome vaultPath other w s.trace) :
    newcomer vaultPath other 1 s = s.world :=
  newcomer_late h.1

/-- The first look, before the other process acts. -/
theorem blind_firstLook {q : Path} :
    Fx.Amid (newcomer vaultPath other 1) blindMachine (fun s => s = .start w) (Fx.pathExists q)
      (fun b s => LookedOnce w s ∧ b = false) E := by
  refine blind_pathExists fun s hs => ?_
  subst hs
  have hstart : newcomer vaultPath other 1 (.start w) = w := by
    unfold newcomer
    cases other with
    | none => rfl
    | some c => exact if_neg fun hnow => absurd hnow.1 (by simp [Scene.start])
  rw [hstart]
  exact ⟨rfl, rfl, rfl, rfl⟩

/-- The second look: the other process acts before it. -/
theorem blind_secondLook {q : Path} :
    Fx.Amid (newcomer vaultPath other 1) blindMachine (LookedOnce w) (Fx.pathExists q)
      (fun b s => HasCome vaultPath other w s.trace ∧ b = false) E := by
  refine blind_pathExists fun s hs => ?_
  obtain ⟨hlength, hleft, hfs, hheld⟩ := hs
  refine ⟨by simp [Scene.did, hlength], fun c hc hnone => .inl ⟨?_, ?_⟩⟩
  · rw [hleft, hnone]
  · rw [hc]
    unfold newcomer
    dsimp only
    rw [if_pos ⟨hlength, by rw [hfs, hnone], by rw [hheld]⟩]
    simp

/-- The vault is not created: its lock cannot be had. -/
theorem blind_makeMachineVault [Bip39] {hsm : SecretBackend} {passphrase : Str}
    {recoveryRecipient : Identity} :
    Fx.Amid (newcomer vaultPath other 1) blindMachine
      (fun s => HasCome vaultPath other w s.trace)
      (Fx.attempt
        (makeMachineVault vaultPath hsm passphrase recoveryRecipient recoveryOutput))
      (fun r s => HasCome vaultPath other w s.trace ∧ ∃ e, r = .error e) E := by
  have hopen : Fx.Amid (newcomer vaultPath other 1) blindMachine
      (fun s => HasCome vaultPath other w s.trace)
      (VaultStore.openAtWithPassphrase vaultPath passphrase) (fun _ _ => False)
      (fun e s => e = .err "I/O error" ∧ HasCome vaultPath other w s.trace) := by
    refine (blind_pathExists (Q := fun s => HasCome vaultPath other w s.trace)
      fun s hs => hs.cons _).bind fun existed => Fx.Amid.fact fun hexisted => ?_
    rw [hexisted, if_neg (by simp)]
    exact (blind_acquire (P := fun s => HasCome vaultPath other w s.trace) (fun s hs => hs.cons _)
      fun s hs => hs.cons _).bind fun _ _ h => h.elim
  have hmake : Fx.Amid (newcomer vaultPath other 1) blindMachine
      (fun s => HasCome vaultPath other w s.trace)
      (makeMachineVault vaultPath hsm passphrase recoveryRecipient recoveryOutput)
      (fun _ _ => False) (fun e s => e = .err "I/O error" ∧ HasCome vaultPath other w s.trace) :=
    hopen.bind fun _ _ h => h.elim
  refine hmake.attempt.weaken (fun _ h => h) (fun r s h => ?_) fun e s h => ?_
  · cases r with
    | ok u => exact h.elim
    | error e => exact ⟨h.2, e, rfl⟩
  · exact absurd h.1.1 (h.2 _)

/-- What the failed command leaves. -/
def RemovedAll (vaultPath recoveryOutput : Path) (other : Option Contents) (w : Disk)
    (s : Scene Contents) : Prop :=
  ((HasCome vaultPath other w s.trace ∧ s.world.fs vaultPath = none) ∧
    s.world.fs (sealedPassphrasePath vaultPath) = none) ∧ s.world.fs recoveryOutput = none

theorem blind_cleanup {msg : String} :
    Fx.Amid (newcomer vaultPath other 1) blindMachine
      (fun s => HasCome vaultPath other w s.trace)
      (do
        let _ ← Fx.attempt (Fx.remove vaultPath)
        let _ ← Fx.attempt (Fx.remove (sealedPassphrasePath vaultPath))
        let _ ← Fx.attempt (Fx.remove recoveryOutput)
        Fx.ofResult (bail msg) : Prog Unit) (fun _ _ => False)
      (fun e s => (∃ msg, e = .err msg) ∧ RemovedAll vaultPath recoveryOutput other w s) := by
  refine (blind_remove (fun s hs => hs.late) fun s ok w' hs _ => hs.cons _).bind fun _ => ?_
  refine (blind_remove (fun s hs => hs.1.late) fun s ok w' hs hgone =>
    ⟨hs.1.cons _, hgone _ hs.2⟩).bind fun _ => ?_
  refine (blind_remove (fun s hs => hs.1.1.late) fun s ok w' hs hgone =>
    ⟨⟨hs.1.1.cons _, hgone _ hs.1.2⟩, hgone _ hs.2⟩).bind fun _ => ?_
  exact Fx.Amid.ofResult fun s hs => ⟨⟨msg, rfl⟩, hs⟩

theorem ensure_bind {c : Prop} [Decidable c] {α : Type} {msg : String} {f : Unit → Prog α}
    (hc : c) : (Fx.ensure c msg >>= f) = f () := by
  rw [Fx.ensure, if_pos hc, Fx.ofResult_ok_bind]

/-- On a blind machine `init-machine` takes every file for absent, fails at the
vault lock and removes its three paths. -/
theorem cmdInitMachine_blind [Bip39] [Entropy] {hsm : SecretBackend}
    {recoveryRecipient : Identity} (w : Disk) (htier : hsm.tier ≤ 2) :
    ∃ msg s, (cmdInitMachine vaultPath (.ok hsm) recoveryRecipient recoveryOutput).runAmid
        (newcomer vaultPath other 1) blindMachine (.start w) = (.error (.err msg), s) ∧
      (∀ c, other = some c → w.fs vaultPath = none → Appeared w.fs vaultPath c s.trace) ∧
      s.world.fs vaultPath = none ∧ s.world.fs (sealedPassphrasePath vaultPath) = none ∧
      s.world.fs recoveryOutput = none := by
  have h : Fx.Amid (newcomer vaultPath other 1) blindMachine (fun s => s = .start w)
      (cmdInitMachine vaultPath (.ok hsm) recoveryRecipient recoveryOutput) (fun _ _ => False)
      (fun e s => (∃ msg, e = .err msg) ∧ RemovedAll vaultPath recoveryOutput other w s) := by
    refine blind_firstLook.bind fun existed => Fx.Amid.fact fun hexisted => ?_
    rw [hexisted, ensure_bind (by simp)]
    refine blind_secondLook.bind fun taken => Fx.Amid.fact fun htaken => ?_
    rw [htaken, ensure_bind (by simp), Fx.ofResult_ok_bind, ensure_bind htier]
    refine (blind_mkdir (Q := fun s => HasCome vaultPath other w s.trace)
      fun s hs => hs.cons _).bind fun _ => ?_
    refine (blind_mkdir (Q := fun s => HasCome vaultPath other w s.trace)
      fun s hs => hs.cons _).bind fun _ => ?_
    refine Fx.Amid.bind (Q := fun _ s => HasCome vaultPath other w s.trace)
      (Fx.Amid.query fun s hs => hs) fun random => ?_
    refine blind_makeMachineVault.bind fun r => Fx.Amid.fact fun hr => ?_
    obtain ⟨e, rfl⟩ := hr
    exact blind_cleanup
  have h := h (.start w) rfl
  rcases hrun : (cmdInitMachine vaultPath (.ok hsm) recoveryRecipient recoveryOutput).runAmid
    (newcomer vaultPath other 1) blindMachine (.start w) with ⟨_ | _, s⟩
  · rw [hrun] at h
    obtain ⟨⟨msg, rfl⟩, ⟨⟨⟨-, happeared⟩, hvault⟩, hsealed⟩, houtput⟩ := h
    exact ⟨msg, s, rfl, happeared, hvault, hsealed, houtput⟩
  · rw [hrun] at h
    exact h.elim

end Init

end Blind

/-! ## Failing at one destination -/

/-- A process whose temporary file for `destination` cannot be created. -/
def jammedMachine (destination : Path) (pid : Nat) : Machine :=
  { Machine.quiet with
    pid
    faults op _ := if op = .createNew (tmpPath destination pid) then some (.fail []) else none }

def Machine.quietAs (pid : Nat) : Machine :=
  { Machine.quiet with pid }

section Jammed

variable {destination vaultPath : Path} {pid : Nat} {w : Disk}

theorem jammed_run {α : Type} {S : Set Path} {A : α → Prop} {x : Prog α}
    (hx : x.Footprint S true A) (h : tmpPath destination pid ∉ S) :
    x.run (jammedMachine destination pid) w = x.run (Machine.quietAs pid) w := by
  refine hx.run_faults (m := Machine.quietAs pid) fun op hop => ?_
  have hne : op ≠ .createNew (tmpPath destination pid) := by
    rintro rfl
    exact h (hop _ (by simp [FileOp.writes]))
  funext _
  exact if_neg hne

/-- The file is gone, and those that were gone are. -/
theorem jammed_remove (q : Path) (w : Disk) : ∃ r v, (Fx.attempt (Fx.remove q)).run
    (jammedMachine destination pid) w = (.ok r, v) ∧ v.fs q = none ∧
      ∀ p, w.fs p = none → v.fs p = none := by
  have hnone : (jammedMachine destination pid).next w (.remove q) = none := by
    simp [Machine.next, jammedMachine]
  rw [Fx.attempt_run, Fx.remove, Fx.step_of_none hnone]
  cases hq : (w.tick (.remove q)).fs q with
  | none => exact ⟨_, _, rfl, hq, fun p hp => hp⟩
  | some c =>
    refine ⟨_, _, rfl, by simp, fun p hp => ?_⟩
    by_cases hpq : p = q
    · simp [hpq]
    · simp [Function.update_of_ne hpq, hp]

/-- The write fails, and its temporary file is gone. -/
theorem jammed_writePrivate (bytes : Contents) (w : Disk) :
    ∃ v, (writePrivate destination bytes).run (jammedMachine destination pid) w =
        (bail "I/O error", v) ∧ v.fs (tmpPath destination pid) = none := by
  have hjam : ∀ v : Disk, (jammedMachine destination pid).next v
      (.createNew (tmpPath destination pid)) = some (.fail []) := fun v => if_pos rfl
  have hpid : (jammedMachine destination pid).pid = pid := rfl
  obtain ⟨r, v, hremove, hgone, -⟩ :=
    @jammed_remove destination pid (tmpPath destination pid) w
  refine ⟨v.tick (.createNew (tmpPath destination pid)), ?_, hgone⟩
  rw [writePrivate, Fx.bind_run_ok (Fx.pid_run _ _), hpid, Fx.bind_run_ok hremove]
  exact Fx.bind_run_error (Fx.step_of_fail (hjam v))

/-- A new vault cannot be saved at the destination. -/
theorem jammed_save {store : VaultStore} (hpath : store.path = destination)
    (hlock : store.lock = true) (hnew : store.loadedFp = none) :
    ∃ msg v, store.save.run (jammedMachine destination pid) w = (.error (.err msg), v) ∧
      v.fs (tmpPath destination pid) = none := by
  subst hpath
  have hmkdir : (Fx.mkdir store.path.dir).run (jammedMachine store.path pid) w =
      (.ok (), w.tick (.mkdir store.path.dir)) := by
    have hmkdir : (Fx.mkdir store.path.dir : Prog Unit).Footprint ∅ true fun _ => True :=
      .check fun _ => rfl
    rw [jammed_run hmkdir (Set.notMem_empty (tmpPath store.path pid))]
    rfl
  obtain ⟨v, hwrite, hgone⟩ := @jammed_writePrivate store.path pid
    (.v2 (store.toFile (w.tick (.mkdir store.path.dir)).rng))
    { w.tick (.mkdir store.path.dir) with rng := (w.tick (.mkdir store.path.dir)).rng + 1 }
  refine ⟨"failed to write vault file: " ++ "I/O error", v, ?_, hgone⟩
  rw [VaultStore.save, hlock, underLock, if_pos rfl, hnew, Fx.when, if_neg (by simp)]
  rw [Fx.bind_run_ok (Fx.pure_run _ _ _), Fx.bind_run_ok hmkdir, Fx.bind_run_ok (Fx.random_run _ _)]
  refine Fx.bind_run_error ?_
  rw [Fx.mapErr_run, hwrite]
  rfl

/-- No vault can be made at the destination. -/
theorem jammed_open (h : w.fs destination = none) (passphrase : Str) :
    ∃ msg v, (VaultStore.openAtWithPassphrase destination passphrase).run
        (jammedMachine destination pid) w = (.error (.err msg), v) ∧
      v.fs (tmpPath destination pid) = none := by
  have hm : (Machine.quietAs pid).Faultless := fun _ _ => rfl
  obtain ⟨v, hexists, hv⟩ := Fx.Answers.pathExists hm (w := w) destination
  obtain ⟨v₁, hlock, hv₁⟩ : Fx.Answers (Machine.quietAs pid) (acquire destination) v (.ok ()) :=
    acquire_answers hm
  obtain ⟨v₂, hagain, hv₂⟩ := Fx.Answers.pathExists hm (w := v₁) destination
  rw [h, Option.isSome_none] at hexists
  rw [hv₁.fs _ (by simp), hv.fs _ (by simp), h, Option.isSome_none] at hagain
  rw [← jammed_run Fx.Footprint.pathExists (Set.notMem_empty (tmpPath destination pid))]
    at hexists hagain
  rw [← jammed_run acquire_footprint (Set.notMem_empty (tmpPath destination pid))] at hlock
  rw [VaultStore.openAtWithPassphrase, Fx.bind_run_ok hexists, if_neg (by simp),
    Fx.bind_run_ok hlock, Fx.bind_run_ok hagain, if_neg (by simp), Fx.releasing_run,
    VaultStore.createNew, Fx.bind_run_ok (Fx.random_run _ _), Fx.bind_run_ok (Fx.random_run _ _),
    Fx.bind_run_ok (Fx.random_run _ _), VaultStore.fresh_eq_created, Fx.ofResult_ok_bind]
  obtain ⟨msg, v', hsave, hgone⟩ := @jammed_save destination pid { v₂ with rng := v₂.rng + 3 }
    (VaultStore.created destination passphrase v₂.rng) rfl rfl rfl
  exact ⟨msg, v', Fx.bind_run_error hsave, hgone⟩

/-- Without faults the vault is made and saved with a recovery key. -/
theorem quietAs_save [Bip39] (h : w.fs vaultPath = none) (passphrase : Str) :
    ∃ store v recoverable mnemonic v₁ saved v₂,
      (VaultStore.openAtWithPassphrase vaultPath passphrase).run (Machine.quietAs pid) w =
        (.ok store, v) ∧
      store.At vaultPath ∧
      store.generateRecoveryKey.run (Machine.quietAs pid) v = (.ok (recoverable, mnemonic), v₁) ∧
      recoverable.At vaultPath ∧
      recoverable.save.run (Machine.quietAs pid) v₁ = (.ok saved, v₂) := by
  have hm : (Machine.quietAs pid).Faultless := fun _ _ => rfl
  obtain ⟨store, v, hopen, ⟨rfl, file, hfs, -, -, hfp⟩, -, hkdf⟩ :=
    VaultStore.openAtWithPassphrase_absent hm h passphrase
  obtain ⟨slot, hwrap⟩ : ∃ slot, VaultStore.wrapSlot
      (Bip39.print (Bip39.fromEntropy (Octets.random32 v.rng))) (v.rng + 1) (v.rng + 2)
      aadWrapRecovery .default store.dataKey = .ok slot :=
    ⟨_, VaultStore.wrapSlot_eq_ok.mpr ⟨KdfParams.default_validate, rfl⟩⟩
  have hslot : store.rewrapRecovery (Bip39.print (Bip39.fromEntropy (Octets.random32 v.rng)))
      (v.rng + 1) (v.rng + 2) = .ok { store with wrapRecovery := some slot } := by
    rw [VaultStore.rewrapRecovery, hkdf, hwrap]
    rfl
  have hgenerate : store.generateRecoveryKey.run (Machine.quietAs pid) v =
      (.ok ({ store with wrapRecovery := some slot },
        Bip39.print (Bip39.fromEntropy (Octets.random32 v.rng))), { v with rng := v.rng + 3 }) := by
    rw [VaultStore.generateRecoveryKey, Fx.bind_run_ok (Fx.random_run _ _),
      Fx.bind_run_ok (Fx.random_run _ _), Fx.bind_run_ok (Fx.random_run _ _), hslot]
    rfl
  have hsame : ({ store with wrapRecovery := some slot } : VaultStore).unchanged
      (({ v with rng := v.rng + 3 } : Disk).fs store.path) = true := by
    simp [VaultStore.unchanged, hfs, hfp]
  obtain ⟨v₂, hsave, -⟩ := VaultStore.save_run hm hsame
  exact ⟨store, v, _, _, _, _, v₂, hopen, rfl, hgenerate, rfl, hsave⟩

/-- The recovery bundle is sealed to any recipient. -/
theorem shareSeal_mnemonic {recoveryRecipient : Identity} {pk : PublicKey}
    (h : parseIdentity recoveryRecipient = .ok pk) (mnemonic note : Str) (esk nonce : Nat) :
    shareSeal [("machine/recovery-mnemonic".toList, mnemonic, tierUseOnly)] recoveryRecipient
        (some tierUseOnly) (some note) esk nonce =
      .ok (sealBundle pk ⟨[⟨"machine/recovery-mnemonic".toList, mnemonic, tierUseOnly⟩], some note⟩
        esk nonce) := by
  rw [shareSeal, sharePayload, h]
  rfl

/-- Where a destination is jammed the vault is not made, and what was in the
way of its temporary file is gone. -/
theorem jammed_makeMachineVault [Bip39] {hsm : SecretBackend} {passphrase : Str}
    {recoveryRecipient : Identity} {recoveryOutput : Path} (h : w.fs vaultPath = none)
    (htemp : tmpPath destination pid ≠ vaultPath)
    (hwritten : destination = vaultPath ∨
      ∃ blob, hsm.sealBlob (Str.utf8 passphrase) sealLabel = .ok blob ∧
        (destination = sealedPassphrasePath vaultPath ∨
          (∃ pk, parseIdentity recoveryRecipient = .ok pk) ∧ destination = recoveryOutput)) :
    ∃ msg v, (makeMachineVault vaultPath hsm passphrase recoveryRecipient recoveryOutput).run
        (jammedMachine destination pid) w = (.error (.err msg), v) ∧
      v.fs (tmpPath destination pid) = none := by
  by_cases hvault : destination = vaultPath
  · subst hvault
    obtain ⟨msg, v, hopen, hgone⟩ := @jammed_open destination pid w h passphrase
    exact ⟨msg, v, Fx.bind_run_error hopen, hgone⟩
  obtain ⟨blob, hblob, hother⟩ := hwritten.resolve_left hvault
  obtain ⟨store, v, recoverable, mnemonic, v₁, saved, v₂, hopen, hat, hgenerate, hat', hsave⟩ :=
    @quietAs_save vaultPath pid w _ h passphrase
  have hprivate : tmpPath destination pid ∉ privateFiles vaultPath := by
    rintro (heq | ⟨i, heq⟩)
    · exact htemp heq
    · exact hvault (tmpPath_inj heq).1
  have hfiles : tmpPath destination pid ∉ vaultFiles vaultPath := by
    rintro (heq | heq | ⟨i, heq⟩)
    · exact htemp heq
    · exact tmpPath_ne_backupPathFor _ _ _ heq
    · exact hvault (tmpPath_inj heq).1
  rw [← jammed_run (VaultStore.openAtWithPassphrase_footprint subset_rfl passphrase) hfiles]
    at hopen
  rw [← jammed_run (generateRecoveryKey_footprint (S := ∅) hat) (Set.notMem_empty _)] at hgenerate
  rw [← jammed_run (VaultStore.save_footprint subset_rfl hat') hprivate] at hsave
  rw [makeMachineVault, Fx.bind_run_ok hopen, Fx.bind_run_ok hgenerate, Fx.bind_run_ok hsave]
  simp only [hblob]
  rw [Fx.ofResult_ok_bind]
  by_cases hsealed : destination = sealedPassphrasePath vaultPath
  · obtain ⟨v', hwrite, hgone⟩ := @jammed_writePrivate destination pid (Contents.ofBlob blob) v₂
    rw [← hsealed]
    exact ⟨"I/O error", v', Fx.bind_run_error hwrite, hgone⟩
  obtain ⟨⟨pk, hpk⟩, houtput⟩ := hother.resolve_left hsealed
  have hsealedFiles : tmpPath destination pid ∉ privateFiles (sealedPassphrasePath vaultPath) := by
    rintro (heq | ⟨i, heq⟩)
    · exact sealedPassphrasePath_ne_tmpPath _ _ _ heq.symm
    · exact hsealed (tmpPath_inj heq).1
  obtain ⟨v₃, hwrite, -⟩ := writePrivate_run (m := Machine.quietAs pid) (fun _ _ => rfl)
    (sealedPassphrasePath vaultPath) (Contents.ofBlob blob) v₂
  rw [← jammed_run (writePrivate_footprint subset_rfl _) hsealedFiles] at hwrite
  rw [Fx.bind_run_ok hwrite, Fx.bind_run_ok (Fx.random_run _ _), Fx.bind_run_ok (Fx.random_run _ _),
    shareSeal_mnemonic hpk, Fx.ofResult_ok_bind, ← houtput]
  obtain ⟨v', hwrite, hgone⟩ := @jammed_writePrivate destination pid (.bundle _)
    { v₃ with rng := v₃.rng + 1 + 1 }
  exact ⟨"I/O error", v', hwrite, hgone⟩

/-- The whole command, once it finds neither vault nor recovery output. -/
theorem cmdInitMachine_jammed [Bip39] [Entropy] {hsm : SecretBackend}
    {recoveryRecipient : Identity} {recoveryOutput : Path} (htier : hsm.tier ≤ 2)
    (h : w.fs vaultPath = none) (houtput : w.fs recoveryOutput = none)
    (htemp : tmpPath destination pid ≠ vaultPath)
    (hwritten : destination = vaultPath ∨
      ∃ blob,
        hsm.sealBlob (Str.utf8 (hexEncode (Entropy.bytes w.rng).toList)) sealLabel = .ok blob ∧
        (destination = sealedPassphrasePath vaultPath ∨
          (∃ pk, parseIdentity recoveryRecipient = .ok pk) ∧ destination = recoveryOutput)) :
    ∃ msg v, (cmdInitMachine vaultPath (.ok hsm) recoveryRecipient recoveryOutput).run
        (jammedMachine destination pid) w = (.error (.err msg), v) ∧
      v.fs (tmpPath destination pid) = none := by
  have hpass : ∀ {c : Prop} [Decidable c] {α : Type} {msg : String} {f : Unit → Prog α}, c →
      (Fx.ensure c msg >>= f) = f () := by
    intro c _ α msg f hc
    rw [Fx.ensure, if_pos hc, Fx.ofResult_ok_bind]
  have hjam : ∀ {α : Type} {A : α → Prop} {x : Prog α} {v : Disk}, x.Footprint ∅ true A →
      x.run (jammedMachine destination pid) v = x.run (Machine.quietAs pid) v :=
    fun hx => jammed_run hx (Set.notMem_empty _)
  have hm : (Machine.quietAs pid).Faultless := fun _ _ => rfl
  obtain ⟨v, hexists, hv⟩ := Fx.Answers.pathExists hm (w := w) vaultPath
  obtain ⟨v₁, htaken, hv₁⟩ := Fx.Answers.pathExists hm (w := v) recoveryOutput
  obtain ⟨v₂, hmkdir, hv₂⟩ : Fx.Answers (Machine.quietAs pid) (Fx.mkdir vaultPath.dir : Prog Unit)
    v₁ (.ok ()) := Fx.Answers.check hm _ _
  obtain ⟨v₃, hmkdir', hv₃⟩ : Fx.Answers (Machine.quietAs pid)
    (Fx.mkdir recoveryOutput.dir : Prog Unit) v₂ (.ok ()) := Fx.Answers.check hm _ _
  have hframe : w.Frame ∅ v₃ := ((hv.trans hv₁).trans hv₂).trans hv₃
  rw [h, Option.isSome_none, ← hjam .pathExists] at hexists
  rw [hv.fs _ (by simp), houtput, Option.isSome_none, ← hjam .pathExists] at htaken
  have hmkdirs : ∀ dir, (Fx.mkdir dir : Prog Unit).Footprint ∅ true fun _ => True :=
    fun _ => .check fun _ => rfl
  rw [← hjam (hmkdirs _)] at hmkdir hmkdir'
  rw [cmdInitMachine, Fx.bind_run_ok hexists, hpass (by simp), Fx.bind_run_ok htaken,
    hpass (by simp), Fx.ofResult_ok_bind, hpass htier, Fx.bind_run_ok hmkdir,
    Fx.bind_run_ok hmkdir', Fx.bind_run_ok (Fx.random_run _ _), hframe.rng]
  obtain ⟨msg, v₄, hmake, hgone⟩ := @jammed_makeMachineVault destination vaultPath pid
    { v₃ with rng := w.rng + 1 } _ hsm _ recoveryRecipient recoveryOutput
    ((hframe.fs _ (by simp)).trans h) htemp hwritten
  have hattempt : (Fx.attempt (makeMachineVault vaultPath hsm
      (hexEncode (Entropy.bytes w.rng).toList) recoveryRecipient recoveryOutput)).run
        (jammedMachine destination pid) { v₃ with rng := w.rng + 1 } = (.ok (.error msg), v₄) := by
    rw [Fx.attempt_run, hmake]
    rfl
  obtain ⟨r₅, v₅, hremove, -, hgone₅⟩ := @jammed_remove destination pid vaultPath v₄
  obtain ⟨r₆, v₆, hremove', -, hgone₆⟩ :=
    @jammed_remove destination pid (sealedPassphrasePath vaultPath) v₅
  obtain ⟨r₇, v₇, hremove'', -, hgone₇⟩ := @jammed_remove destination pid recoveryOutput v₆
  rw [Fx.bind_run_ok hattempt]
  dsimp only
  rw [Fx.bind_run_ok hremove, Fx.bind_run_ok hremove', Fx.bind_run_ok hremove'']
  exact ⟨msg, v₇, rfl, hgone₇ _ (hgone₆ _ (hgone₅ _ hgone))⟩

end Jammed

/-! ## The condition -/

/-- What stands at a path that is empty after a run was not there before it. -/
theorem Unharmed.absent {w : Disk} {s : Scene Contents} (h : Unharmed w s) {q : Path}
    (hq : s.world.fs q = none) : w.fs q = none := by
  cases hw : w.fs q with
  | none => rfl
  | some c =>
    rw [h q c (.inl hw)] at hq
    cases hq

section

variable [Bip39] [Entropy] {vaultPath recoveryOutput : Path} {backend : Result SecretBackend}
  {recoveryRecipient : Identity} {w : Disk}

/-- A run on its own is one beside nobody. -/
theorem SparesOthers.alone
    (h : SparesOthers vaultPath backend recoveryRecipient recoveryOutput none w) {m : Machine}
    {msg : String} {v : Disk}
    (hrun : (cmdInitMachine vaultPath backend recoveryRecipient recoveryOutput).run m w =
      (.error (.err msg), v)) {q : Path} {c : Contents} (hq : w.fs q = some c) :
    v.fs q = some c := by
  have hnobody : ∀ s, newcomer vaultPath none 0 s = s.world := fun _ => rfl
  obtain ⟨hresult, hworld⟩ := Fx.runAmid_alone (m := m) hnobody
    (cmdInitMachine vaultPath backend recoveryRecipient recoveryOutput) (.start w)
  have hsame := h m 0 msg _ (Prod.ext (hresult.trans (congrArg Prod.fst hrun)) rfl) q c (.inl hq)
  rw [hworld] at hsame
  rw [← hsame]
  exact congrFun (congrArg (fun r => r.2.fs) hrun.symm) q

theorem machineFiles_absent {hsm : SecretBackend} (htier : hsm.tier ≤ 2)
    (h : SparesOthers vaultPath (.ok hsm) recoveryRecipient recoveryOutput none w)
    (hvault : w.fs vaultPath = none)
    (hsealed : w.fs (sealedPassphrasePath vaultPath) = none)
    (houtput : w.fs recoveryOutput = none) {q : Path}
    (hq : q ∈ machineFiles vaultPath hsm (hexEncode (Entropy.bytes w.rng).toList)
      recoveryRecipient recoveryOutput) : w.fs q = none := by
  have htemps : ∀ destination pid, (destination = vaultPath ∨
      ∃ blob, hsm.sealBlob (Str.utf8 (hexEncode (Entropy.bytes w.rng).toList)) sealLabel =
        .ok blob ∧ (destination = sealedPassphrasePath vaultPath ∨
          (∃ pk, parseIdentity recoveryRecipient = .ok pk) ∧ destination = recoveryOutput)) →
      w.fs (tmpPath destination pid) = none := by
    intro destination pid hwritten
    by_cases htemp : tmpPath destination pid = vaultPath
    · rw [htemp, hvault]
    obtain ⟨msg, v, hjammed, hgone⟩ := cmdInitMachine_jammed htier hvault houtput htemp hwritten
    cases hfs : w.fs (tmpPath destination pid) with
    | none => rfl
    | some c =>
      rw [h.alone hjammed hfs] at hgone
      cases hgone
  obtain (rfl | ⟨pid, rfl⟩) | rfl | rfl |
    ⟨blob, hblob, (rfl | ⟨pid, rfl⟩) | ⟨hpk, rfl | ⟨pid, rfl⟩⟩⟩ := hq
  · exact hvault
  · exact htemps _ pid (.inl rfl)
  · exact hsealed
  · exact houtput
  · exact hsealed
  · exact htemps _ pid (.inr ⟨blob, hblob, .inl rfl⟩)
  · exact houtput
  · exact htemps _ pid (.inr ⟨blob, hblob, .inr ⟨hpk, rfl⟩⟩)

end

/-- Random strings that are not random. -/
@[reducible] def zeroEntropy : Entropy :=
  ⟨fun _ => Vector.replicate 32 0⟩

end HearthVault
