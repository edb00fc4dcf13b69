/-
HearthVault.Cli.CredentialTheorems — who can open a vault after any commands.

`Access` is who can open a vault: its passphrase, its recovery phrase and the
data key they lead to. A command that writes entries leaves all three, at
every fault; a command that makes a slot replaces the passphrase or the
phrase, or leaves it. So after any jobs the vault opens with one passphrase,
and it is the last that was set or one that a job has failed to set since
(`runJobs_unlocks`).

`Fx.Keeps` carries the access along every command that writes entries, with a
store that has the same slots (`Wrapped`), as `Cli.BodyInvariants` carries a
property of the body. For the commands that make a slot the file may have one
of two accesses at the end, so they have a rule of pre- and postconditions
(`save_replaces`), and a failed one leaves either. `Task.passphrases` and
`Task.phrases` collect what may be in force, and the run is an induction on
the jobs (`runJobs_leads`).
-/
import HearthVault.Cli.AdoptSafety
import HearthVault.Cli.Credentials
import HearthVault.Store.SessionTheorems

namespace HearthVault

open Files Symbolic

/-! ## Access -/

/-- Who can open a vault, and what opens its body. -/
structure Access where
  passphrase : Str
  phrase : Option Str
  dataKey : Key

namespace Access

/-- The file is a vault with this access. -/
def Guards (a : Access) (contents : Option Contents) : Prop :=
  ∃ file body, contents = some (.v2 file) ∧ Holds file a.passphrase a.phrase a.dataKey body

/-- An open store whose slots give this access. -/
structure Wrapped (a : Access) (path : Path) (store : VaultStore) : Prop where
  path : store.path = path
  kdf : store.kdf.validate = .ok ()
  passphrase : Wraps store.wrapPassphrase a.passphrase aadWrapPassphrase store.kdf a.dataKey
  recovery : Option.Rel (fun slot phrase => Wraps slot phrase aadWrapRecovery store.kdf a.dataKey)
    store.wrapRecovery a.phrase
  dataKey : store.dataKey = a.dataKey

variable {a : Access} {path : Path} {store : VaultStore}

theorem Guards.isSome {contents : Option Contents} (h : a.Guards contents) :
    contents.isSome = true := by
  obtain ⟨file, body, rfl, -⟩ := h
  rfl

/-- A store writes a file with its own access. -/
theorem Wrapped.toFile (h : a.Wrapped path store) (nonce : Nat) :
    a.Guards (some (.v2 (store.toFile nonce))) := by
  have hpass := h.passphrase
  have hrecovery := h.recovery
  rw [← h.dataKey] at hpass hrecovery
  have hfile := VaultStore.toFile_holds h.kdf hpass hrecovery nonce
  rw [h.dataKey] at hfile
  exact ⟨_, _, rfl, hfile⟩

theorem Wrapped.withBody (h : a.Wrapped path store) (body : VaultBody) :
    a.Wrapped path { store with body } :=
  ⟨h.path, h.kdf, h.passphrase, h.recovery, h.dataKey⟩

/-- A body operation changes no slot. -/
theorem Wrapped.of_others {store' : VaultStore} (h : a.Wrapped path store)
    (hothers : store' = { store with body := store'.body }) : a.Wrapped path store' := by
  rw [hothers]
  exact h.withBody store'.body

/-- A store that was opened has the access of the file. -/
theorem Wrapped.of_opened {file : VaultFileV2} {body : VaultBody}
    (h : Holds file a.passphrase a.phrase a.dataKey body) (lock : Bool) :
    a.Wrapped path { VaultStore.opened path file a.dataKey body with lock } :=
  ⟨rfl, h.kdf, h.passphrase, h.recovery, rfl⟩

/-- A new passphrase slot. -/
theorem Wrapped.rewrapPassphrase (h : a.Wrapped path store) {passphrase : Str} {salt nonce : Nat}
    {store' : VaultStore} (h' : store.rewrapPassphrase passphrase salt nonce = .ok store') :
    Wrapped { a with passphrase } path store' := by
  unfold VaultStore.rewrapPassphrase at h'
  rw [result_bind_eq_ok] at h'
  obtain ⟨slot, hslot, h'⟩ := h'
  cases h'
  have hwraps := VaultStore.wrapSlot_wraps hslot
  rw [h.dataKey] at hwraps
  exact ⟨h.path, h.kdf, hwraps, h.recovery, h.dataKey⟩

/-- A new recovery slot. -/
theorem Wrapped.rewrapRecovery (h : a.Wrapped path store) {phrase : Str} {salt nonce : Nat}
    {store' : VaultStore} (h' : store.rewrapRecovery phrase salt nonce = .ok store') :
    Wrapped { a with phrase := some phrase } path store' := by
  unfold VaultStore.rewrapRecovery at h'
  rw [result_bind_eq_ok] at h'
  obtain ⟨slot, hslot, h'⟩ := h'
  cases h'
  have hwraps := VaultStore.wrapSlot_wraps hslot
  rw [h.dataKey] at hwraps
  exact ⟨h.path, h.kdf, h.passphrase, .some hwraps, h.dataKey⟩

end Access

/-! ## Opening -/

/-- A machine on which looking for the vault never fails; it may still die. -/
def SeesVault (path : Path) (m : Machine) : Prop :=
  ∀ n left, m.faults (.stat path) n ≠ some (.fail left)

section

variable {m : Machine} {path : Path} {a : Access}

/-- Where looking does not fail, a vault that is there is found. -/
theorem pathExists_sees (hsees : SeesVault path m) :
    Fx.Keeps m path a.Guards (Fx.pathExists path) fun existed => existed = true := by
  intro w hw
  have hsome : (w.fs path).isSome = true := hw.isSome
  unfold Fx.pathExists
  rw [Fx.bind_run, Fx.attempt_run, Fx.check]
  rcases hfault : m.next w (.stat path) with _ | ⟨left | left⟩
  · rw [Fx.step_of_none hfault]
    exact ⟨hsome, hw⟩
  · exact absurd hfault (hsees _ left)
  · rw [Fx.step_of_kill hfault]
    exact hw

namespace VaultStore

/-- A passphrase that opens the file is the one in force. -/
theorem loadV2_wrapped (passphrase : Str) :
    Fx.Keeps m path a.Guards (loadV2 path passphrase) (a.Wrapped path) := by
  refine readThen_keeps ?_
  intro c store hc hstore
  obtain ⟨file, body, hfile, hholds⟩ := hc
  cases hfile
  obtain ⟨-, rfl⟩ := (hholds.load_iff path _ _).mp hstore
  exact .of_opened hholds false

/-- A wrap key opens a slot of the same access. -/
theorem openAtWithWrapKey_wrapped (key : Key) :
    Fx.Keeps m path a.Guards (openAtWithWrapKey path key) (a.Wrapped path) := by
  refine readThen_keeps ?_
  intro c store hc hstore
  obtain ⟨file, body, hfile, hholds⟩ := hc
  cases hfile
  obtain ⟨-, rfl⟩ := (hholds.wrapKey_iff path _ _).mp hstore
  exact .of_opened hholds false

/-- So does the recovery phrase. -/
theorem openAtWithMnemonic_wrapped [Bip39] (mnemonic : Str) :
    Fx.Keeps m path a.Guards (openAtWithMnemonic path mnemonic) (a.Wrapped path) := by
  refine (Fx.Keeps.ofResult fun _ _ => trivial).bind fun phrase _ => ?_
  refine readToString_keeps.mapErr.bind fun c hc => Fx.Keeps.ofResult fun store hstore => ?_
  obtain ⟨file, body, hfile, hholds⟩ := hc
  cases hfile
  obtain ⟨-, rfl⟩ := (hholds.mnemonic_iff path _ _).mp hstore
  exact .of_opened hholds false

/-- A vault that is seen is neither created nor migrated. -/
theorem openAtWithPassphrase_wrapped (hsees : SeesVault path m) (passphrase : Str) :
    Fx.Keeps m path a.Guards (openAtWithPassphrase path passphrase) (a.Wrapped path) := by
  refine (pathExists_sees hsees).bind fun existed hexisted => ?_
  subst hexisted
  refine readToString_keeps.bind fun c hc => ?_
  obtain ⟨file, body, hfile, -⟩ := hc
  cases hfile
  exact loadV2_wrapped passphrase

/-- The file that is read again has the same access. -/
theorem lockAndRefresh_wrapped {store : VaultStore} (h : a.Wrapped path store) :
    Fx.Keeps m path a.Guards store.lockAndRefresh (a.Wrapped path) := by
  refine (Fx.Keeps.when fun _ => acquire_keeps).bind fun _ _ => ?_
  rw [h.path]
  refine readToString_keeps.mapErr.bind fun c hc => Fx.Keeps.ofResult fun store' hstore' => ?_
  obtain ⟨file, body, hfile, hholds⟩ := hc
  cases hfile
  obtain ⟨-, rfl⟩ := (hholds.refresh_iff store store').mp hstore'
  rw [h.path]
  exact .of_opened hholds true

/-- A save replaces the access of the file by that of the store, or leaves
it. -/
theorem save_replaces {b : Access} {store : VaultStore} (h : b.Wrapped path store) :
    Fx.Meets m (fun w => a.Guards (w.fs path)) store.save
      (fun store' w => b.Wrapped path store' ∧ b.Guards (w.fs path))
      (fun w => a.Guards (w.fs path) ∨ b.Guards (w.fs path)) := by
  intro w hw
  have hsave := @save_meets m w store w (.refl ∅ w)
  have hwritten : ∀ w', store.Saved w w' → b.Guards (w'.fs path) := by
    intro w' hw'
    rw [← h.path, hw'.written]
    exact h.toFile w.rng
  rcases hrun : store.save.run m w with ⟨r, w'⟩
  rw [hrun] at hsave
  cases r with
  | ok store' =>
    obtain ⟨hsaved, rfl⟩ := hsave
    exact ⟨⟨h.path, h.kdf, h.passphrase, h.recovery, h.dataKey⟩, hwritten w' hsaved⟩
  | error e =>
    obtain hkept | hsaved := hsave
    · left
      have hfs := hkept.fs
      rw [h.path] at hfs
      rw [hfs]
      exact hw
    · exact .inr (hwritten w' hsaved)

/-- A save that changes no slot leaves the access. -/
theorem save_wrapped {store : VaultStore} (h : a.Wrapped path store) :
    Fx.Keeps m path a.Guards store.save (a.Wrapped path) :=
  (save_replaces h).weaken (fun _ hw => hw) (fun _ _ hw => hw) fun _ hw => hw.elim id id

end VaultStore

theorem openVault_wrapped (hsees : SeesVault path m) (unlock : Unlock) :
    Fx.Keeps m path a.Guards (openVault path unlock) (a.Wrapped path) := by
  refine openOr_keeps (fun x hx => ?_) (openOr_keeps (fun x hx => ?_) ?_)
  · obtain ⟨p, -, rfl⟩ := Option.map_eq_some_iff.mp hx
    exact VaultStore.openAtWithPassphrase_wrapped hsees p
  · obtain ⟨key, -, rfl⟩ := Option.map_eq_some_iff.mp hx
    exact VaultStore.openAtWithWrapKey_wrapped key
  · exact VaultStore.openAtWithPassphrase_wrapped hsees unlock.passphrase

/-! ## Commands that write entries -/

theorem VaultStore.onBody_wrapped {store : VaultStore} (h : a.Wrapped path store)
    {f : VaultBody → Result VaultBody} :
    Fx.Keeps m path a.Guards (Fx.ofResult (store.onBody f)) (a.Wrapped path) :=
  Fx.Keeps.ofResult fun _ h' => h.of_others (onBody_others h')

theorem VaultStore.set_wrapped {store : VaultStore} (h : a.Wrapped path store) {key value : Str}
    {tier : UInt8} : Fx.Keeps m path a.Guards (store.set key value tier) (a.Wrapped path) :=
  Fx.Keeps.now.bind fun _ _ => VaultStore.onBody_wrapped h

/-- What is known of the end of a program may be read off its run. -/
theorem keeps_of_ok {α : Type} {K : Option Contents → Prop} {A B : α → Prop} {x : Prog α}
    (hx : Fx.Keeps m path K x A)
    (hok : ∀ w w' r, x.run m w = (.ok r, w') → B r) : Fx.Keeps m path K x B := by
  intro w hw
  have h := hx w hw
  rcases hrun : x.run m w with ⟨r, w'⟩
  rw [hrun] at h
  cases r with
  | ok r => exact ⟨hok w w' r hrun, h.2⟩
  | error e => exact h

section

variable {store : VaultStore} (h : a.Wrapped path store)

include h

/-- The loop of `set` changes the body only. -/
theorem setAll_wrapped {tier : Option UInt8} {days : Option UInt32} {due : Option Str}
    {pairs : List (Str × Str)} :
    Fx.Keeps m path a.Guards (setAll tier days due pairs store) (a.Wrapped path) :=
  keeps_of_ok (setAll_keeps trivial_invariant ⟨h.path, trivial⟩)
    fun _ _ _ hrun => h.of_others (setAll_eq_ok hrun).1.others

/-- So does the loop of `import-env`. -/
theorem importPairs_wrapped {pre : Str} {tier : UInt8} {force : Bool} {pairs : List (Str × Str)} :
    Fx.Keeps m path a.Guards (importPairs pre tier force pairs store)
      fun r => a.Wrapped path r.1 :=
  keeps_of_ok (importPairs_keeps trivial_invariant ⟨h.path, trivial⟩)
    fun _ _ _ hrun => h.of_others (importPairs_eq_ok hrun).1.others

/-- So does the loop of `receive`. -/
theorem receiveAll_wrapped {pre : Option Str} {force : Bool} {entries : List SharedEntry} :
    Fx.Keeps m path a.Guards (receiveAll pre force entries store) fun r => a.Wrapped path r.1 :=
  keeps_of_ok (receiveAll_keeps trivial_invariant ⟨h.path, trivial⟩)
    fun _ _ _ hrun => h.of_others (receiveAll_eq_ok hrun).1.others

theorem saveAndVerify_wrapped {expected : List (Str × Str)} : Fx.Keeps m path a.Guards
    (do let store ← store.save; store.verifyPersisted expected) fun _ => True :=
  (VaultStore.save_wrapped h).bind fun _ _ => VaultStore.verifyPersisted_keeps

end

/-- The files a command writes beside the vault. -/
def Command.outputs (path : Path) : Command → Set Path
  | .import file _ _ => {file.path}
  | .importEnv file _ _ _ _ => {gitignore, file.path}
  | .delete _ _ => {q | ∃ now, q ∈ privateFiles (backupTarget path now)}
  | .scanAdopt findings _ _ marker => {q | q = marker ∨ Adoptable findings q}
  | _ => ∅

/-- A snapshot is another file than the vault. -/
theorem writeBackup_spares {K : Option Contents → Prop}
    (hpath : ∀ now, path ∉ privateFiles (backupTarget path now)) :
    Fx.Keeps m path K (writeBackup path) fun _ => True := by
  refine Fx.Keeps.pathExists.bind fun _ _ => Fx.Keeps.ensure.bind fun _ _ => ?_
  refine Fx.Keeps.now.bind fun now _ => Fx.Keeps.pathExists.bind fun _ _ => ?_
  refine Fx.Keeps.ensure.bind fun _ _ => Fx.Keeps.check.bind fun c _ => ?_
  have hwrite : Fx.Keeps m path K (writePrivate (backupTarget path now) c) fun _ => True :=
    (writePrivate_footprint subset_rfl c).keeps (hpath now)
  exact Fx.Keeps.check.bind fun _ _ => hwrite.mapErr.bind fun _ _ => Fx.Keeps.pure trivial

section

variable [JsonText] {K : Option Contents → Prop}

theorem secureDeleteFile_spares {q : Path} (hq : path ≠ q) :
    Fx.Keeps m path K (secureDeleteFile q) fun _ => True :=
  (secureDeleteFile_footprint (Set.mem_singleton q)).keeps hq

/-- So is `.gitignore`. -/
theorem addToGitignore_spares (hpath : path ≠ gitignore) (entry : Str) :
    Fx.Keeps m path K (addToGitignore entry) fun _ => True := by
  refine Fx.Keeps.pathExists.bind fun existed _ => ?_
  cases existed with
  | false => exact Fx.Keeps.pure trivial
  | true =>
    refine readText_keeps.attempt.bind fun r _ => ?_
    cases r with
    | error e => exact Fx.Keeps.pure trivial
    | ok contents =>
      dsimp only
      split
      · exact Fx.Keeps.pure trivial
      · have hwrite := (Fx.Footprint.write (Set.mem_singleton gitignore) (.text (contents ++
          (if contents = [] ∨ contents.getLast? = some '\n' then [] else ['\n']) ++ entry ++
          ['\n']))).keeps (m := m) (K := K) hpath
        exact hwrite.attempt.bind fun _ _ => Fx.Keeps.pure trivial

omit [JsonText] in
/-- On the findings of a file, each of which stores at most one value. -/
theorem adoptInFile_wrapped {pre : Str} {force : Bool} {findings : List Finding}
    {state : AdoptState} (h : a.Wrapped path state.store) :
    Fx.Keeps m path a.Guards (adoptInFile pre force findings state)
      fun state => a.Wrapped path state.store := by
  induction findings generalizing state with
  | nil => exact Fx.Keeps.pure h
  | cons f rest ih =>
    refine Fx.Keeps.bind (A := fun state => a.Wrapped path state.store) ?_ fun _ h => ih h
    obtain ⟨-, errors, heq⟩ | ⟨key, value, -, ⟨-, -, skipped, heq⟩ | ⟨-, heq⟩⟩ :=
      adoptFinding_cases pre force f state
    · rw [heq]
      exact Fx.Keeps.pure h
    · rw [heq]
      exact Fx.Keeps.pure h
    · rw [heq]
      exact (VaultStore.set_wrapped h).bind fun _ hstore => Fx.Keeps.pure hstore

/-- The loop over the files defers its rewrites, each of one of the files. -/
theorem adoptFiles_wrapped {P : Path → Prop} {pre : Str} {force : Bool}
    {files : List (Path × List Finding)} {state : AdoptState} (h : a.Wrapped path state.store)
    (hfiles : ∀ file ∈ files, P file.1) :
    Fx.Keeps m path a.Guards (adoptFiles pre force files state) fun r =>
      a.Wrapped path r.1.store ∧ ∀ write ∈ r.2, P write.1 := by
  have hwrapped : Fx.Keeps m path a.Guards (adoptFiles pre force files state) fun r =>
      a.Wrapped path r.1.store := by
    induction files generalizing state with
    | nil => exact Fx.Keeps.pure h
    | cons file rest ih =>
      obtain ⟨-, hrest⟩ := List.forall_mem_cons.mp hfiles
      refine readText_keeps.attempt.bind fun r _ => ?_
      cases r with
      | error e => exact ih h hrest
      | ok content =>
        refine Fx.Keeps.bind (adoptInFile_wrapped h) fun state h => ?_
        exact (ih h hrest).bind fun _ h => Fx.Keeps.pure h
  have hfoot : (adoptFiles pre force files state).Footprint ∅ true fun r =>
      r.1.store.At path ∧ ∀ write ∈ r.2, P write.1 := adoptFiles_footprint h.path hfiles
  intro w hw
  have hstep := hwrapped w hw
  rcases hrun : (adoptFiles pre force files state).run m w with ⟨r, w'⟩
  rw [hrun] at hstep
  cases r with
  | ok r => exact ⟨⟨hstep.1, (hfoot.run_value hrun).2⟩, hstep.2⟩
  | error e => exact hstep

/-- Adopting saves the vault once and rewrites other files. -/
theorem adoptFindings_wrapped (hsees : SeesVault path m) {unlock : Unlock}
    {findings : List Finding} {pre : Str} {force : Bool} (hpath : ¬Adoptable findings path) :
    Fx.Keeps m path a.Guards (adoptFindings path unlock findings pre force) fun _ => True := by
  unfold adoptFindings
  dsimp only
  split
  · exact Fx.Keeps.pure trivial
  · refine (openVault_wrapped hsees unlock).bind fun _ h => ?_
    refine (VaultStore.lockAndRefresh_wrapped h).bind fun store h => ?_
    have hloop : Fx.Keeps m path a.Guards
        (adoptFiles pre force (findingsByFile (envFindings [] findings))
          ⟨store, [], false, [], [], [], []⟩) fun r =>
        a.Wrapped path r.1.store ∧ ∀ write ∈ r.2, Adoptable findings write.1 :=
      adoptFiles_wrapped h fun file => adoptable_of_mem
    refine hloop.bind fun r hr => ?_
    refine (VaultStore.save_wrapped hr.1).bind fun _ _ => ?_
    refine VaultStore.verifyPersisted_keeps.bind fun _ _ => ?_
    have hrewrite : Fx.Keeps m path a.Guards (rewriteFiles r.2) fun _ => True :=
      (rewriteFiles_footprint (S := {q | Adoptable findings q}) hr.2).keeps hpath
    exact hrewrite.bind fun _ _ => Fx.Keeps.pure trivial

omit [JsonText] in
theorem explicitExpiry_keeps [Chrono] (expires : Option Str) :
    Fx.Keeps m path K (explicitExpiry expires) fun _ => True := by
  cases expires with
  | none => exact Fx.Keeps.pure trivial
  | some input =>
    exact Fx.Keeps.now.bind fun _ _ => (Fx.Keeps.ofResult fun _ _ => trivial).bind fun _ _ =>
      Fx.Keeps.pure trivial

/-- A command that writes entries leaves who can open the vault, whatever
fails and wherever it is killed. -/
theorem Command.run_wrapped [Chrono] (hsees : SeesVault path m) (unlock : Unlock)
    (command : Command) (houtputs : path ∉ command.outputs path) :
    Fx.Keeps m path a.Guards (command.run path unlock) fun _ => True := by
  have hopen := @openVault_wrapped m path a hsees unlock
  cases command with
  | set keys tier days expires =>
    refine Fx.Keeps.ensure.bind fun _ _ => (explicitExpiry_keeps expires).bind fun _ _ => ?_
    refine hopen.bind fun _ h => Fx.Keeps.when fun _ => ?_
    refine (VaultStore.lockAndRefresh_wrapped h).bind fun _ h => ?_
    exact (setAll_wrapped h).bind fun _ h => saveAndVerify_wrapped h
  | «import» file key tier =>
    refine Fx.Keeps.pathExists.bind fun _ _ => Fx.Keeps.ensure.bind fun _ _ => ?_
    refine readText_keeps.bind fun _ _ => Fx.Keeps.ensure.bind fun _ _ => ?_
    refine hopen.bind fun _ h => (VaultStore.lockAndRefresh_wrapped h).bind fun _ h => ?_
    refine (VaultStore.set_wrapped h).bind fun _ h => (VaultStore.save_wrapped h).bind fun _ _ => ?_
    exact VaultStore.verifyPersisted_keeps.mapErr.bind fun _ _ =>
      secureDeleteFile_spares houtputs
  | importEnv file pre tier keep force =>
    have hgitignore : path ≠ gitignore := fun hpath => houtputs (.inl hpath)
    refine Fx.Keeps.pathExists.bind fun _ _ => Fx.Keeps.ensure.bind fun _ _ => ?_
    refine readText_keeps.bind fun _ _ => Fx.Keeps.ensure.bind fun _ _ => ?_
    refine hopen.bind fun _ h => (VaultStore.lockAndRefresh_wrapped h).bind fun _ h => ?_
    refine (importPairs_wrapped h).bind fun _ h => (VaultStore.save_wrapped h).bind fun _ _ => ?_
    refine VaultStore.verifyPersisted_keeps.bind fun _ _ => ?_
    exact (addToGitignore_spares hgitignore file.text).bind fun _ _ => Fx.Keeps.when fun _ =>
      secureDeleteFile_spares fun hpath => houtputs (.inr hpath)
  | rename source target =>
    refine hopen.bind fun _ h => (VaultStore.lockAndRefresh_wrapped h).bind fun _ h => ?_
    refine (VaultStore.onBody_wrapped h).bind fun _ h => ?_
    exact (VaultStore.save_wrapped h).bind fun _ _ => Fx.Keeps.pure trivial
  | retier key tier =>
    refine hopen.bind fun _ h => (VaultStore.lockAndRefresh_wrapped h).bind fun _ h => ?_
    refine (Fx.Keeps.ofResult fun _ _ => trivial).bind fun _ _ => Fx.Keeps.now.bind fun _ _ => ?_
    refine (VaultStore.onBody_wrapped h).bind fun _ h => ?_
    exact (VaultStore.save_wrapped h).bind fun _ _ => Fx.Keeps.pure trivial
  | delete key noBackup =>
    refine hopen.bind fun _ h => (VaultStore.lockAndRefresh_wrapped h).bind fun store h => ?_
    refine Fx.Keeps.ensure.bind fun _ _ => (Fx.Keeps.when fun _ => ?_).bind fun _ _ => ?_
    · exact (writeBackup_spares fun now hpath => houtputs ⟨now, hpath⟩).attempt.bind fun _ _ =>
        Fx.Keeps.pure trivial
    · exact (VaultStore.save_wrapped (h.withBody (deleteEntry key store.body).1)).bind fun _ _ =>
        Fx.Keeps.pure trivial
  | receive file dryRun pre force =>
    refine Fx.Keeps.check.mapErr.bind fun _ _ => ?_
    refine (Fx.Keeps.ofResult fun _ _ => trivial).bind fun _ _ => hopen.bind fun _ h => ?_
    refine (Fx.Keeps.ofResult fun _ _ => trivial).bind fun _ _ => Fx.Keeps.when fun _ => ?_
    refine (VaultStore.lockAndRefresh_wrapped h).bind fun _ h => ?_
    exact (receiveAll_wrapped h).bind fun _ h => Fx.Keeps.when fun _ => saveAndVerify_wrapped h
  | scanAdopt findings pre force marker =>
    have hmarker : path ≠ marker := fun hpath => houtputs (.inl hpath)
    have hfindings : ¬Adoptable findings path := fun hpath => houtputs (.inr hpath)
    refine Fx.Keeps.bind (A := fun _ => True) ?_ fun _ _ => Fx.Keeps.pure trivial
    refine (adoptFindings_wrapped hsees hfindings).bind fun _ _ => ?_
    refine Fx.Keeps.bind (A := fun _ => True) ?_ fun _ _ => Fx.Keeps.pure trivial
    cases pre with
    | none => exact Fx.Keeps.pure trivial
    | some p => exact (Fx.Footprint.write (Set.mem_singleton marker) _).keeps hmarker

end

/-! ## Commands that make a slot -/

/-- The phrases that the code makes. -/
def freshPhrases [Bip39] : Set Str :=
  {s | ∃ n, s = Bip39.print (Bip39.fromEntropy (Octets.random32 n))}

/-- A step that leaves the access, and one that may replace it. -/
theorem keeps_then {α β : Type} {x : Prog α} {f : α → Prog β} {A : α → Prop}
    {Q : β → Disk → Prop} {E : Disk → Prop} (hx : Fx.Keeps m path a.Guards x A)
    (hE : ∀ w : Disk, a.Guards (w.fs path) → E w)
    (hf : ∀ r, A r → Fx.Meets m (fun w => a.Guards (w.fs path)) (f r) Q E) :
    Fx.Meets m (fun w => a.Guards (w.fs path)) (x >>= f) Q E :=
  Fx.Meets.bind (Fx.Meets.weaken hx (fun _ hw => hw) (fun _ _ hw => hw) hE)
    fun r w hw => hf r hw.1 w hw.2

/-- The vault has its access, or its passphrase was replaced by one that was
typed twice. -/
def Repassed (a : Access) (path : Path) (newPass confirm : Str) (w : Disk) : Prop :=
  a.Guards (w.fs path) ∨ (newPass ≠ [] ∧ newPass = confirm) ∧
    Access.Guards { a with passphrase := newPass } (w.fs path)

/-- The vault has its access, or its recovery phrase was replaced. -/
def Rephrased [Bip39] (a : Access) (path : Path) (w : Disk) : Prop :=
  a.Guards (w.fs path) ∨
    ∃ phrase ∈ freshPhrases, Access.Guards { a with phrase := some phrase } (w.fs path)

section

variable [Bip39]

/-- A new phrase, which is one that can be drawn. -/
theorem VaultStore.generateRecoveryKey_wrapped {store : VaultStore} (h : a.Wrapped path store) :
    Fx.Keeps m path a.Guards store.generateRecoveryKey fun r =>
      r.2 ∈ freshPhrases ∧ Access.Wrapped { a with phrase := some r.2 } path r.1 := by
  refine Fx.Keeps.random.bind fun entropy _ => Fx.Keeps.random.bind fun salt _ => ?_
  refine Fx.Keeps.random.bind fun nonce _ => Fx.Keeps.bind
    (Fx.Keeps.ofResult fun store' hstore' => h.rewrapRecovery hstore') fun store' hstore' => ?_
  exact Fx.Keeps.pure ⟨⟨entropy, rfl⟩, hstore'⟩

/-- A new recovery phrase is in force once it is shown. -/
theorem rephrase_meets {store : VaultStore} (h : a.Wrapped path store) :
    Fx.Meets m (fun w => a.Guards (w.fs path))
      (do
        let store ← store.lockAndRefresh
        let (store, phrase) ← store.generateRecoveryKey
        let _ ← store.save
        pure phrase : Prog Str)
      (fun phrase w => Access.Guards { a with phrase := some phrase } (w.fs path))
      (Rephrased a path) := by
  have hleft : ∀ w : Disk, a.Guards (w.fs path) → Rephrased a path w := fun _ hw => .inl hw
  refine keeps_then (VaultStore.lockAndRefresh_wrapped h) hleft fun store h => ?_
  refine keeps_then (VaultStore.generateRecoveryKey_wrapped h) hleft fun r hr => ?_
  obtain ⟨hfresh, hwrapped⟩ := hr
  refine Fx.Meets.bind ((VaultStore.save_replaces hwrapped).weaken (fun _ hw => hw)
    (fun _ _ hw => hw.2) fun w hw => ?_) fun _ => Fx.Meets.pure fun _ hw => hw
  obtain hold | hnew := hw
  · exact .inl hold
  · exact .inr ⟨_, hfresh, hnew⟩

/-- `recover` ends with the new phrase in force, or with one of the two if it
fails. -/
theorem cmdRecover_meets (terminal : Terminal) (mnemonic : Str) :
    Fx.Meets m (fun w => a.Guards (w.fs path)) (cmdRecover path terminal mnemonic)
      (fun phrase w => Access.Guards { a with phrase := some phrase } (w.fs path))
      (Rephrased a path) := by
  have hleft : ∀ w : Disk, a.Guards (w.fs path) → Rephrased a path w := fun _ hw => .inl hw
  refine keeps_then (Fx.Keeps.ensure (p := path)) hleft fun _ _ => ?_
  refine keeps_then Fx.Keeps.pathExists hleft fun _ _ => ?_
  refine keeps_then Fx.Keeps.ensure hleft fun _ _ => ?_
  exact keeps_then (VaultStore.openAtWithMnemonic_wrapped mnemonic) hleft
    fun store h => rephrase_meets h

/-- `new-recovery-key`, in the same way. -/
theorem cmdNewRecoveryKey_meets (hsees : SeesVault path m) (terminal : Terminal)
    (passphrase : Str) :
    Fx.Meets m (fun w => a.Guards (w.fs path)) (cmdNewRecoveryKey path terminal passphrase)
      (fun phrase w => Access.Guards { a with phrase := some phrase } (w.fs path))
      (Rephrased a path) := by
  have hleft : ∀ w : Disk, a.Guards (w.fs path) → Rephrased a path w := fun _ hw => .inl hw
  refine keeps_then (Fx.Keeps.ensure (p := path)) hleft fun _ _ => ?_
  refine keeps_then Fx.Keeps.pathExists hleft fun _ _ => ?_
  refine keeps_then Fx.Keeps.ensure hleft fun _ _ => ?_
  exact keeps_then (VaultStore.openAtWithPassphrase_wrapped hsees passphrase) hleft
    fun store h => rephrase_meets h

omit [Bip39] in
/-- The other slot and the data key stay. -/
theorem VaultStore.changePassphrase_wrapped {store : VaultStore} (h : a.Wrapped path store)
    (passphrase : Str) :
    Fx.Keeps m path a.Guards (store.changePassphrase passphrase)
      (Access.Wrapped { a with passphrase } path) :=
  Fx.Keeps.random.bind fun _ _ => Fx.Keeps.random.bind fun _ _ =>
    Fx.Keeps.ofResult fun _ hstore' => h.rewrapPassphrase hstore'

omit [Bip39] in
/-- A passphrase is in force once it was set. -/
theorem repass_meets {store : VaultStore} (h : a.Wrapped path store) (newPass confirm : Str) :
    Fx.Meets m (fun w => a.Guards (w.fs path))
      (do
        Fx.ensure (newPass ≠ []) "passphrase cannot be empty"
        Fx.ensure (newPass = confirm) "passphrases do not match"
        let store ← store.lockAndRefresh
        let store ← store.changePassphrase newPass
        let _ ← store.save : Prog Unit)
      (fun _ w => Access.Guards { a with passphrase := newPass } (w.fs path))
      (Repassed a path newPass confirm) := by
  have hleft : ∀ w : Disk, a.Guards (w.fs path) → Repassed a path newPass confirm w :=
    fun _ hw => .inl hw
  refine keeps_then Fx.Keeps.ensure hleft fun _ hgiven => ?_
  refine keeps_then Fx.Keeps.ensure hleft fun _ hconfirmed => ?_
  refine keeps_then (VaultStore.lockAndRefresh_wrapped h) hleft fun store h => ?_
  refine keeps_then (VaultStore.changePassphrase_wrapped h newPass) hleft fun store h => ?_
  refine Fx.Meets.bind ((VaultStore.save_replaces h).weaken (fun _ hw => hw) (fun _ _ hw => hw.2)
    fun w hw => ?_) fun _ => Fx.Meets.pure fun _ hw => hw
  obtain hold | hnew := hw
  · exact .inl hold
  · exact .inr ⟨⟨hgiven, hconfirmed⟩, hnew⟩

/-- `change-passphrase`, with either choice. -/
theorem cmdChangePassphrase_meets (hsees : SeesVault path m) (unlock : Unlock)
    (choice mnemonic newPass confirm : Str) :
    Fx.Meets m (fun w => a.Guards (w.fs path))
      (cmdChangePassphrase path unlock choice mnemonic newPass confirm)
      (fun _ w => Access.Guards { a with passphrase := newPass } (w.fs path))
      (Repassed a path newPass confirm) := by
  have hleft : ∀ w : Disk, a.Guards (w.fs path) → Repassed a path newPass confirm w :=
    fun _ hw => .inl hw
  refine keeps_then Fx.Keeps.pathExists hleft fun _ _ => ?_
  refine keeps_then Fx.Keeps.ensure hleft fun _ _ => ?_
  dsimp only
  split
  · exact keeps_then (VaultStore.openAtWithMnemonic_wrapped mnemonic) hleft
      fun store h => repass_meets h newPass confirm
  · exact keeps_then (openVault_wrapped hsees unlock) hleft
      fun store h => repass_meets h newPass confirm

/-- `init` does nothing where a vault is seen. -/
theorem cmdInit_wrapped (hsees : SeesVault path m) (terminal : Terminal)
    (passphrase confirm : Str) :
    Fx.Keeps m path a.Guards (cmdInit path terminal passphrase confirm) fun _ => True := by
  refine Fx.Keeps.ensure.bind fun _ _ => (pathExists_sees hsees).bind fun existed hexisted => ?_
  subst hexisted
  exact Fx.Keeps.pure trivial

end

end

/-! ## Runs -/

/-- The files a task writes beside the vault. -/
def Task.outputs (path : Path) : Task → Set Path
  | .command _ cmd => cmd.outputs path
  | _ => ∅

/-- The passphrases that may be in force once a task was answered, of those
that may have been in force before. -/
def Task.passphrases (before : Set Str) : Task × Result (Option Str) → Set Str
  | (.changePassphrase _ _ _ newPass _, .ok _) => {newPass}
  | (.changePassphrase _ _ _ newPass confirm, .error _) =>
    before ∪ {p | p = newPass ∧ newPass ≠ [] ∧ newPass = confirm}
  | _ => before

/-- The recovery phrases that may be in force once a task was answered. -/
def Task.phrases [Bip39] (before : Set (Option Str)) :
    Task × Result (Option Str) → Set (Option Str)
  | (.recover _ _, .ok shown) | (.newRecoveryKey _ _, .ok shown) => {shown}
  | (.recover _ _, .error _) | (.newRecoveryKey _ _, .error _) =>
    before ∪ {s | ∃ phrase ∈ freshPhrases, s = some phrase}
  | _ => before

section

variable [Bip39] {before after : Set Str}

omit [Bip39] in
/-- More may have been in force before. -/
theorem Task.passphrases_mono (h : before ⊆ after) (answer : Task × Result (Option Str)) :
    Task.passphrases before answer ⊆ Task.passphrases after answer := by
  unfold Task.passphrases
  split
  · exact subset_rfl
  · exact Set.union_subset_union_left _ h
  · exact h

theorem Task.phrases_mono {before after : Set (Option Str)} (h : before ⊆ after)
    (answer : Task × Result (Option Str)) :
    Task.phrases before answer ⊆ Task.phrases after answer := by
  unfold Task.phrases
  split
  · exact subset_rfl
  · exact subset_rfl
  · exact Set.union_subset_union_left _ h
  · exact Set.union_subset_union_left _ h
  · exact h

/-- What tasks may make of the access to a vault, given their answers. -/
structure Leads (a : Access) (answers : List (Task × Result (Option Str))) (b : Access) :
    Prop where
  dataKey : b.dataKey = a.dataKey
  passphrase : b.passphrase ∈ answers.foldl Task.passphrases {a.passphrase}
  phrase : b.phrase ∈ answers.foldl Task.phrases {a.phrase}

omit [Bip39] in
theorem foldl_subset {α β : Type} {f : Set α → β → Set α}
    (hf : ∀ {s t : Set α}, s ⊆ t → ∀ x, f s x ⊆ f t x) (xs : List β) {s t : Set α}
    (h : s ⊆ t) : xs.foldl f s ⊆ xs.foldl f t := by
  induction xs generalizing s t with
  | nil => exact h
  | cons x rest ih => exact ih (hf h x)

theorem Leads.refl (a : Access) : Leads a [] a :=
  ⟨rfl, rfl, rfl⟩

/-- The answers of a first task, and then those of the rest. -/
theorem Leads.cons {a b c : Access} {answer : Task × Result (Option Str)}
    {rest : List (Task × Result (Option Str))} (h : Leads a [answer] b) (h' : Leads b rest c) :
    Leads a (answer :: rest) c where
  dataKey := h'.dataKey.trans h.dataKey
  passphrase := foldl_subset Task.passphrases_mono rest
    (Set.singleton_subset_iff.mpr h.passphrase) h'.passphrase
  phrase := foldl_subset Task.phrases_mono rest (Set.singleton_subset_iff.mpr h.phrase) h'.phrase

end

section

variable [Chrono] [JsonText] [Bip39] {path : Path} {m : Machine} {a : Access} {w : Disk}

omit [Chrono] [JsonText] in
/-- A task that made a new recovery phrase and showed it. -/
theorem rephrase_leads {task : Task} {x : Prog Str} (hw : a.Guards (w.fs path))
    (hx : Fx.Meets m (fun w => a.Guards (w.fs path)) x
      (fun phrase w => Access.Guards { a with phrase := some phrase } (w.fs path))
      (Rephrased a path))
    (hpass : ∀ r, Task.passphrases {a.passphrase} (task, r) = {a.passphrase})
    (hok : ∀ shown, Task.phrases {a.phrase} (task, .ok shown) = {shown})
    (herror : ∀ e, Task.phrases {a.phrase} (task, .error e) =
      {a.phrase} ∪ {s | ∃ phrase ∈ freshPhrases, s = some phrase}) :
    ∃ b : Access, b.Guards (((some <$> x : Prog (Option Str)).run m w).2.fs path) ∧
      Leads a [(task, ((some <$> x : Prog (Option Str)).run m w).1)] b := by
  have hend := hx w hw
  rw [map_eq_pure_bind, Fx.bind_run]
  rcases hrun : x.run m w with ⟨e | phrase, w'⟩
  · rw [hrun] at hend
    obtain hold | ⟨phrase, hfresh, hnew⟩ := hend
    · exact ⟨a, hold, rfl, by simp [hpass], by simp [herror]⟩
    · exact ⟨_, hnew, rfl, by simp [hpass], by simp [herror, hfresh]⟩
  · rw [hrun] at hend
    exact ⟨_, hend, rfl, by simp [hpass], by simp [hok]⟩

/-- One task, at any fault. -/
theorem Task.run_leads (task : Task) (hsees : SeesVault path m)
    (houtputs : path ∉ task.outputs path) (hw : a.Guards (w.fs path)) :
    ∃ b : Access, b.Guards (((task.run path).run m w).2.fs path) ∧
      Leads a [(task, ((task.run path).run m w).1)] b := by
  cases task with
  | command unlock cmd =>
    have hkeeps : Fx.Keeps m path a.Guards (do cmd.run path unlock; pure none : Prog (Option Str))
        fun _ => True :=
      (Command.run_wrapped hsees unlock cmd houtputs).bind fun _ _ => Fx.Keeps.pure trivial
    exact ⟨a, hkeeps.run hw, rfl, rfl, rfl⟩
  | init terminal passphrase confirm =>
    exact ⟨a, (cmdInit_wrapped hsees terminal passphrase confirm).run hw, rfl, rfl, rfl⟩
  | recover terminal mnemonic =>
    exact rephrase_leads hw (cmdRecover_meets terminal mnemonic) (fun _ => rfl) (fun _ => rfl)
      fun _ => rfl
  | newRecoveryKey terminal passphrase =>
    exact rephrase_leads hw (cmdNewRecoveryKey_meets hsees terminal passphrase) (fun _ => rfl)
      (fun _ => rfl) fun _ => rfl
  | changePassphrase unlock choice mnemonic newPass confirm =>
    have hend := cmdChangePassphrase_meets hsees unlock choice mnemonic newPass confirm w hw
    unfold Task.run
    rw [Fx.bind_run]
    rcases hrun : (cmdChangePassphrase path unlock choice mnemonic newPass confirm).run m w with
      ⟨e | u, w'⟩
    · rw [hrun] at hend
      obtain hold | ⟨hgiven, hnew⟩ := hend
      · exact ⟨a, hold, rfl, by simp [Task.passphrases], rfl⟩
      · exact ⟨_, hnew, rfl, .inr ⟨rfl, hgiven⟩, rfl⟩
    · rw [hrun] at hend
      exact ⟨_, hend, rfl, rfl, rfl⟩

/-- The jobs of a run: their machines see the vault, and no job writes over it
a file of another kind. -/
def JobsFit (path : Path) (jobs : List Job) : Prop :=
  ∀ job ∈ jobs, SeesVault path job.machine ∧ path ∉ job.task.outputs path

/-- By induction on the jobs: each begins with the access that the one before
has left. -/
theorem runJobs_leads {jobs : List Job} (hjobs : JobsFit path jobs) (hw : a.Guards (w.fs path)) :
    ∃ b : Access, b.Guards ((runJobs path jobs w).2.fs path) ∧
      Leads a (runJobs path jobs w).1 b := by
  induction jobs generalizing a w with
  | nil => exact ⟨a, hw, .refl a⟩
  | cons job rest ih =>
    obtain ⟨hjob, hrest⟩ := List.forall_mem_cons.mp hjobs
    obtain ⟨b, hb, hleads⟩ := job.task.run_leads hjob.1 hjob.2 hw
    obtain ⟨c, hc, hleads'⟩ := ih hrest hb
    exact ⟨c, hc, hleads.cons hleads'⟩

/-- The vault opens with one passphrase and, where there is one, with one
recovery phrase; either gives the same identity to share with. -/
structure Access.Unlocks (a : Access) (m : Machine) (path : Path) (w : Disk) : Prop where
  passphrase : ∀ p, (∃ store, Opens m (VaultStore.openAtWithPassphrase path p) w store) ↔
    p = a.passphrase
  mnemonic : ∀ text, (∃ store, Opens m (VaultStore.openAtWithMnemonic path text) w store) ↔
    ∃ phrase, readMnemonic text = .ok phrase ∧ a.phrase = some phrase
  identity : ∀ store, (∃ p, Opens m (VaultStore.openAtWithPassphrase path p) w store) ∨
    (∃ text, Opens m (VaultStore.openAtWithMnemonic path text) w store) →
      store.shareIdentitySeed = deriveSubkey a.dataKey "share-identity-x25519".toList

omit [Chrono] [JsonText] in
/-- An access says which secrets open the vault. -/
theorem Access.Guards.unlocks (h : a.Guards (w.fs path)) (hm : m.Faultless) :
    a.Unlocks m path w := by
  obtain ⟨file, body, hfs, hfile⟩ := h
  have hpass := opens_passphrase_iff hm hfs hfile
  have hmnemonic := opens_mnemonic_iff hm hfs hfile
  refine ⟨fun p => by simp [hpass], fun text => by simp [hmnemonic], ?_⟩
  intro store hopens
  have hstore : store = .opened path file a.dataKey body := by
    obtain ⟨p, h⟩ | ⟨text, h⟩ := hopens
    · exact ((hpass p store).mp h).2
    · exact ((hmnemonic text store).mp h).2
  rw [hstore]
  rfl

/-- **After any jobs, each on a machine of its own with any faults and kills,
the vault opens with one passphrase**: the last that was set, or one that a
job has failed to set since. The same holds of the recovery phrase, and the
identity of the vault stays. -/
theorem runJobs_unlocks {jobs : List Job} (hjobs : JobsFit path jobs) (hw : a.Guards (w.fs path)) :
    ∃ b : Access, Leads a (runJobs path jobs w).1 b ∧
      ∀ m : Machine, m.Faultless → b.Unlocks m path (runJobs path jobs w).2 := by
  obtain ⟨b, hb, hleads⟩ := runJobs_leads hjobs hw
  exact ⟨b, hleads, fun m hm => hb.unlocks hm⟩

end

/-! ## A first vault -/

section

variable [Bip39] {path : Path} {m : Machine}

/-- The vault was just made: it opens with the passphrase, it may have one of
the phrases, and it has no entries. -/
def Begun (path : Path) (passphrase : Str) (phrases : Set (Option Str)) (w : Disk) : Prop :=
  sealedBody (w.fs path) = some ∅ ∧ ∃ a : Access, a.Guards (w.fs path) ∧
    a.passphrase = passphrase ∧ a.phrase ∈ phrases

omit [Bip39] in
/-- A file that is absent is not seen, whatever fails. -/
theorem pathExists_keeps_none :
    Fx.Keeps m path (fun c : Option Contents => c = none) (Fx.pathExists path)
      fun existed => existed = false := by
  intro w hw
  have hnone : (w.fs path).isSome = false := by rw [hw, Option.isSome_none]
  unfold Fx.pathExists
  rw [Fx.bind_run, Fx.attempt_run, Fx.check]
  rcases hfault : m.next w (.stat path) with _ | ⟨left | left⟩
  · rw [Fx.step_of_none hfault]
    exact ⟨hnone, hw⟩
  · rw [Fx.step_of_fail hfault]
    exact ⟨rfl, hw⟩
  · rw [Fx.step_of_kill hfault]
    exact hw

omit [Bip39] in
/-- Where there is no vault, opening one makes it. -/
theorem openAtWithPassphrase_creates (passphrase : Str) :
    Fx.Meets m (fun w => w.fs path = none) (VaultStore.openAtWithPassphrase path passphrase)
      (fun store w => ∃ dataKey, Access.Wrapped ⟨passphrase, none, dataKey⟩ path store ∧
        Access.Guards ⟨passphrase, none, dataKey⟩ (w.fs path))
      (fun w => w.fs path = none ∨
        ∃ dataKey, Access.Guards ⟨passphrase, none, dataKey⟩ (w.fs path)) := by
  intro w hw
  have hopen := @VaultStore.openAtWithPassphrase_meets m path w passphrase
    (by simp [hw]) w (.refl ∅ w)
  have hholds := @Tracks.created_holds path passphrase w.rng (w.rng + 3)
  rcases hrun : (VaultStore.openAtWithPassphrase path passphrase).run m w with ⟨e | store, w'⟩
  · rw [hrun] at hopen
    obtain hkept | hcreated := hopen
    · exact .inl (hkept.fs.trans hw)
    · exact .inr ⟨.random w.rng, _, _, hcreated.written, hholds⟩
  · rw [hrun] at hopen
    obtain ⟨-, c, hc, -⟩ | ⟨hcreated, rfl⟩ := hopen
    · rw [hw] at hc
      cases hc
    · have hwrapped : Access.Wrapped ⟨passphrase, none, .random w.rng⟩ path
          (.opened path ((VaultStore.created path passphrase w.rng).toFile (w.rng + 3))
            (.random w.rng) ∅) := ⟨rfl, hholds.kdf, hholds.passphrase, hholds.recovery, rfl⟩
      exact ⟨.random w.rng, hwrapped, _, _, hcreated.written, hholds⟩

/-- The phrase that `init` shows is the one in force. -/
theorem firstPhrase_meets {a : Access} {store : VaultStore} (h : a.Wrapped path store) :
    Fx.Meets m (fun w => a.Guards (w.fs path))
      (do
        let store ← store.save
        let (store, mnemonic) ← store.generateRecoveryKey
        let _ ← store.save
        pure (some mnemonic) : Prog (Option Str))
      (fun shown w => ∃ phrase, shown = some phrase ∧
        Access.Guards { a with phrase := shown } (w.fs path))
      (Rephrased a path) := by
  have hleft : ∀ w : Disk, a.Guards (w.fs path) → Rephrased a path w := fun _ hw => .inl hw
  refine keeps_then (VaultStore.save_wrapped h) hleft fun store h => ?_
  refine keeps_then (VaultStore.generateRecoveryKey_wrapped h) hleft fun r hr => ?_
  obtain ⟨hfresh, hwrapped⟩ := hr
  refine Fx.Meets.bind ((VaultStore.save_replaces hwrapped).weaken (fun _ hw => hw)
    (fun _ _ hw => hw.2) fun w hw => ?_) fun _ => Fx.Meets.pure fun _ hw => ⟨_, rfl, hw⟩
  obtain hold | hnew := hw
  · exact .inl hold
  · exact .inr ⟨_, hfresh, hnew⟩

/-- A new phrase changes no body. -/
theorem VaultStore.generateRecoveryKey_keeps {I : VaultBody → Prop} {K : Option Contents → Prop}
    {store : VaultStore} (h : GoodStore I path store) :
    Fx.Keeps m path K store.generateRecoveryKey fun r => GoodStore I path r.1 := by
  refine Fx.Keeps.random.bind fun entropy _ => Fx.Keeps.random.bind fun salt _ => ?_
  refine Fx.Keeps.random.bind fun nonce _ => Fx.Keeps.bind (A := GoodStore I path)
    (Fx.Keeps.ofResult fun store' hstore' => ?_) fun store' hstore' => Fx.Keeps.pure hstore'
  unfold rewrapRecovery at hstore'
  rw [result_bind_eq_ok] at hstore'
  obtain ⟨slot, -, hstore'⟩ := hstore'
  cases hstore'
  exact h

/-- Whatever `init` leaves, its body is empty. -/
theorem cmdInit_keeps {I : VaultBody → Prop} (hempty : I ∅) (terminal : Terminal)
    (passphrase confirm : Str) :
    Fx.Keeps m path (HoldsBody I {passphrase}) (cmdInit path terminal passphrase confirm)
      fun _ => True := by
  refine Fx.Keeps.ensure.bind fun _ _ => Fx.Keeps.pathExists.bind fun existed _ => ?_
  cases existed with
  | true => exact Fx.Keeps.pure trivial
  | false =>
    refine Fx.Keeps.check.bind fun _ _ => Fx.Keeps.ensure.bind fun _ _ => ?_
    refine Fx.Keeps.ensure.bind fun _ _ => ?_
    have hmem : passphrase ∈ ({passphrase} : Set Str) := rfl
    refine (VaultStore.openAtWithPassphrase_keeps hempty hmem).bind fun _ h => ?_
    refine (VaultStore.save_keeps h).bind fun _ h => ?_
    refine (VaultStore.generateRecoveryKey_keeps h).bind fun _ h => ?_
    exact (VaultStore.save_keeps h).bind fun _ _ => Fx.Keeps.pure trivial

/-- A file that is absent before and at the first failure. -/
theorem cmdInit_meets (terminal : Terminal) (passphrase confirm : Str) :
    Fx.Meets m (fun w => w.fs path = none) (cmdInit path terminal passphrase confirm)
      (fun shown w => (passphrase ≠ [] ∧ passphrase = confirm) ∧ ∃ dataKey phrase,
        shown = some phrase ∧ Access.Guards ⟨passphrase, shown, dataKey⟩ (w.fs path))
      (fun w => w.fs path = none ∨ (passphrase ≠ [] ∧ passphrase = confirm) ∧
        ∃ dataKey, Rephrased ⟨passphrase, none, dataKey⟩ path w) := by
  have absent : ∀ {α : Type} {A : α → Prop} {x : Prog α}, Fx.Keeps m path (· = none) x A →
      Fx.Meets m (fun w => w.fs path = none) x (fun r w => w.fs path = none ∧ A r)
        (fun w => w.fs path = none ∨ (passphrase ≠ [] ∧ passphrase = confirm) ∧
          ∃ dataKey, Rephrased ⟨passphrase, none, dataKey⟩ path w) := by
    intro α A x hx
    exact Fx.Meets.weaken hx (fun _ hw => hw) (fun _ _ hw => ⟨hw.2, hw.1⟩) fun _ hw => .inl hw
  refine Fx.Meets.bind (absent Fx.Keeps.ensure) fun _ => Fx.Meets.fact fun _ => ?_
  refine Fx.Meets.bind (absent pathExists_keeps_none) fun existed =>
    Fx.Meets.fact fun hexisted => ?_
  subst hexisted
  refine Fx.Meets.bind (absent Fx.Keeps.check) fun _ => Fx.Meets.fact fun _ => ?_
  refine Fx.Meets.bind (absent Fx.Keeps.ensure) fun _ => Fx.Meets.fact fun hgiven => ?_
  refine Fx.Meets.bind (absent Fx.Keeps.ensure) fun _ => Fx.Meets.fact fun hconfirmed => ?_
  refine Fx.Meets.bind ((openAtWithPassphrase_creates passphrase).weaken (fun _ hw => hw)
    (fun _ _ hw => hw) fun w hw => ?_) fun store w hw => ?_
  · obtain habsent | ⟨dataKey, hnew⟩ := hw
    · exact .inl habsent
    · exact .inr ⟨⟨hgiven, hconfirmed⟩, dataKey, .inl hnew⟩
  · obtain ⟨dataKey, hwrapped, hguards⟩ := hw
    refine Fx.Meets.weaken (firstPhrase_meets hwrapped) (fun _ hw => hw) ?_ ?_ w hguards
    · intro shown v hv
      obtain ⟨phrase, hshown, hnew⟩ := hv
      exact ⟨⟨hgiven, hconfirmed⟩, dataKey, phrase, hshown, hnew⟩
    · exact fun v hv => .inr ⟨⟨hgiven, hconfirmed⟩, dataKey, hv⟩

omit [Bip39] in
/-- A vault of one access, whose body can only be empty, has just begun. -/
theorem Begun.of_guards {a : Access} {phrases : Set (Option Str)} {w : Disk}
    (hguards : a.Guards (w.fs path)) (hphrase : a.phrase ∈ phrases)
    (hbody : ∀ body, sealedBody (w.fs path) = some body → body = ∅) :
    Begun path a.passphrase phrases w := by
  obtain ⟨file, body, hfs, hholds⟩ := hguards
  obtain ⟨nonce, hvault⟩ := hholds.vault
  have hdecrypt : decryptBody a.dataKey file.vault = .ok body := by
    rw [hvault]
    exact decryptBody_sealed
  have hsealed : sealedBody (w.fs path) = some body := by
    rw [hfs]
    exact sealedBody_of_decryptBody hdecrypt
  obtain rfl := hbody body hsealed
  exact ⟨hsealed, a, ⟨file, _, hfs, hholds⟩, rfl, hphrase⟩

/-- **A first `init` makes a vault or none**, whatever fails and wherever it is
killed: one that opens with the passphrase that was typed twice. Where it
succeeds, the phrase that it shows opens the vault. -/
theorem cmdInit_begins {terminal : Terminal} {passphrase confirm : Str} {w w' : Disk}
    {r : Result (Option Str)} (habsent : w.fs path = none)
    (hrun : (cmdInit path terminal passphrase confirm).run m w = (r, w')) :
    (∀ shown, r = .ok shown → ∃ phrase, shown = some phrase ∧
      Begun path passphrase {some phrase} w') ∧
    (∀ e, r = .error e → w'.fs path = none ∨
      Begun path passphrase {s | ∀ phrase ∈ s, phrase ∈ freshPhrases} w') ∧
    (w'.fs path ≠ none → passphrase ≠ [] ∧ passphrase = confirm) := by
  have hend := @cmdInit_meets _ path m terminal passphrase confirm w habsent
  have hkeeps : Fx.Keeps m path (HoldsBody (fun body => body = ∅) {passphrase})
      (cmdInit path terminal passphrase confirm) fun _ => True :=
    cmdInit_keeps (I := fun body => body = ∅) rfl terminal passphrase confirm
  have hstart : HoldsBody (fun body => body = ∅) {passphrase} (w.fs path) := by
    rw [habsent]
    exact holdsBody_loose.absent
  have hbody := (hkeeps.run hstart).1
  rw [hrun] at hend hbody
  cases r with
  | ok shown =>
    obtain ⟨htyped, dataKey, phrase, rfl, hguards⟩ := hend
    refine ⟨fun shown hshown => ?_, nofun, fun _ => htyped⟩
    cases hshown
    exact ⟨phrase, rfl, .of_guards hguards rfl hbody⟩
  | error e =>
    refine ⟨nofun, fun e' _ => ?_, fun hsome => ?_⟩
    · obtain hnone | ⟨-, dataKey, hold | ⟨phrase, hfresh, hnew⟩⟩ := hend
      · exact .inl hnone
      · exact .inr (.of_guards hold (by simp) hbody)
      · exact .inr (.of_guards hnew (by simp [hfresh]) hbody)
    · obtain hnone | ⟨htyped, -⟩ := hend
      · exact absurd hnone hsome
      · exact htyped

end

/-- The phrase that `init` shows opens the vault it has made. -/
theorem cmdInit_begins_first :
    letI := onePhrase
    ∃ phrase : Str, ((cmdInit vaultJson ⟨true, true, false⟩ "pw".toList "pw".toList).run
        .quiet blankDisk).1 = .ok (some phrase) ∧
      Begun vaultJson "pw".toList {some phrase} ((cmdInit vaultJson ⟨true, true, false⟩
        "pw".toList "pw".toList).run .quiet blankDisk).2 := by
  let _ := onePhrase
  have hshown : ((cmdInit vaultJson ⟨true, true, false⟩ "pw".toList "pw".toList).run
      .quiet blankDisk).1 = .ok (some "zoo".toList) := by decide
  obtain ⟨phrase, hphrase, hbegun⟩ := (cmdInit_begins rfl rfl).1 _ hshown
  rw [hphrase] at hshown
  exact ⟨phrase, hshown, hbegun⟩

/-! ## An interrupted change -/

/-- A change of the passphrase is killed, a recovery phrase is made with the
old one, and a value is stored. -/
def interruptedJobs : List Job :=
  [⟨Machine.faultyAt (.rename (tmpPath vaultJson 1) vaultJson) (.kill []),
      .changePassphrase pwUnlock [] [] "np".toList "np".toList⟩,
    ⟨.quiet, .newRecoveryKey ⟨true, true, false⟩ "pw".toList⟩,
    ⟨.quiet, .command pwUnlock (.set [("k".toList, "v".toList)] none none none)⟩]

/-- A vault whose passphrase is `pw`. -/
def pwVaultDisk : Disk :=
  World.single vaultJson (.v2 ((VaultStore.created vaultJson "pw".toList 0).toFile 3)) 4

theorem pwVaultDisk_guards :
    Access.Guards ⟨"pw".toList, none, .random 0⟩ (pwVaultDisk.fs vaultJson) :=
  ⟨_, _, rfl, Tracks.created_holds "pw".toList 0 3⟩

theorem faultyAt_sees {op : FileOp} {fault : Fault} {path : Path} (h : op ≠ .stat path) :
    SeesVault path (Machine.faultyAt op fault) := by
  intro n left
  simp [Machine.faultyAt, h.symm]

theorem quiet_sees (path : Path) : SeesVault path .quiet := by
  intro n left
  simp [Machine.quiet]

theorem runJobs_unlocks_interrupted :
    letI := noDates
    letI := noJsonText
    letI := onePhrase
    ((runJobs vaultJson interruptedJobs pwVaultDisk).1.map fun answer => answer.2.isOk) =
        [false, true, true] ∧
      ∃ b : Access, Leads ⟨"pw".toList, none, .random 0⟩
          (runJobs vaultJson interruptedJobs pwVaultDisk).1 b ∧
        ∀ m : Machine, m.Faultless →
          b.Unlocks m vaultJson (runJobs vaultJson interruptedJobs pwVaultDisk).2 := by
  let _ := noDates
  let _ := noJsonText
  let _ := onePhrase
  refine ⟨by decide, runJobs_unlocks ?_ pwVaultDisk_guards⟩
  intro job hjob
  simp only [interruptedJobs, List.mem_cons, List.not_mem_nil, or_false] at hjob
  obtain rfl | rfl | rfl := hjob
  · exact ⟨faultyAt_sees (by simp), id⟩
  · exact ⟨quiet_sees vaultJson, id⟩
  · exact ⟨quiet_sees vaultJson, id⟩

end HearthVault
