/-
HearthVault.Store.MigrateTheorems — migration from v1: what it converts, and
at which faults it keeps the only copy of the secrets.

`convertV1_eq_ok` says that a converted body holds exactly the v1 entries.
The two halves of the program have one lemma each for every way they end:
`backupV1` never touches the vault path (`backupV1_frame`), while `replaceV1`
empties it before it writes it (`publish_torn`) and can fail after it has
written it (`publish_written`). `migrate_safe_iff` puts them together: the
faults at which nothing is lost are exactly those of `SafeFaults`.
-/
import HearthVault.Store.SealingTheorems
import HearthVault.Store.VaultStore

namespace HearthVault

open Files Symbolic

/-! ## Conversion -/

/-- The value of a v1 entry under a passphrase. -/
def V1Value (file : VaultFileV1) (passphrase : Str) (entry : EncryptedEntryV1)
    (value : Str) : Prop :=
  ∃ salt nonce, file.salt = .encoded salt ∧ entry.ciphertext = .encoded
    ⟨.subkey (.argon2id passphrase salt v1Kdf) "vault-credentials".toList, nonce, [], .utf8 value⟩

/-- The body holds the entries of a v1 file, with no rotation policy, and
nothing else. -/
structure Converted (file : VaultFileV1) (passphrase : Str) (body : VaultBody) : Prop where
  entries : ∀ (name : Str) (entry : BodyEntry), body[name]? = some entry ↔
    ∃ old value, file.entries[name]? = some old ∧ V1Value file passphrase old value ∧
      entry = ⟨value, old.tier, old.createdAt, old.updatedAt, none, none⟩
  complete : ∀ name : Str, body[name]?.isSome = file.entries[name]?.isSome

theorem v1EntryKey_eq_ok {file : VaultFileV1} {passphrase : Str} {key : Key}
    (h : v1EntryKey file passphrase = .ok key) : ∃ salt, file.salt = .encoded salt ∧
      key = .subkey (.argon2id passphrase salt v1Kdf) "vault-credentials".toList := by
  simp only [v1EntryKey, result_bind_eq_ok, mapErr_eq_ok, deriveKeyArgon2id_eq_ok] at h
  obtain ⟨salt, hsalt, _, ⟨_, rfl⟩, h⟩ := h
  cases h
  cases hs : file.salt with
  | malformed text => simp [decodeSalt, hs, B64.decode, bail, bind, Except.bind] at hsalt
  | encoded bytes =>
    simp only [decodeSalt, hs, B64.decode_encoded, result_bind_eq_ok] at hsalt
    obtain ⟨_, ⟨⟩, hsalt⟩ := hsalt
    split at hsalt
    · cases hsalt
    · cases hsalt
      exact ⟨salt, rfl, rfl⟩

theorem migrateEntry_eq_ok {key : Key} {name : Str} {old : EncryptedEntryV1}
    {entry : BodyEntry} : migrateEntry key name old = .ok entry ↔
      ∃ nonce value, old.ciphertext = .encoded ⟨key, nonce, [], .utf8 value⟩ ∧
        entry = ⟨value, old.tier, old.createdAt, old.updatedAt, none, none⟩ := by
  cases old with | mk ciphertext tier created updated =>
  cases ciphertext with
  | malformed text => simp [migrateEntry, B64.decode, bail, bind, Except.bind]
  | encoded ciphertext =>
    cases ciphertext with | mk k nonce aad plaintext =>
    by_cases hopen : k = key ∧ aad = []
    · obtain ⟨rfl, rfl⟩ := hopen
      cases plaintext <;> simp [migrateEntry, bail, eq_comm (a := entry)]
    · have hnone : Sealed.decrypt (⟨k, nonce, aad, plaintext⟩ : Ciphertext) key [] = none := by
        simp [Sealed.decrypt, hopen]
      constructor
      · intro h
        simp [migrateEntry, hnone, bail] at h
      · rintro ⟨_, _, hct, _⟩
        cases hct
        exact absurd ⟨rfl, rfl⟩ hopen

/-- The loop stores every entry under its name and touches no other name. -/
theorem migrateEntries_eq_ok {key : Key} {entries : List (Str × EncryptedEntryV1)}
    {body body' : VaultBody} (hdistinct : entries.Pairwise fun a b => a.1 ≠ b.1)
    (h : migrateEntries key body entries = .ok body') (name : Str) :
    (∀ old, (name, old) ∈ entries →
      ∃ entry, migrateEntry key name old = .ok entry ∧ body'[name]? = some entry) ∧
    ((∀ old, (name, old) ∉ entries) → body'[name]? = body[name]?) := by
  induction entries generalizing body with
  | nil =>
    cases h
    simp
  | cons head rest ih =>
    obtain ⟨first, old⟩ := head
    simp only [migrateEntries, result_bind_eq_ok] at h
    obtain ⟨entry, hentry, h⟩ := h
    obtain ⟨hfirst, hrest⟩ := List.pairwise_cons.mp hdistinct
    obtain ⟨hin, hout⟩ := ih hrest h
    by_cases hname : name = first
    · subst hname
      have hnot : ∀ old, (name, old) ∉ rest := fun old hold => hfirst _ hold rfl
      have hbody := hout hnot
      rw [Std.ExtTreeMap.getElem?_insert_self] at hbody
      refine ⟨fun old' hold => ?_, fun h => absurd List.mem_cons_self (h old)⟩
      obtain h | h := List.mem_cons.mp hold
      · cases h
        exact ⟨entry, hentry, hbody⟩
      · exact absurd h (hnot old')
    · refine ⟨fun old' hold => ?_, fun hnone => ?_⟩
      · obtain h | h := List.mem_cons.mp hold
        · cases h
          exact absurd rfl hname
        · exact hin old' h
      · rw [hout fun old' hold => hnone old' (List.mem_cons_of_mem _ hold),
          Std.ExtTreeMap.getElem?_insert, if_neg]
        simpa [compare_eq_iff_eq] using Ne.symm hname

/-- A converted body is the body of the v1 file. -/
theorem convertV1_eq_ok {file : VaultFileV1} {passphrase : Str} {body : VaultBody}
    (h : convertV1 file passphrase = .ok body) : Converted file passphrase body := by
  simp only [convertV1, result_bind_eq_ok] at h
  obtain ⟨key, hkey, h⟩ := h
  obtain ⟨salt, hsalt, hk⟩ := v1EntryKey_eq_ok hkey
  have hdistinct : file.entries.toList.Pairwise fun a b => a.1 ≠ b.1 :=
    (Std.ExtTreeMap.distinct_keys_toList (t := file.entries)).imp fun h he =>
      h (Std.LawfulEqCmp.compare_eq_iff_eq.mpr he)
  have hloop := fun name => migrateEntries_eq_ok hdistinct h name
  -- What the body has under a name, by what the v1 file has there.
  have hsome : ∀ (name : Str) (old : EncryptedEntryV1), file.entries[name]? = some old →
      ∃ entry, migrateEntry key name old = .ok entry ∧ body[name]? = some entry :=
    fun name old hold =>
      (hloop name).1 old (Std.ExtTreeMap.mem_toList_iff_getElem?_eq_some.mpr hold)
  have hnone : ∀ name : Str, file.entries[name]? = none → body[name]? = none := by
    intro name hold
    have hnone := (hloop name).2 fun old hmem => by
      rw [Std.ExtTreeMap.mem_toList_iff_getElem?_eq_some, hold] at hmem
      cases hmem
    simpa using hnone
  constructor
  · intro name entry
    cases hold : file.entries[name]? with
    | none => simp [hnone name hold]
    | some old =>
      obtain ⟨migrated, hmig, hbody⟩ := hsome name old hold
      obtain ⟨nonce, value, hct, rfl⟩ := migrateEntry_eq_ok.mp hmig
      rw [hbody]
      constructor
      · rintro ⟨⟩
        exact ⟨old, value, rfl, ⟨salt, nonce, hsalt, hk ▸ hct⟩, rfl⟩
      · rintro ⟨old', value', ⟨⟩, ⟨salt', nonce', hsalt', hct'⟩, rfl⟩
        rw [hct] at hct'
        cases hct'
        rfl
  · intro name
    cases hold : file.entries[name]? with
    | none => simp [hnone name hold]
    | some old =>
      obtain ⟨migrated, -, hbody⟩ := hsome name old hold
      simp [hbody]

/-! ## The first half: read, convert, back up -/

/-- The steps before the vault path is touched. -/
def backupSteps (path : Path) : List FileOp :=
  [.read path, .truncate (backupPathFor path), .fill (backupPathFor path),
    .stat (backupPathFor path), .chmod (backupPathFor path)]

/-- The world when the backup is made. -/
def backedUp (w : Disk) (path : Path) (contents : Contents) : Disk :=
  let bak := backupPathFor path
  (((((w.tick (.read path)).tick (.truncate bak)).put bak (Torn.torn [])).tick (.fill bak)).put bak
    contents).tick (.stat bak) |>.tick (.chmod bak)

section Backup

variable {m : Machine} {path : Path} {passphrase text : Str} {file : VaultFileV1} {w : Disk}

/-- When the backup is made, and what it then leaves. -/
theorem backupV1_eq_ok (hv1 : w.fs path = some (.v1 text file)) {body : VaultBody} {w' : Disk} :
    (backupV1 path passphrase).run m w = (.ok body, w') ↔ convertV1 file passphrase = .ok body ∧
      (∀ op ∈ backupSteps path, m.next w op = none) ∧ backedUp w path (.v1 text file) = w' := by
  have hne := backupPathFor_ne path
  simp only [backupV1, Fx.bind_eq_ok, readToString_eq_ok, Fx.ofResult_eq_ok, Fx.write_eq_ok,
    Fx.mapErr_eq_ok, restrictToOwner, Fx.metadata_eq_ok, Fx.chmod_eq_ok, Fx.pure_eq_ok]
  constructor
  · rintro ⟨c, _, ⟨hread, hfs, -, rfl⟩, v1, _, ⟨hparse, rfl⟩, _, _, ⟨hconv, rfl⟩, _, _,
      ⟨htrunc, hfill, rfl⟩, _, _, ⟨_, _, ⟨hstat, -, rfl⟩, hchmod, -, rfl⟩, rfl, rfl⟩
    rw [hv1] at hfs
    cases hfs
    cases hparse
    simp [Machine.next_tick_of_ne] at htrunc hfill hstat hchmod
    exact ⟨hconv, by simp [backupSteps, hread, htrunc, hfill, hstat, hchmod], rfl⟩
  · rintro ⟨hconv, hsteps, rfl⟩
    simp only [backupSteps, List.mem_cons, List.not_mem_nil, or_false, forall_eq_or_imp,
      forall_eq] at hsteps
    obtain ⟨hread, htrunc, hfill, hstat, hchmod⟩ := hsteps
    refine ⟨_, _, ⟨hread, hv1, nofun, rfl⟩, _, _, ⟨rfl, rfl⟩, _, _, ⟨hconv, rfl⟩, (), _,
      ⟨?_, ?_, rfl⟩, (), _, ⟨(), _, ⟨?_, ?_, rfl⟩, ?_, ?_, rfl⟩, rfl, rfl⟩
    all_goals simp [Machine.next_tick_of_ne, htrunc, hfill, hstat, hchmod]

/-- Until the backup is made nothing but the backup changes. -/
theorem backupV1_frame (m : Machine) (path : Path) (passphrase : Str) (w : Disk) :
    Fx.Meets m (w.Frame ∅) (backupV1 path passphrase)
    (fun _ => w.Frame {backupPathFor path}) (w.Frame {backupPathFor path}) := by
  have hmem : backupPathFor path ∈ ({backupPathFor path} : Set Path) := rfl
  have htick : ∀ op v, w.Frame {backupPathFor path} v → w.Frame {backupPathFor path} (v.tick op) :=
    fun op v h => h.tick op
  have hres : ∀ {α : Type} (r : Result α), Fx.Meets m (w.Frame {backupPathFor path})
      (Fx.ofResult r) (fun _ => w.Frame {backupPathFor path}) (w.Frame {backupPathFor path}) :=
    fun r => Fx.Meets.ofResult fun v h => by cases r <;> exact h
  refine Fx.Meets.bind (Q := fun _ => w.Frame {backupPathFor path}) ?_ fun contents => ?_
  · refine ((Fx.Meets.check (htick _)).weaken (fun v h => h.mono (Set.empty_subset _))
      (fun _ _ h => h) fun _ h => h).bind fun c => ?_
    cases c <;> first | exact Fx.Meets.pure (fun _ h => h) | exact hres _
  refine (hres _).bind fun v1 => (hres _).bind fun body => ?_
  refine Fx.Meets.bind (Q := fun _ => w.Frame {backupPathFor path}) ?_ fun _ => ?_
  · exact (Fx.Meets.truncate hmem).bind fun _ =>
      (Fx.Meets.fill hmem contents).weaken (fun _ h => h) (fun _ _ h => h.1) fun _ h => h
  refine Fx.Meets.bind (Q := fun _ => w.Frame {backupPathFor path}) ?_ fun _ => ?_
  · exact Fx.Meets.mapErr ((Fx.Meets.check (htick _)).bind fun _ => Fx.Meets.check (htick _))
  exact Fx.Meets.pure fun _ h => h

end Backup

/-! ## The second half: the v2 file in place -/

/-- What `replaceV1` does with the file once it is made. -/
def publish (path : Path) (contents : Contents) : Prog Unit := do
  Fx.write path contents
  Fx.mapErr ("failed to restrict vault file permissions: " ++ ·) (restrictToOwner path)

/-- An error that comes after the file is written. -/
def LateError (m : Machine) (w : Disk) (path : Path) : Prop :=
  (∃ s, m.next w (.stat path) = some (.fail s)) ∨
    (m.next w (.stat path) = none ∧ ∃ s, m.next w (.chmod path) = some (.fail s))

/-- The file that `replaceV1` publishes is a vault of its own, and nothing
has been touched by then. -/
theorem replaceV1_run (m : Machine) (path : Path) (passphrase : Str) (body : VaultBody)
    (w : Disk) : ∃ file, Holds file passphrase none (.random w.rng) body ∧
      (replaceV1 path passphrase body).run m w =
        (publish path (.v2 file)).run m { w with rng := w.rng + 4 } := by
  obtain ⟨slot, hslot⟩ : ∃ slot, VaultStore.wrapSlot passphrase (w.rng + 1) (w.rng + 2)
      aadWrapPassphrase .default (.random w.rng) = .ok slot := by
    simp [VaultStore.wrapSlot_eq_ok]
  refine ⟨⟨2, .default, ⟨slot, none⟩,
    sealed (.random w.rng) (w.rng + 3) aadVault (.body body)⟩, ?_, ?_⟩
  · exact ⟨rfl, KdfParams.default_validate, VaultStore.wrapSlot_wraps hslot, .none, _, rfl⟩
  · simp [replaceV1, publish, migratedFile, Fx.bind_run, hslot]

/-- The backup takes no attempt at a step on the vault path. -/
theorem next_backedUp (m : Machine) (w : Disk) {path : Path} (contents : Contents) {op : FileOp}
    (h : op ∉ backupSteps path) : m.next (backedUp w path contents) op = m.next w op := by
  simp only [backupSteps, List.mem_cons, List.not_mem_nil, or_false, not_or] at h
  obtain ⟨h₁, h₂, h₃, h₄, h₅⟩ := h
  simp [backedUp, Machine.next_tick_of_ne _ _ h₁, Machine.next_tick_of_ne _ _ h₂,
    Machine.next_tick_of_ne _ _ h₃, Machine.next_tick_of_ne _ _ h₄, Machine.next_tick_of_ne _ _ h₅]

section Publish

variable {m : Machine} {path : Path} (contents : Contents) {w : Disk}

/-- A fault on opening leaves the file as it was. -/
theorem publish_untouched {f : Fault} (htrunc : m.next w (.truncate path) = some f) :
    (∃ e, ((publish path contents).run m w).1 = .error e) ∧
      ((publish path contents).run m w).2.fs = w.fs := by
  cases f with
  | fail s => simp [publish, Fx.write, Fx.truncate, Fx.bind_run, Fx.step_of_fail htrunc, bail]
  | kill s => simp [publish, Fx.write, Fx.truncate, Fx.bind_run, Fx.step_of_kill htrunc]

/-- A fault while the emptied file is written leaves an incomplete file. -/
theorem publish_torn {f : Fault} (htrunc : m.next w (.truncate path) = none)
    (hfill : m.next w (.fill path) = some f) :
    ∃ s, ((publish path contents).run m w).2.fs path = some (.text s) := by
  have hfill' : m.next ((w.tick (.truncate path)).put path (Torn.torn [])) (.fill path) =
      some f := by
    rw [Machine.next_put, Machine.next_tick_of_ne _ _ (by simp), hfill]
  cases f with
  | fail s =>
    exact ⟨s, by simp [publish, Fx.write, Fx.truncate, Fx.fill, Fx.bind_run,
      Fx.step_of_none htrunc, Fx.step_of_fail hfill', bail]; rfl⟩
  | kill s =>
    exact ⟨s, by simp [publish, Fx.write, Fx.truncate, Fx.fill, Fx.bind_run,
      Fx.step_of_none htrunc, Fx.step_of_kill hfill']; rfl⟩

/-- Once the file is written it stays, whatever is answered. -/
theorem publish_written (htrunc : m.next w (.truncate path) = none)
    (hfill : m.next w (.fill path) = none) :
    ((publish path contents).run m w).2.fs = Function.update w.fs path (some contents) ∧
      ((∃ e, ((publish path contents).run m w).1 = .error (.err e)) ↔ LateError m w path) := by
  rw [publish, Fx.bind_run_ok ((Fx.write_eq_ok (u := ())).mpr ⟨htrunc, hfill, rfl⟩)]
  set v := (((w.tick (.truncate path)).put path (Torn.torn [])).tick (.fill path)).put path
    contents with hv
  have hfs : v.fs = Function.update w.fs path (some contents) := by simp [hv]
  have hstat : m.next v (.stat path) = m.next w (.stat path) := by
    simp [hv, Machine.next_tick_of_ne]
  have hchmod : m.next (v.tick (.stat path)) (.chmod path) = m.next w (.chmod path) := by
    simp [hv, Machine.next_tick_of_ne]
  have hsome : (v.fs path).isSome = true := by simp [hfs]
  rw [← hfs, LateError, ← hstat, ← hchmod]
  rcases h : m.next v (.stat path) with _ | ⟨s | s⟩
  · rcases h' : m.next (v.tick (.stat path)) (.chmod path) with _ | ⟨s | s⟩
    · simp [Fx.mapErr_run, mapErr, restrictToOwner, Fx.metadata, Fx.chmod, Fx.check, Fx.bind_run,
        Fx.step_of_none h, Fx.step_of_none h', hsome]
    · simp [Fx.mapErr_run, mapErr, restrictToOwner, Fx.metadata, Fx.chmod, Fx.check, Fx.bind_run,
        Fx.step_of_none h, Fx.step_of_fail h', hsome, bail]
    · simp [Fx.mapErr_run, mapErr, restrictToOwner, Fx.metadata, Fx.chmod, Fx.check, Fx.bind_run,
        Fx.step_of_none h, Fx.step_of_kill h', hsome]
  · simp [Fx.mapErr_run, mapErr, restrictToOwner, Fx.metadata, Fx.check, Fx.bind_run,
      Fx.step_of_fail h, bail]
  · simp [Fx.mapErr_run, mapErr, restrictToOwner, Fx.metadata, Fx.check, Fx.bind_run,
      Fx.step_of_kill h]

end Publish

/-! ## The whole migration -/

/-- What a migration should leave: the v1 file or a v2 file that opens, a
backup as soon as the v1 file is gone, the v1 entries after `Ok`, and the v1
file after `Err`. -/
structure MigrationSafe (path : Path) (passphrase text : Str) (file : VaultFileV1)
    (result : Result Unit) (after : Disk) : Prop where
  complete : after.fs path = some (.v1 text file) ∨
    ∃ v2 store, after.fs path = some (.v2 v2) ∧
      VaultStore.loadV2Contents path passphrase (.v2 v2) = .ok store
  backup : after.fs path ≠ some (.v1 text file) →
    after.fs (backupPathFor path) = some (.v1 text file)
  done : result = .ok () → ∃ contents store, after.fs path = some contents ∧
    VaultStore.loadV2Contents path passphrase contents = .ok store ∧
    Converted file passphrase store.body ∧ store.wrapRecovery = none
  failed : ∀ e, result = .error (.err e) → after.fs path = some (.v1 text file)

/-- The faults at which it does: the conversion fails, or a step before the
vault path is emptied, or the file is written and no error comes after. -/
def SafeFaults (m : Machine) (w : Disk) (path : Path) (passphrase : Str)
    (file : VaultFileV1) : Prop :=
  (∀ body, convertV1 file passphrase ≠ .ok body) ∨
    (∃ op ∈ backupSteps path, m.next w op ≠ none) ∨ m.next w (.truncate path) ≠ none ∨
    (m.next w (.fill path) = none ∧ ¬LateError m w path)

section Migrate

variable {m : Machine} {path : Path} {passphrase text : Str} {file : VaultFileV1} {w : Disk}

/-- A migration that stops while the vault path is untouched is safe. -/
theorem MigrationSafe.of_untouched {r : Result Unit} {after : Disk} (hr : r ≠ .ok ())
    (hfs : after.fs path = some (.v1 text file)) :
    MigrationSafe path passphrase text file r after :=
  ⟨.inl hfs, fun h => absurd hfs h, fun h => absurd h hr, fun _ _ => hfs⟩

/-- A first half that stops, at its conversion or at a fault, is safe. -/
theorem backupV1_stopped (hv1 : w.fs path = some (.v1 text file)) {e : Halt} {after : Disk}
    (hrun : (backupV1 path passphrase).run m w = (.error e, after)) :
    MigrationSafe path passphrase text file (.error e) after ∧
      SafeFaults m w path passphrase file := by
  have hframe := backupV1_frame m path passphrase w w (.refl ∅ w)
  rw [hrun] at hframe
  constructor
  · refine .of_untouched (by simp) ?_
    exact (hframe.fs path (backupPathFor_ne path).symm).trans hv1
  · by_cases hconv : ∃ body, convertV1 file passphrase = .ok body
    · obtain ⟨body, hbody⟩ := hconv
      by_cases hsteps : ∀ op ∈ backupSteps path, m.next w op = none
      · have hok := (backupV1_eq_ok hv1).mpr ⟨hbody, hsteps, rfl⟩
        rw [hrun] at hok
        cases hok
      · push Not at hsteps
        exact .inr (.inl hsteps)
    · push Not at hconv
      exact .inl hconv

/-- Once the backup is made, the steps on the vault path decide. -/
theorem safeFaults_backedUp {body : VaultBody} (hbody : convertV1 file passphrase = .ok body)
    (hsteps : ∀ op ∈ backupSteps path, m.next w op = none) {v : Disk}
    (hnext : ∀ op ∉ backupSteps path, m.next v op = m.next w op) :
    SafeFaults m w path passphrase file ↔ m.next v (.truncate path) ≠ none ∨
      (m.next v (.fill path) = none ∧ ¬LateError m v path) := by
  have hne : path ≠ backupPathFor path := (backupPathFor_ne path).symm
  have hlate : LateError m v path ↔ LateError m w path := by
    rw [LateError, LateError, hnext (.stat path) (by simp [backupSteps, hne]),
      hnext (.chmod path) (by simp [backupSteps, hne])]
  rw [SafeFaults, hnext (.truncate path) (by simp [backupSteps, hne]),
    hnext (.fill path) (by simp [backupSteps, hne]), hlate]
  constructor
  · rintro (h | ⟨op, hop, h⟩ | h)
    · exact absurd hbody (h body)
    · exact absurd (hsteps op hop) h
    · exact h
  · exact fun h => .inr (.inr h)

/-- A v2 file of the v1 entries that is written is safe, unless an error comes
after. -/
theorem MigrationSafe.of_written {v2 : VaultFileV2} {dataKey : Key} {body : VaultBody}
    (hbody : convertV1 file passphrase = .ok body) (hholds : Holds v2 passphrase none dataKey body)
    {r : Result Unit} {after : Disk} (hnew : after.fs path = some (.v2 v2))
    (hbak : after.fs (backupPathFor path) = some (.v1 text file))
    (hr : ∀ e, r ≠ .error (.err e)) : MigrationSafe path passphrase text file r after := by
  have hload := (hholds.load_iff path passphrase _).mpr ⟨rfl, rfl⟩
  refine ⟨.inr ⟨v2, _, hnew, hload⟩, fun _ => hbak, fun _ => ?_, fun e he => absurd he (hr e)⟩
  refine ⟨_, _, hnew, hload, convertV1_eq_ok hbody, ?_⟩
  have hrec := hholds.recovery
  cases h : v2.wrap.recovery with
  | none => exact h
  | some slot =>
    rw [h] at hrec
    cases hrec

/-- The second half, from a disk with the v1 file and its backup. -/
theorem publish_safe_iff {v2 : VaultFileV2} {dataKey : Key} {body : VaultBody} {v : Disk}
    (hbody : convertV1 file passphrase = .ok body) (hholds : Holds v2 passphrase none dataKey body)
    (hpath : v.fs path = some (.v1 text file))
    (hbak : v.fs (backupPathFor path) = some (.v1 text file)) :
    MigrationSafe path passphrase text file ((publish path (.v2 v2)).run m v).1
        ((publish path (.v2 v2)).run m v).2 ↔
      m.next v (.truncate path) ≠ none ∨
        (m.next v (.fill path) = none ∧ ¬LateError m v path) := by
  rcases ht : m.next v (.truncate path) with _ | f
  · rcases hf : m.next v (.fill path) with _ | f
    · obtain ⟨hfs, herr⟩ := publish_written (.v2 v2) ht hf
      have hnew : ((publish path (.v2 v2)).run m v).2.fs path = some (.v2 v2) := by simp [hfs]
      rw [← herr]
      constructor
      · intro hsafe
        refine .inr ⟨rfl, fun ⟨e, he⟩ => ?_⟩
        have hold := hsafe.failed e he
        rw [hnew] at hold
        cases hold
      · intro h
        obtain ⟨-, hnoerr⟩ := h.resolve_left fun h => h rfl
        refine .of_written hbody hholds hnew ?_ fun e he => hnoerr ⟨e, he⟩
        rw [hfs, Function.update_of_ne (backupPathFor_ne path), hbak]
    · obtain ⟨s, htorn⟩ := publish_torn (.v2 v2) ht hf
      refine iff_of_false (fun hsafe => ?_) (by simp)
      obtain h | ⟨_, _, h, _⟩ := hsafe.complete <;> rw [htorn] at h <;> cases h
  · obtain ⟨⟨e, hr⟩, hfs⟩ := publish_untouched (.v2 v2) ht
    refine iff_of_true (.of_untouched (by simp [hr]) ?_) (.inl (by simp))
    rw [hfs, hpath]

/-- A migration is safe exactly at the safe faults. -/
theorem migrate_safe_iff (hv1 : w.fs path = some (.v1 text file)) :
    MigrationSafe path passphrase text file ((migrateV1ToV2 path passphrase).run m w).1
      ((migrateV1ToV2 path passphrase).run m w).2 ↔ SafeFaults m w path passphrase file := by
  rw [migrateV1ToV2, Fx.bind_run]
  rcases hrun : (backupV1 path passphrase).run m w with ⟨r, v⟩
  cases r with
  | error e =>
    obtain ⟨hsafe, hfaults⟩ := backupV1_stopped hv1 hrun
    exact iff_of_true hsafe hfaults
  | ok body =>
    have hframe := backupV1_frame m path passphrase w w (.refl ∅ w)
    rw [hrun] at hframe
    obtain ⟨hbody, hsteps, rfl⟩ := (backupV1_eq_ok hv1).mp hrun
    obtain ⟨v2, hholds, hreplace⟩ := replaceV1_run m path passphrase body
      (backedUp w path (.v1 text file))
    simp only [hreplace]
    rw [safeFaults_backedUp hbody hsteps fun op hop => next_backedUp m w (.v1 text file) hop]
    refine publish_safe_iff hbody hholds ?_ (by simp [backedUp])
    exact (hframe.fs path (backupPathFor_ne path).symm).trans hv1

end Migrate

/-- A v1 vault of one entry, `k`, with the passphrase `pw`. -/
def singleV1 (tier : UInt8) : VaultFileV1 :=
  let master := Key.argon2id "pw".toList (Octets.random32 0) v1Kdf
  { salt := .encoded (Octets.random32 0)
    recoveryKeyEncrypted := none
    entries := (∅ : Std.ExtTreeMap Str EncryptedEntryV1 compare).insert "k".toList
      { ciphertext := .encoded
          ⟨.subkey master "vault-credentials".toList, 1, [], .utf8 "value".toList⟩
        tier, createdAt := "2026-01-01T00:00:00+00:00".toList,
        updatedAt := "2026-01-01T00:00:00+00:00".toList } }

/-- A disk with that vault. -/
def singleV1Disk (tier : UInt8) : Disk :=
  World.single vaultJson (.v1 "v1".toList (singleV1 tier)) 2

/-- Killed when it makes the file of the vault path private, a migration has
lost nothing. -/
theorem migrate_safe_iff_singleV1 :
    MigrationSafe vaultJson "pw".toList "v1".toList (singleV1 2)
      ((migrateV1ToV2 vaultJson "pw".toList).run (.faultyAt (.chmod vaultJson) (.kill []))
        (singleV1Disk 2)).1
      ((migrateV1ToV2 vaultJson "pw".toList).run (.faultyAt (.chmod vaultJson) (.kill []))
        (singleV1Disk 2)).2 :=
  (migrate_safe_iff (by simp [singleV1Disk, World.single])).mpr <| by
    refine .inr (.inr (.inr ⟨by decide, ?_⟩))
    rintro (⟨s, h⟩ | ⟨_, s, h⟩) <;> simp [Machine.next, Machine.faultyAt, singleV1Disk,
      World.single] at h

/-- Killed between emptying the vault path and writing it, a migration leaves
neither the v1 file nor a v2 file there. -/
theorem migrate_killed_in_place :
    ¬∀ (m : Machine) (path : Path) (passphrase text : Str) (file : VaultFileV1) (w : Disk),
      w.fs path = some (.v1 text file) →
        MigrationSafe path passphrase text file ((migrateV1ToV2 path passphrase).run m w).1
          ((migrateV1ToV2 path passphrase).run m w).2 := by
  intro h
  have hsafe := h (.faultyAt (.fill vaultJson) (.kill [])) vaultJson "pw".toList "v1".toList
    (singleV1 2) (singleV1Disk 2) (by simp [singleV1Disk, World.single])
  have hafter : ((migrateV1ToV2 vaultJson "pw".toList).run
      (.faultyAt (.fill vaultJson) (.kill [])) (singleV1Disk 2)).2.fs vaultJson =
        some (.text []) := by decide
  obtain hv1 | ⟨_, _, hv2, _⟩ := hsafe.complete
  · rw [hafter] at hv1
    cases hv1
  · rw [hafter] at hv2
    cases hv2

end HearthVault
