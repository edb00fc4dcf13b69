/-
HearthVault.Store.ConcurrentTheorems — no update of the vault file is lost.

`Call.safe` says what each call does to the view of its process, whatever the
other processes do meanwhile. In particular a save that answers a store has
written exactly one file, over the contents that its store was loaded from
(`save_beside`). `System.Inv` puts the processes together, and
`reachable_noLostUpdate` reads off every reachable state that saves write what
they should and that a vault is created at most once.
-/
import HearthVault.Store.Concurrent
import HearthVault.Store.Interference
import HearthVault.Store.SealingTheorems

namespace HearthVault

open Files Symbolic

/-! ## Loaded stores -/

/-- The store is what its data key opens in the file it was loaded from. -/
structure Loaded (path : Path) (store : VaultStore) (file : VaultFileV2) : Prop where
  fp : store.loadedFp = some ⟨.v2 file⟩
  store : VaultStore.ofFile path (.v2 file) file store.dataKey =
    .ok { store with lock := false }

namespace Loaded

variable {path : Path} {store store' : VaultStore} {c : Contents} {file : VaultFileV2}

theorem path_eq (h : Loaded path store file) : store.path = path := by
  have hstore := h.store
  simp only [VaultStore.ofFile, result_bind_eq_ok] at hstore
  obtain ⟨body, -, heq⟩ := hstore
  simp only [Except.ok.injEq, VaultStore.mk.injEq] at heq
  exact heq.1.symm

theorem of_ofFile {dataKey : Key} (h : VaultStore.ofFile path (.v2 file) file dataKey = .ok store) :
    Loaded path store file ∧ store.lock = false := by
  have hstore := h
  simp only [VaultStore.ofFile, result_bind_eq_ok] at hstore
  obtain ⟨body, -, ⟨⟩⟩ := hstore
  exact ⟨⟨rfl, h⟩, rfl⟩

theorem of_loadV2Contents {passphrase : Str}
    (h : VaultStore.loadV2Contents path passphrase c = .ok store) :
    (∃ file, Loaded path store file) ∧ store.lock = false := by
  simp only [VaultStore.loadV2Contents, result_bind_eq_ok] at h
  obtain ⟨file, hfile, _, -, _, -, hstore⟩ := h
  obtain rfl := parseV2_eq_ok hfile
  exact ⟨⟨file, (of_ofFile hstore).1⟩, (of_ofFile hstore).2⟩

theorem of_openWrapKeyContents {wrapKey : Key}
    (h : VaultStore.openWrapKeyContents path wrapKey c = .ok store) :
    (∃ file, Loaded path store file) ∧ store.lock = false := by
  simp only [VaultStore.openWrapKeyContents, result_bind_eq_ok] at h
  obtain ⟨file, hfile, _, -, hstore⟩ := h
  obtain rfl := parseV2_eq_ok hfile
  exact ⟨⟨file, (of_ofFile hstore).1⟩, (of_ofFile hstore).2⟩

theorem of_openMnemonicContents {phrase : Str}
    (h : VaultStore.openMnemonicContents path phrase c = .ok store) :
    (∃ file, Loaded path store file) ∧ store.lock = false := by
  simp only [VaultStore.openMnemonicContents, result_bind_eq_ok] at h
  obtain ⟨file, hfile, hstore⟩ := h
  obtain rfl := parseV2_eq_ok hfile
  cases hrec : file.wrap.recovery with
  | none => simp [hrec, bail] at hstore
  | some slot =>
    simp only [hrec, result_bind_eq_ok] at hstore
    obtain ⟨_, -, _, -, hstore⟩ := hstore
    exact ⟨⟨file, (of_ofFile hstore).1⟩, (of_ofFile hstore).2⟩

theorem of_refresh (hpath : store.path = path) (h : store.refresh c = .ok store') :
    (∃ file, Loaded path store' file) ∧ store'.lock = true := by
  simp only [VaultStore.refresh, result_bind_eq_ok, mapErr_eq_ok] at h
  obtain ⟨file, hfile, body, hbody, ⟨⟩⟩ := h
  obtain rfl := parseV2_eq_ok hfile
  exact ⟨⟨file, rfl, by simp [VaultStore.ofFile, hbody, hpath]⟩, rfl⟩

/-- A store that has just been saved. -/
theorem of_save (hpath : store.path = path) (n : Nat) :
    Loaded path { store with loadedFp := some ⟨.v2 (store.toFile n)⟩ } (store.toFile n) := by
  refine ⟨rfl, ?_⟩
  simp [VaultStore.ofFile, VaultStore.toFile, decryptBody_sealed, hpath]

end Loaded

/-- A store that is tied to a file it can be saved over. -/
structure Tied (path : Path) (store : VaultStore) : Prop where
  path : store.path = path
  file : ∃ file body, store.loadedFp = some ⟨.v2 file⟩ ∧
    decryptBody store.dataKey file.vault = .ok body

/-- What `save` writes is sealed under the data key of what it replaces. -/
theorem Tied.keepsDataKey {path : Path} {store : VaultStore} (h : Tied path store)
    {before : Option Contents} (hsame : store.unchanged before = true) (n : Nat) :
    KeepsDataKey before (some (.v2 (store.toFile n))) := by
  obtain ⟨file, body, hfp, hbody⟩ := h.file
  rintro file' file'' rfl ⟨⟩
  have hfile : file' = file := by simpa [VaultStore.unchanged, hfp] using hsame
  exact ⟨store.dataKey, body, store.body, hfile ▸ hbody, decryptBody_sealed⟩

/-! ## Mutations -/

/-- Two stores of one session: only body and slots may differ. -/
structure SameSession (a b : VaultStore) : Prop where
  path : b.path = a.path
  lock : b.lock = a.lock
  loadedFp : b.loadedFp = a.loadedFp
  dataKey : b.dataKey = a.dataKey

theorem SameSession.trans {a b c : VaultStore} (h : SameSession a b) (h' : SameSession b c) :
    SameSession a c :=
  ⟨h'.path.trans h.path, h'.lock.trans h.lock, h'.loadedFp.trans h.loadedFp,
    h'.dataKey.trans h.dataKey⟩

section Mutations

variable [Bip39]

/-- Mutations leave alone what ties the store to its file. -/
theorem Mutation.yields_fields {mutation : Mutation} {a b : VaultStore}
    (h : mutation.Yields a b) : SameSession a b ∧
      mutation.Yields { a with lock := false } { b with lock := false } := by
  cases mutation with
  | edit f =>
    simp only [Mutation.Yields, VaultStore.onBody, result_bind_eq_ok] at h ⊢
    obtain ⟨body, hbody, ⟨⟩⟩ := h
    exact ⟨⟨rfl, rfl, rfl, rfl⟩, body, hbody, rfl⟩
  | changePassphrase passphrase =>
    simp only [Mutation.Yields, VaultStore.rewrapPassphrase, result_bind_eq_ok] at h ⊢
    obtain ⟨salt, nonce, slot, hslot, ⟨⟩⟩ := h
    exact ⟨⟨rfl, rfl, rfl, rfl⟩, salt, nonce, slot, hslot, rfl⟩
  | newRecoveryKey =>
    simp only [Mutation.Yields, VaultStore.rewrapRecovery, result_bind_eq_ok] at h ⊢
    obtain ⟨entropy, salt, nonce, slot, hslot, ⟨⟩⟩ := h
    exact ⟨⟨rfl, rfl, rfl, rfl⟩, entropy, salt, nonce, slot, hslot, rfl⟩

theorem Yield.fields {pending : List Mutation} {a b : VaultStore} (h : Yield pending a b) :
    SameSession a b ∧ Yield pending { a with lock := false } { b with lock := false } := by
  induction pending generalizing a with
  | nil =>
    cases h
    exact ⟨⟨rfl, rfl, rfl, rfl⟩, rfl⟩
  | cons mutation rest ih =>
    obtain ⟨next, hnext, hrest⟩ := h
    obtain ⟨hsame, hyields⟩ := mutation.yields_fields hnext
    obtain ⟨hsame', hyields'⟩ := ih hrest
    exact ⟨hsame.trans hsame', _, hyields, hyields'⟩

theorem Yield.snoc {pending : List Mutation} {mutation : Mutation} {a b c : VaultStore}
    (h : Yield pending a b) (hb : mutation.Yields b c) : Yield (pending ++ [mutation]) a c := by
  induction pending generalizing a with
  | nil =>
    cases h
    exact ⟨c, hb, rfl⟩
  | cons first rest ih =>
    obtain ⟨next, hnext, hrest⟩ := h
    exact ⟨next, hnext, ih hrest⟩

end Mutations

/-! ## One call -/

section Calls

variable {m : Machine} {path : Path} {l : List (Commit Contents)}

/-- The check of `save` passes only over the file that was loaded. -/
theorem checkUnchanged_beside (store : VaultStore) {φ : Option Contents → Prop} {msg : String} :
    Beside m path (fun v => (∃ before, v.file = some before ∧ φ before) ∧ v.commits = l)
      (Fx.when store.loadedFp.isSome do
        let onDisk ← Fx.attempt (Fx.read path)
        Fx.ensure (store.unchanged onDisk.toOption) msg)
      (fun _ v => ∃ before, (v.file = some before ∧ v.commits = l) ∧
        φ before ∧ store.unchanged before = true)
      (fun v => v.commits = l) := by
  refine Fx.Among.when (fun hsome => ?_) fun hnone v ⟨⟨before, hbefore, hφ⟩, hl⟩ => ?_
  · obtain ⟨fp, hfp⟩ := Option.isSome_iff_exists.mp hsome
    have hread : Beside m path
        (fun v => (∃ before, v.file = some before ∧ φ before) ∧ v.commits = l)
        (Fx.attempt (Fx.read path))
        (fun r v => ((∃ before, v.file = some before ∧ φ before) ∧ v.commits = l) ∧
          ∀ c, r = .ok c → ∀ before, v.file = some before → before = some c)
        (fun v => v.commits = l) := by
      refine (Fx.Among.attempt (beside_read (fun c v hv h => And.intro hv h) fun v hv => hv)).weaken
        (fun _ h => h) ?_ fun v h => h.2
      intro r v hv
      cases r with
      | error e => exact ⟨hv, nofun⟩
      | ok c =>
        refine ⟨hv.1, ?_⟩
        rintro _ ⟨⟩
        exact hv.2
    refine hread.bind fun r => Fx.Among.ensure (fun v hv hsame => ?_) fun v hv => hv.1.2
    cases r with
    | error e => simp [VaultStore.unchanged, hfp, Except.toOption] at hsame
    | ok c =>
      obtain ⟨before, hbefore, hφ⟩ := hv.1.1
      obtain rfl := hv.2 c rfl before hbefore
      exact ⟨some c, ⟨hbefore, hv.1.2⟩, hφ, hsame⟩
  · refine ⟨before, ⟨hbefore, hl⟩, hφ, ?_⟩
    cases hfp : store.loadedFp with
    | none => simp [VaultStore.unchanged, hfp]
    | some fp => exact absurd (by simp [hfp]) hnone

/-- `save` writes its file over the one it was loaded from, or writes nothing.
When the lock is held before, the vault file may be known. -/
theorem save_beside (store : VaultStore) (hpath : store.path = path) {φ : Option Contents → Prop}
    (hφ : store.lock = false → ∀ c, φ c)
    (hkeeps : ∀ before n, φ before → store.unchanged before = true →
      KeepsDataKey before (some (.v2 (store.toFile n)))) :
    Beside m path
      (fun v => (v.held = store.lock ∧ ∀ before, v.file = some before → φ before) ∧ v.commits = l)
      store.save
      (fun store' v => v.held = store.lock ∧ ∃ before n,
        v.commits = l ++ [⟨m.pid, before, some (.v2 (store.toFile n))⟩] ∧
        φ before ∧ store.unchanged before = true ∧
        store' = { store with loadedFp := some ⟨.v2 (store.toFile n)⟩ })
      (fun v => v.commits = l) := by
  subst hpath
  refine beside_underLock (E := (· = l)) (Q := fun store' l' => ∃ before n,
    l' = l ++ [⟨m.pid, before, some (.v2 (store.toFile n))⟩] ∧ φ before ∧
    store.unchanged before = true ∧ store' = { store with loadedFp := some ⟨.v2 (store.toFile n)⟩ })
    hφ rfl ?_
  refine (checkUnchanged_beside store).bind fun _ => Fx.Among.of_exists fun before =>
    Fx.Among.fact fun ⟨hbefore, hsame⟩ => ?_
  refine Fx.Among.bind (Q := fun _ v => v.file = some before ∧ v.commits = l) ?_ fun _ => ?_
  · exact beside_check nofun rfl fun w v hv _ => hv
  refine Fx.Among.bind (Q := fun _ v => v.file = some before ∧ v.commits = l) ?_ fun n => ?_
  · exact beside_random fun n v hv => hv
  refine (beside_writePrivate (hkeeps before n hbefore hsame)).mapErr.bind fun _ =>
    Fx.Among.pure fun v hv => ?_
  exact ⟨hv.1, before, n, hv.2, hbefore, hsame, rfl⟩

/-- A program that reads the vault file and computes a store from it. -/
theorem readThen_beside {P : View → Prop} {φ : VaultStore → Prop} {read : Prog Contents}
    {f : Contents → Result VaultStore}
    (hread : Beside m path P read (fun _ => P) fun _ => True)
    (hf : ∀ c store, f c = .ok store → φ store) :
    Beside m path P (do let c ← read; Fx.ofResult (f c)) (fun store v => φ store ∧ P v)
      (fun _ => True) := by
  refine hread.bind fun c => Fx.Among.ofResult fun v hv => ?_
  cases hfc : f c with
  | error e => trivial
  | ok store => exact ⟨hf c store hfc, hv⟩

theorem readToString_beside {P : View → Prop} :
    Beside m path P (readToString path) (fun _ => P) (fun _ => True) :=
  beside_readToString (fun _ _ hv _ => hv) fun _ _ => trivial

/-- What an opened or refreshed store is, and that its lock is the one held. -/
def IsLoaded (path : Path) (store : VaultStore) (v : View) : Prop :=
  (∃ file, Loaded path store file) ∧ v.held = store.lock

theorem loadV2_beside (passphrase : Str) :
    Beside m path (fun v => v.held = false) (VaultStore.loadV2 path passphrase) (IsLoaded path)
      (fun _ => True) := by
  refine (readThen_beside readToString_beside fun c store h =>
    Loaded.of_loadV2Contents h).weaken (fun _ h => h) (fun store v h => ?_) fun _ h => h
  exact ⟨h.1.1, h.2.trans h.1.2.symm⟩

theorem openAtWithWrapKey_beside (wrapKey : Key) :
    Beside m path (fun v => v.held = false) (VaultStore.openAtWithWrapKey path wrapKey)
      (IsLoaded path) (fun _ => True) := by
  refine (readThen_beside readToString_beside fun c store h =>
    Loaded.of_openWrapKeyContents h).weaken (fun _ h => h) (fun store v h => ?_) fun _ h => h
  exact ⟨h.1.1, h.2.trans h.1.2.symm⟩

theorem openAtWithMnemonic_beside [Bip39] (mnemonic : Str) :
    Beside m path (fun v => v.held = false) (VaultStore.openAtWithMnemonic path mnemonic)
      (IsLoaded path) (fun _ => True) := by
  refine Fx.Among.bind (Q := fun _ v => v.held = false) (Fx.Among.ofResult fun v hv => ?_)
    fun phrase => ?_
  · cases readMnemonic mnemonic with
    | ok phrase => exact hv
    | error e => trivial
  · refine (readThen_beside readToString_beside.mapErr fun c store h =>
      Loaded.of_openMnemonicContents h).weaken (fun _ h => h) (fun store v h => ?_) fun _ h => h
    exact ⟨h.1.1, h.2.trans h.1.2.symm⟩

theorem lockAndRefresh_beside (store : VaultStore) (hpath : store.path = path) :
    Beside m path (fun v => v.held = store.lock) store.lockAndRefresh (IsLoaded path)
      (fun _ => True) := by
  subst hpath
  refine Fx.Among.bind (Q := fun _ v => v.held = true) ?_ fun _ => ?_
  · refine Fx.Among.when (fun _ => beside_acquire (fun _ _ _ => rfl) fun _ _ => trivial)
      fun hlock v hv => ?_
    simpa [hv] using hlock
  · refine (readThen_beside readToString_beside.mapErr fun c store' h =>
      Loaded.of_refresh rfl h).weaken (fun _ h => h) (fun store v h => ?_) fun _ h => h
    exact ⟨h.1.1, h.2.trans h.1.2.symm⟩

/-- `create_new` writes where there is no file. -/
theorem createNew_beside (passphrase : Str) :
    Beside m path (fun v => v.file = some none) (VaultStore.createNew path passphrase)
      (fun store _ => (∃ file, Loaded path store file) ∧ store.lock = false) (fun _ => True) := by
  have hrandom : Beside m path (fun v => v.file = some none) Fx.random
      (fun _ v => v.file = some none) (fun _ => True) :=
    beside_random fun _ _ hv => hv
  refine hrandom.bind fun key => hrandom.bind fun salt => hrandom.bind fun nonce => ?_
  refine Fx.Among.bind (Q := fun store v => v.file = some none ∧
    store.path = path ∧ store.lock = true)
    (Fx.Among.ofResult fun v hv => ?_) fun store => Fx.Among.fact fun hfresh => ?_
  · cases hfresh : VaultStore.fresh path passphrase key salt nonce with
    | error e => trivial
    | ok store =>
      simp only [VaultStore.fresh, result_bind_eq_ok] at hfresh
      obtain ⟨slot, -, ⟨⟩⟩ := hfresh
      exact ⟨hv, rfl, rfl⟩
  · obtain ⟨hpath, hlock⟩ := hfresh
    have hsave : Beside m path (fun v => v.file = some none) store.save
        (fun store' _ => ∃ file, Loaded path store' file) (fun _ => True) := by
      intro v hv
      have hnone : ∀ before n, before = none → store.unchanged before = true →
          KeepsDataKey before (some (.v2 (store.toFile n))) :=
        fun before n hbefore _ => hbefore ▸ keepsDataKey_none _
      refine (save_beside store hpath (φ := (· = none)) (by simp [hlock]) hnone v
        ⟨⟨(View.held_of_file hv).trans hlock.symm, by simp [hv]⟩, rfl⟩).weaken fun r v' h => ?_
      cases r with
      | error e => trivial
      | ok store' =>
        obtain ⟨-, before, n, -, -, -, rfl⟩ := h
        exact ⟨_, Loaded.of_save hpath n⟩
    refine hsave.bind fun store' => Fx.Among.pure fun v hloaded => ?_
    obtain ⟨file, h⟩ := hloaded
    exact ⟨⟨file, h.fp, h.store⟩, rfl⟩

/-- `open_at_with_passphrase` creates the vault only where there is none, and
migrates it only while it is no v2 vault. -/
theorem openAtWithPassphrase_beside (passphrase : Str) :
    Beside m path (fun v => v.held = false) (VaultStore.openAtWithPassphrase path passphrase)
      (IsLoaded path) (fun _ => True) := by
  have hversion : ∀ (P : View → Prop) (c : Contents),
      Beside m path P (Fx.ofResult (hasVersion c)) (fun b v => P v ∧ hasVersion c = .ok b)
        (fun _ => True) := by
    refine fun P c => Fx.Among.ofResult fun v hv => ?_
    cases hasVersion c with
    | ok b => exact ⟨hv, rfl⟩
    | error e => trivial
  have hheld : ∀ P : View → Prop, Beside m path P (acquire path) (fun _ v => v.held = true)
      (fun _ => True) :=
    fun P => beside_acquire (fun _ _ _ => rfl) fun _ _ => trivial
  have hload : ∀ P : View → Prop, (∀ v, P v → v.held = false) → Beside m path P
      (VaultStore.loadV2 path passphrase) (IsLoaded path) (fun _ => True) :=
    fun P hP => (loadV2_beside passphrase).weaken hP (fun _ _ h => h) fun _ h => h
  refine Fx.Among.bind (Q := fun _ v => v.held = false)
    (beside_pathExists fun _ _ hv _ => hv) fun existed => ?_
  cases existed with
  | true =>
    refine readToString_beside.bind fun c => (hversion _ c).bind fun versioned => ?_
    refine Fx.Among.bind (Q := fun _ v => v.held = false)
      (Fx.Among.when (fun _ => ?_) fun _ _ hv => hv.1) fun _ => hload _ fun _ hv => hv
    -- Under the lock the file is looked at again.
    refine (hheld _).bind fun _ => beside_releasing ?_
    have hread : Beside m path (fun v => v.held = true) (readToString path)
        (fun c v => v.file = some (some c)) (fun _ => True) := by
      refine beside_readToString (fun c v hv hc => ?_) fun _ _ => trivial
      obtain ⟨before, hbefore⟩ := Option.isSome_iff_exists.mp hv
      rw [hbefore, hc before hbefore]
    have hagain : ∀ again versioned, Beside m path
        (fun v => v.file = some (some again) ∧ hasVersion again = .ok versioned)
        (Fx.when (versioned = false) (migrateV1ToV2 path passphrase)) (fun _ v => v.held = true)
        (fun _ => True) := by
      intro again versioned
      refine Fx.Among.when (fun hnot => ?_) fun _ v hv => View.held_of_file hv.1
      refine (beside_migrate passphrase).weaken (fun v hv => ⟨some again, hv.1, ?_⟩)
        (fun _ _ h => h) fun _ h => h
      rintro file ⟨⟩
      simp [hasVersion, hnot] at hv
    refine Fx.Among.weaken (hread.bind fun again => (hversion _ again).bind (hagain again))
      (fun _ h => h) (fun _ _ _ => rfl) fun _ _ => trivial
  | false =>
    refine (hheld _).bind fun _ => ?_
    refine Fx.Among.bind (Q := fun existed v => ∃ before, v.file = some before ∧
      before.isSome = existed) (beside_pathExists fun b v hv hb => ?_) fun existed => ?_
    · obtain ⟨before, hbefore⟩ := Option.isSome_iff_exists.mp hv
      exact ⟨before, hbefore, hb before hbefore⟩
    cases existed with
    | true =>
      exact Fx.Among.bind (beside_unlock (Q := fun _ v => v.held = false) fun _ _ => rfl)
        fun _ => hload _ fun _ hv => hv
    | false =>
      refine beside_releasing ((createNew_beside passphrase).weaken (fun v hv => ?_)
        (fun store v h => ?_) fun _ _ => trivial)
      · obtain ⟨before, hbefore, hnone⟩ := hv
        rw [hbefore, Option.isSome_eq_false_iff.mp hnone |> Option.isNone_iff_eq_none.mp]
      · exact ⟨h.1, h.2.symm⟩

theorem mutation_beside [Bip39] (mutation : Mutation) (store : VaultStore) {P : View → Prop} :
    Beside m path P (mutation.program store) (fun store' v => mutation.Yields store store' ∧ P v)
      (fun _ => True) := by
  have hrandom : Beside m path P Fx.random (fun _ => P) (fun _ => True) :=
    beside_random fun _ _ hv => hv
  have hresult : ∀ {r : Result VaultStore} {φ : VaultStore → Prop},
      (∀ store', r = .ok store' → φ store') →
      Beside m path P (Fx.ofResult r) (fun store' v => φ store' ∧ P v) (fun _ => True) := by
    refine fun {r φ} hr => Fx.Among.ofResult fun v hv => ?_
    cases r with
    | error e => trivial
    | ok store' => exact ⟨hr store' rfl, hv⟩
  cases mutation with
  | edit f => exact hresult fun store' h => h
  | changePassphrase passphrase =>
    exact hrandom.bind fun salt => hrandom.bind fun nonce => hresult fun store' h =>
      ⟨salt, nonce, h⟩
  | newRecoveryKey =>
    refine Fx.Among.bind (Q := fun a v => Mutation.newRecoveryKey.Yields store a.1 ∧ P v) ?_
      fun a => Fx.Among.pure fun v hv => hv
    refine hrandom.bind fun entropy => hrandom.bind fun salt => hrandom.bind fun nonce => ?_
    refine (hresult (φ := Mutation.newRecoveryKey.Yields store) fun store' h =>
      ⟨entropy, salt, nonce, h⟩).bind fun store' => Fx.Among.pure fun v hv => hv

/-- What a call has done to the view of its process when it has ended. -/
def Call.Post [Bip39] (path : Path) (i : Nat) (store? : Option VaultStore)
    (mark : List (Commit Contents)) : Call → Result VaultStore → View → Prop
  | .save, .ok store', v => ∃ store before n, store? = some store ∧
      v.commits = mark ++ [⟨i, before, some (.v2 (store.toFile n))⟩] ∧
      store.unchanged before = true ∧
      store' = { store with loadedFp := some ⟨.v2 (store.toFile n)⟩ } ∧ v.held = store.lock
  | .save, .error _, v => v.commits = mark
  | .change mutation, .ok store', v =>
    (∃ store, store? = some store ∧ mutation.Yields store store' ∧ v.held = store.lock)
  | .openPassphrase _, .ok store, v | .openMnemonic _, .ok store, v
  | .openWrapKey _, .ok store, v | .refresh, .ok store, v => IsLoaded path store v
  | _, .error _, _ => True

/-- A process holds the lock that its open store says it holds. -/
def HoldsLock (store? : Option VaultStore) (v : View) : Prop :=
  v.held = (store?.map (·.lock)).getD false

/-- Every call, beside any other processes. -/
theorem Call.safe [Bip39] {call : Call} {store? : Option VaultStore} {x : Prog VaultStore}
    (hx : call.program path store? = some x)
    (htied : ∀ store, store? = some store → Tied path store) {v : View} (hv : HoldsLock store? v) :
    Fx.Safe path m (view path m.pid) (Allows path m.pid)
      (call.Post path m.pid store? v.commits) x v := by
  cases store? with
  | none =>
    cases call with
    | openPassphrase passphrase =>
      cases hx
      refine (openAtWithPassphrase_beside passphrase v hv).weaken fun r v h => ?_
      cases r with
      | error e => trivial
      | ok store => exact h
    | openMnemonic mnemonic =>
      cases hx
      refine (openAtWithMnemonic_beside mnemonic v hv).weaken fun r v h => ?_
      cases r with
      | error e => trivial
      | ok store => exact h
    | openWrapKey wrapKey =>
      cases hx
      refine (openAtWithWrapKey_beside wrapKey v hv).weaken fun r v h => ?_
      cases r with
      | error e => trivial
      | ok store => exact h
    | _ => cases hx
  | some store =>
    cases call with
    | refresh =>
      cases hx
      refine (lockAndRefresh_beside store (htied store rfl).path v hv).weaken fun r v h => ?_
      cases r with
      | error e => trivial
      | ok store => exact h
    | change mutation =>
      cases hx
      refine (mutation_beside mutation store v hv).weaken fun r v h => ?_
      cases r with
      | error e => trivial
      | ok store' => exact ⟨store, rfl, h⟩
    | save =>
      cases hx
      have hkeeps : ∀ before n, True → store.unchanged before = true →
          KeepsDataKey before (some (.v2 (store.toFile n))) :=
        fun before n _ hsame => (htied store rfl).keepsDataKey hsame n
      refine (save_beside store (htied store rfl).path (φ := fun _ => True) (fun _ _ => trivial)
        hkeeps v ⟨⟨hv, fun _ _ => trivial⟩, rfl⟩).weaken fun r v h => ?_
      cases r with
      | error e => exact h
      | ok store' =>
        obtain ⟨hheld, before, n, hcommits, -, hsame, hstore⟩ := h
        exact ⟨store, before, n, rfl, hcommits, hsame, hstore, hheld⟩
    | _ => cases hx

end Calls

/-! ## All processes -/

theorem view_ended_self {path : Path} (i : Nat) (s : Shared Contents) :
    (view path i (s.ended i)).held = false := by
  by_cases h : s.owner (lockPathFor path) = some i
  · simp [view, View.held, Shared.ended, h]
  · simp [view, View.held, Shared.ended, h]

theorem view_ended_other {path : Path} {i j : Nat} (hj : j ≠ i) (s : Shared Contents) :
    view path j (s.ended i) = view path j s := by
  have hother : some i ≠ some j := by simpa using hj.symm
  by_cases h : s.owner (lockPathFor path) = some i
  · simp [view, Shared.ended, Shared.commits, h, hother]
  · simp [view, Shared.ended, Shared.commits, h]

section System

variable [Bip39] {path : Path} {clock : Nat → Nat → Int}

/-- The store is its mutations of what it was loaded with. -/
def Opened.Good (path : Path) (o : Opened) : Prop :=
  ∃ base file, Loaded path base file ∧ Yield o.pending base o.store

theorem Opened.Good.tied {o : Opened} (h : o.Good path) : Tied path o.store := by
  obtain ⟨base, file, hbase, hyield⟩ := h
  obtain ⟨hsame, -⟩ := hyield.fields
  obtain ⟨body, hbody, -⟩ := result_bind_eq_ok.mp hbase.store
  refine ⟨hsame.path.trans hbase.path_eq, file, body, hsame.loadedFp.trans hbase.fp, ?_⟩
  rw [hsame.dataKey]
  exact hbody

/-- What holds of a process and of its view. -/
def Proc.Inv (path : Path) (clock : Nat → Nat → Int) (i : Nat) (v : View) : Proc → Prop
  | .idle o => (∀ opened, o = some opened → opened.Good path) ∧
    HoldsLock (o.map (·.store)) v
  | .calling o call mark x => (∀ opened, o = some opened → opened.Good path) ∧
    Fx.Safe path (process clock i) (view path i) (Allows path i)
      (call.Post path i (o.map (·.store)) mark) x v
  | .ended => v.held = false

structure System.Inv (path : Path) (clock : Nat → Nat → Int) (σ : System) : Prop where
  procs : ∀ i, (σ.procs i).Inv path clock i (view path i σ.shared)
  keeps : ∀ c ∈ σ.shared.log, KeepsDataKey c.before c.after
  created : (σ.shared.log.filter fun c => c.before = none).length ≤ 1
  absent : σ.shared.world.fs path = none → σ.shared.log = []

/-- One process has changed, in a state that the others see unchanged. -/
theorem System.Inv.update {σ : System} (h : σ.Inv path clock) {i : Nat} {s : Shared Contents}
    {proc : Proc} (hothers : ∀ j, j ≠ i → view path j s = view path j σ.shared)
    (hproc : proc.Inv path clock i (view path i s)) (j : Nat) :
    (Function.update σ.procs i proc j).Inv path clock j (view path j s) := by
  by_cases hj : j = i
  · subst hj
    rw [Function.update_self]
    exact hproc
  · rw [Function.update_of_ne hj, hothers j hj]
    exact h.procs j

theorem System.Inv.exec {σ : System} (h : σ.Inv path clock) {i : Nat} {o : Option Opened}
    {call : Call} {mark : List (Commit Contents)} {x x' : Prog VaultStore} {s : Shared Contents}
    (hi : σ.procs i = .calling o call mark x)
    (hx : x.next path (process clock i) σ.shared = some (x', s)) :
    System.Inv path clock ⟨s, Function.update σ.procs i (.calling o call mark x')⟩ := by
  have hproc := h.procs i
  rw [hi] at hproc
  obtain ⟨hallows, hsafe⟩ := hproc.2.next hx
  refine ⟨h.update hallows.others ⟨hproc.1, hsafe⟩, ?_, ?_, fun hnone => ?_⟩
  · obtain hlog | ⟨after, hlog, -, hkeeps⟩ := hallows.log
    · rw [hlog]
      exact h.keeps
    · rw [hlog]
      intro c hc
      obtain hc | hc := List.mem_append.mp hc
      · exact h.keeps c hc
      · obtain rfl := List.mem_singleton.mp hc
        exact hkeeps
  · obtain hlog | ⟨after, hlog, -, -⟩ := hallows.log
    · rw [hlog]
      exact h.created
    · -- A file that is written where there was none is the first.
      rw [hlog]
      cases hc : σ.shared.world.fs path with
      | none =>
        rw [h.absent hc]
        exact List.length_filter_le _ _
      | some d => simpa using h.created
  · have hbefore : σ.shared.world.fs path = none := by
      cases hc : σ.shared.world.fs path with
      | none => rfl
      | some d => simpa [show s.world.fs path = none from hnone] using hallows.stays (by simp [hc])
    obtain hlog | ⟨after, -, hafter, -⟩ := hallows.log
    · rw [hlog]
      exact h.absent hbefore
    · simp [show s.world.fs path = none from hnone] at hafter

/-- A call that has answered leaves a store that is good again. -/
theorem System.Inv.answer {σ : System} (h : σ.Inv path clock) {i : Nat} {o : Option Opened}
    {call : Call} {mark : List (Commit Contents)} {store : VaultStore}
    (hi : σ.procs i = .calling o call mark (.done (.ok store))) :
    (Proc.idle (some ⟨store, call.pending ((o.map (·.pending)).getD [])⟩)).Inv path clock i
      (view path i σ.shared) := by
  have hproc := h.procs i
  rw [hi] at hproc
  obtain ⟨hgood, hsafe⟩ := hproc
  have hpost := hsafe.ended
  have hloaded : IsLoaded path store (view path i σ.shared) →
      (∀ opened, some (Opened.mk store []) = some opened → opened.Good path) ∧
        HoldsLock (some store) (view path i σ.shared) := by
    rintro ⟨⟨file, hfile⟩, hheld⟩
    refine ⟨?_, hheld⟩
    rintro _ ⟨⟩
    exact ⟨store, file, hfile, rfl⟩
  cases call with
  | openPassphrase passphrase => exact hloaded hpost
  | openMnemonic mnemonic => exact hloaded hpost
  | openWrapKey wrapKey => exact hloaded hpost
  | refresh => exact hloaded hpost
  | change mutation =>
    obtain ⟨a, ha, hyields, hheld⟩ := hpost
    obtain ⟨opened, rfl, rfl⟩ := Option.map_eq_some_iff.mp ha
    obtain ⟨base, file, hbase, hyield⟩ := hgood opened rfl
    obtain ⟨hsame, -⟩ := mutation.yields_fields hyields
    refine ⟨?_, hheld.trans hsame.lock.symm⟩
    rintro _ ⟨⟩
    exact ⟨base, file, hbase, hyield.snoc hyields⟩
  | save =>
    obtain ⟨a, before, n, ha, -, -, rfl, hheld⟩ := hpost
    obtain ⟨opened, rfl, rfl⟩ := Option.map_eq_some_iff.mp ha
    refine ⟨?_, hheld⟩
    rintro _ ⟨⟩
    exact ⟨_, _, Loaded.of_save (hgood opened rfl).tied.path n, rfl⟩

theorem System.Inv.step {σ σ' : System} (h : σ.Inv path clock) (hstep : Step path clock σ σ') :
    σ'.Inv path clock := by
  cases hstep with
  | @start i hi =>
    have hproc := h.procs i
    rw [hi] at hproc
    have hidle : (Proc.idle none).Inv path clock i (view path i σ.shared) :=
      ⟨fun _ hnone => (nomatch hnone), hproc⟩
    exact ⟨h.update (fun _ _ => rfl) hidle, h.keeps, h.created, h.absent⟩
  | @call i o call x hi hx =>
    have hproc := h.procs i
    rw [hi] at hproc
    refine ⟨h.update (fun _ _ => rfl) ⟨hproc.1, ?_⟩, h.keeps, h.created, h.absent⟩
    refine Call.safe hx (fun store hstore => ?_) hproc.2
    obtain ⟨opened, rfl, rfl⟩ := Option.map_eq_some_iff.mp hstore
    exact (hproc.1 opened rfl).tied
  | exec hi hx => exact h.exec hi hx
  | answer hi => exact ⟨h.update (fun _ _ => rfl) (h.answer hi), h.keeps, h.created, h.absent⟩
  | exit i =>
    exact ⟨h.update (fun j hj => view_ended_other hj σ.shared) (view_ended_self i σ.shared),
      h.keeps, h.created, h.absent⟩

theorem System.Reachable.inv {σ : System} (h : σ.Reachable path clock) : σ.Inv path clock := by
  induction h with
  | initial h =>
    refine ⟨fun i => ?_, by simp [h.log], by simp [h.log], fun _ => h.log⟩
    rw [h.procs i]
    simp [Proc.Inv, view, View.held, h.owner]
  | step _ hstep ih => exact ih.step hstep

/-- What a reader of the vault file relies on. A save that answers a store has
written once, over what it is the mutations of; one that answers an error has
written nothing. The vault file is created where there is none only once, and
no write over a v2 file is under another data key. -/
structure NoLostUpdate (path : Path) (σ : System) : Prop where
  saved : ∀ i o mark store, σ.procs i = .calling (some o) .save mark (.done (.ok store)) →
    ∃ before after, σ.shared.commits i = mark ++ [⟨i, before, after⟩] ∧
      Updated path o.pending before after
  refused : ∀ i o mark e, σ.procs i = .calling (some o) .save mark (.done (.error e)) →
    σ.shared.commits i = mark
  created : (σ.shared.log.filter fun c => c.before = none).length ≤ 1
  keeps : ∀ c ∈ σ.shared.log, KeepsDataKey c.before c.after

/-- No update is lost, in any interleaving of any processes. -/
theorem reachable_noLostUpdate {σ : System} (h : σ.Reachable path clock) : NoLostUpdate path σ := by
  have hinv := h.inv
  refine ⟨fun i o mark store hi => ?_, fun i o mark e hi => ?_, hinv.created, hinv.keeps⟩
  · have hproc := hinv.procs i
    rw [hi] at hproc
    obtain ⟨hgood, hsafe⟩ := hproc
    obtain ⟨a, before, n, ⟨⟩, hcommits, hsame, -, -⟩ := hsafe.ended
    obtain ⟨base, file, hbase, hyield⟩ := hgood o rfl
    obtain ⟨hsession, hyield'⟩ := hyield.fields
    refine ⟨before, _, hcommits, file, base.dataKey, _, _, n, ?_, hbase.store, hyield', rfl⟩
    have hfp : o.store.loadedFp = some ⟨.v2 file⟩ := hsession.loadedFp.trans hbase.fp
    cases before with
    | none => simp [VaultStore.unchanged, hfp] at hsame
    | some c => simpa [VaultStore.unchanged, hfp] using hsame
  · have hproc := hinv.procs i
    rw [hi] at hproc
    exact hproc.2.ended

end System

/-! ## A run -/

section Run

variable [Bip39] {path : Path} {clock : Nat → Nat → Int}

/-- A process takes its turn: it starts, makes the next operation of its call,
or takes the answer. -/
def System.turn (path : Path) (clock : Nat → Nat → Int) (i : Nat) (σ : System) : System :=
  match σ.procs i with
  | .ended => { σ with procs := Function.update σ.procs i (.idle none) }
  | .idle _ => σ
  | .calling o call mark x =>
    match x.next path (process clock i) σ.shared with
    | some (x', s) => ⟨s, Function.update σ.procs i (.calling o call mark x')⟩
    | none =>
      match x with
      | .done (.ok store) => { σ with
          procs := Function.update σ.procs i
            (.idle (some ⟨store, call.pending ((o.map (·.pending)).getD [])⟩)) }
      | _ => σ

/-- A process that is between two calls makes one. -/
def System.request (path : Path) (i : Nat) (call : Call) (σ : System) : System :=
  match σ.procs i with
  | .idle o =>
    match call.program path (o.map (·.store)) with
    | some x =>
      { σ with procs := Function.update σ.procs i (.calling o call (σ.shared.commits i) x) }
    | none => σ
  | _ => σ

theorem System.Reachable.turn {σ : System} (h : σ.Reachable path clock) (i : Nat) :
    (σ.turn path clock i).Reachable path clock := by
  unfold System.turn
  split
  · rename_i hi
    exact h.step (.start hi)
  · exact h
  · rename_i hi
    split
    · rename_i hx
      exact h.step (.exec hi hx)
    · split
      · exact h.step (.answer hi)
      · exact h

theorem System.Reachable.turns {σ : System} (h : σ.Reachable path clock) (i n : Nat) :
    ((System.turn path clock i)^[n] σ).Reachable path clock := by
  induction n generalizing σ with
  | zero => exact h
  | succ n ih => exact ih (h.turn i)

theorem System.Reachable.request {σ : System} (h : σ.Reachable path clock) (i : Nat) (call : Call) :
    (σ.request path i call).Reachable path clock := by
  unfold System.request
  split
  · rename_i hi
    split
    · rename_i hx
      exact h.step (.call hi hx)
    · exact h
  · exact h

end Run

/-- Two processes open one vault; both change the passphrase and save, and the
save that comes second is refused. -/
theorem reachable_noLostUpdate_contended :
    letI := onePhrase
    ∃ σ : System, NoLostUpdate vaultJson σ ∧ (σ.shared.commits 1).length = 2 ∧
      σ.shared.commits 2 = [] := by
  let _ := onePhrase
  let clock : Nat → Nat → Int := fun _ _ => 0
  let σ : System := ⟨⟨⟨fun _ => none, 0, 0, fun _ => 0⟩, fun _ => none, []⟩, fun _ => .ended⟩
  have h : σ.Reachable vaultJson clock := .initial ⟨fun _ => rfl, rfl, fun _ => rfl⟩
  have hfirst := ((h.turn 1).request 1 (.openPassphrase ['a'])).turns 1 25
  have hsecond := ((hfirst.turn 2).request 2 (.openPassphrase ['a'])).turns 2 25
  have hchanged := (hsecond.request 1 (.change (.changePassphrase ['b']))).turns 1 25
  have hchanged' := (hchanged.request 2 (.change (.changePassphrase ['c']))).turns 2 25
  have hsaved := (hchanged'.request 1 .save).turns 1 25
  have hrefused := (hsaved.request 2 .save).turns 2 25
  exact ⟨_, reachable_noLostUpdate hrefused, by decide +kernel, by decide +kernel⟩

end HearthVault
